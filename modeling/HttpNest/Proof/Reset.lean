import HttpNest.Proof.ParserStep
import HttpNest.Spec.ParserCalls

/-!
# What `ClearForNextHttp` forgets

`Same p q` says that no call can tell the parsers apart: they differ at most in the block read
last and in lengths that the state does not read. It is a bisimulation of all calls
(`Same.call`), so two such parsers show the same for good (`Same.seen`).

A cleared parser is the same as a new one but for `isChunked_`, `isStream_` and `reason_`,
which are never reset (`cleared_same_iff`), and each of them can be seen. So the reset is
complete exactly if no message of the history was chunked, a stream or rejected
(`reset_fresh_iff`).
-/

namespace HttpNest

open ListSearch HttpParser EventRun

variable {p q : HttpParser} {b : WfBuffer}

/-- The parsers agree in all that a call can read. -/
structure Same (p q : HttpParser) : Prop where
  state : q.state = p.state
  isStream : q.isStream = p.isStream
  isChunked : q.isChunked = p.isChunked
  reason : q.reason = p.reason
  chunk : q.chunk = p.chunk
  req : q.req = p.req
  contentLength : p.state = .kExpectNormalBody → q.curContentLength = p.curContentLength
  chunkLength : p.state = .kExpectChunkBody → q.curChunkLength = p.curChunkLength
  isRequest : p.req ≠ none → q.isRequest = p.isRequest

theorem Same.refl (p : HttpParser) : Same p p :=
  ⟨rfl, rfl, rfl, rfl, rfl, rfl, fun _ => rfl, fun _ => rfl, fun _ => rfl⟩

/-- Both calls fault alike, or return alike with parsers that are the same. -/
def Alike (x y : Except Fault (HttpParserState × HttpParser × WfBuffer)) : Prop :=
  (∃ e, x = .error e ∧ y = .error e) ∨
    ∃ s p' q' b', x = .ok (s, p', b') ∧ y = .ok (s, q', b') ∧ Same p' q'

theorem Alike.of_same {s : HttpParserState} (h : Same p q) :
    Alike (.ok (s, p, b)) (.ok (s, q, b)) :=
  .inr ⟨s, p, q, b, rfl, rfl, h⟩

/-- The state is what is returned. -/
theorem Alike.returned (h : Same p q) :
    Alike (.ok (returned (p, b))) (.ok (returned (q, b))) := by
  refine .inr ⟨p.state, p, q, b, rfl, ?_, h⟩
  show Except.ok (q.state, q, b) = _
  rw [h.state]

/-! ## A bisimulation -/

theorem Same.fail (h : Same p q) : Same p.fail q.fail :=
  ⟨rfl, h.isStream, h.isChunked, rfl, h.chunk, h.req, fun hs => (by cases hs),
    fun hs => (by cases hs), h.isRequest⟩

theorem Same.header (h : Same p q) (bs : Bytes) :
    Same { p with header := bs } { q with header := bs } :=
  ⟨h.state, h.isStream, h.isChunked, h.reason, h.chunk, h.req, h.contentLength, h.chunkLength,
    h.isRequest⟩

/-- The choice of the body's state reads `isRequest_` only. -/
theorem Same.selectBody (h : Same p q) (hr : q.isRequest = p.isRequest) (r : HttpRequest) :
    Same ({ p with req := some r }.selectBody r) ({ q with req := some r }.selectBody r) := by
  unfold HttpParser.selectBody
  simp only [hr]
  split_ifs
  · cases CNumeral.stoull (r.getHeader (ascii "content-length")) with
    | none =>
      exact ⟨rfl, h.isStream, h.isChunked, rfl, h.chunk, rfl, fun hs => (by cases hs),
        fun hs => (by cases hs), fun _ => rfl⟩
    | some n =>
      simp only
      generalize CNumeral.toInt32 n = len
      refine ⟨rfl, h.isStream, h.isChunked, h.reason, h.chunk, rfl, fun _ => rfl, fun hs => ?_,
        fun _ => rfl⟩
      simp only at hs
      split_ifs at hs
  · exact ⟨rfl, h.isStream, rfl, h.reason, h.chunk, rfl, fun hs => (by cases hs),
      fun hs => (by cases hs), fun _ => rfl⟩
  · exact ⟨rfl, h.isStream, h.isChunked, h.reason, h.chunk, rfl, fun hs => (by cases hs),
      fun hs => (by cases hs), fun _ => rfl⟩
  · exact ⟨rfl, rfl, h.isChunked, h.reason, h.chunk, rfl, fun hs => (by cases hs),
      fun hs => (by cases hs), fun _ => rfl⟩

/-- A start line of three tokens sets `isRequest_`, and any other leaves the request. -/
theorem Same.processMethodLine (h : Same p q) (line : Bytes) :
    Same (p.processMethodLine line) (q.processMethodLine line) := by
  unfold HttpParser.processMethodLine
  split
  · exact ⟨h.state, h.isStream, h.isChunked, h.reason, h.chunk, rfl, h.contentLength,
      h.chunkLength, fun _ => rfl⟩
  · exact h.fail

theorem Same.parseHeaders (h : Same p q) (hh : q.header = p.header) :
    (∃ e, p.parseHeaders = .error e ∧ q.parseHeaders = .error e) ∨
      ∃ p' q', p.parseHeaders = .ok p' ∧ q.parseHeaders = .ok q' ∧ Same p' q' := by
  unfold HttpParser.parseHeaders
  rw [hh]
  cases StringUtils.splitString p.header CRLF with
  | nil => exact .inr ⟨_, _, rfl, rfl, h.fail⟩
  | cons line rest =>
    have hline := h.processMethodLine line
    simp only [hline.req]
    cases hreq : (p.processMethodLine line).req with
    | none =>
      rcases foldlM_addLine_none (line :: rest) with hf | hf
      · exact .inl ⟨.nullRequest, by rw [hf]; rfl, by rw [hf]; rfl⟩
      · exact .inl ⟨.nullRequest, by rw [hf]; rfl, by rw [hf]; rfl⟩
    | some r =>
      have hr := hline.isRequest (by rw [hreq]; exact Option.some_ne_none r)
      rw [foldlM_addLine_some]
      exact .inr ⟨_, _, rfl, rfl, hline.selectBody hr _⟩

theorem Same.expectHeaders (h : Same p q) : Alike (p.expectHeaders b) (q.expectHeaders b) := by
  unfold HttpParser.expectHeaders
  by_cases h4 : b.readableBytes > CRLFCRLF.length
  · rw [if_pos h4, if_pos h4]
    cases hf : find CRLFCRLF b.bytes with
    | some size =>
      rcases (h.header (b.bytes.take size)).parseHeaders rfl with ⟨e, hp, hq⟩ | ⟨p', q', hp, hq, h'⟩
      · simp only [hp, hq]
        exact .inl ⟨e, rfl, rfl⟩
      · simp only [hp, hq]
        exact .returned h'
    | none =>
      simp only
      by_cases hlong : b.readableBytes > kHttpMaxBodySize
      · rw [if_pos hlong, if_pos hlong]
        exact .of_same h.fail
      · rw [if_neg hlong, if_neg hlong]
        exact .of_same h
  · rw [if_neg h4, if_neg h4]
    exact .of_same h

/-- The three body states read the packet and the length of their own state. -/
theorem Same.parseNormalBody (h : Same p q) (hs : p.state = .kExpectNormalBody) :
    Alike ((p.parseNormalBody b).map returned) ((q.parseNormalBody b).map returned) := by
  unfold HttpParser.parseNormalBody
  rw [h.chunk, h.contentLength hs, h.state]
  cases fill p.chunk p.curContentLength b with
  | error e => exact .inl ⟨e, rfl, rfl⟩
  | ok r =>
    obtain ⟨pk, size, buf⟩ := r
    refine .returned ⟨rfl, h.isStream, h.isChunked, h.reason, rfl, h.req, fun _ => rfl,
      fun hn => ?_, h.isRequest⟩
    simp only [hs] at hn
    split_ifs at hn

theorem Same.parseStream (h : Same p q) (hs : p.state = .kExpectStreamBody) :
    Alike ((p.parseStream b).map returned) ((q.parseStream b).map returned) := by
  unfold HttpParser.parseStream
  rw [h.chunk, h.state]
  cases fill p.chunk kHttpMaxBodySize b with
  | error e => exact .inl ⟨e, rfl, rfl⟩
  | ok r =>
    obtain ⟨pk, size, buf⟩ := r
    refine .returned ⟨rfl, h.isStream, h.isChunked, h.reason, rfl, h.req, fun hn => ?_,
      fun hn => ?_, h.isRequest⟩ <;>
    · simp only [hs] at hn
      split_ifs at hn

theorem Same.parseChunk (h : Same p q) (hs : p.state = .kExpectChunkBody) :
    Alike ((p.parseChunk b).map returned) ((q.parseChunk b).map returned) := by
  unfold HttpParser.parseChunk
  rw [h.chunk, h.chunkLength hs, h.state]
  cases fill p.chunk p.curChunkLength b with
  | error e => exact .inl ⟨e, rfl, rfl⟩
  | ok r =>
    obtain ⟨pk, size, buf⟩ := r
    refine .returned ⟨rfl, h.isStream, h.isChunked, h.reason, rfl, h.req, fun hn => ?_,
      fun _ => rfl, h.isRequest⟩
    simp only [hs] at hn
    split_ifs at hn

/-- A size line sets the length. -/
theorem Same.afterSize (h : Same p q) (len : ℤ) : Same (afterSize p len) (afterSize q len) := by
  refine ⟨rfl, h.isStream, h.isChunked, ?_, h.chunk, h.req, fun hs => ?_, fun _ => rfl, h.isRequest⟩
  · simp only [HttpNest.afterSize, h.reason]
  · simp only [HttpNest.afterSize] at hs
    split_ifs at hs

/-- **A call of `Parse` does not tell the parsers apart.** -/
theorem Same.parse (h : Same p q) (b : WfBuffer) :
    Alike (HttpParser.parse p b) (HttpParser.parse q b) := by
  by_cases hb : b.bytes = []
  · rw [parse_empty hb, parse_empty hb, h.state]
    exact .of_same h
  have hne : ¬ b.readableBytes = 0 := by simpa using hb
  -- the state is the same, so both take the same branch
  cases hs : p.state with
  | kExpectHeaders =>
    rw [HttpParser.parse, HttpParser.parse, if_neg hne, if_neg hne, h.state]
    simp only [hs]
    exact h.expectHeaders
  | kExpectNormalBody =>
    rw [HttpParser.parse, HttpParser.parse, if_neg hne, if_neg hne, h.state]
    simp only [hs]
    exact h.parseNormalBody hs
  | kExpectStreamBody =>
    rw [HttpParser.parse, HttpParser.parse, if_neg hne, if_neg hne, h.state]
    simp only [hs]
    exact h.parseStream hs
  | kExpectChunkBody =>
    rw [HttpParser.parse, HttpParser.parse, if_neg hne, if_neg hne, h.state]
    simp only [hs]
    exact h.parseChunk hs
  | kExpectChunkLen =>
    rw [parse_chunkLen hs hb, parse_chunkLen (h.state.trans hs) hb]
    cases find CRLF b.bytes with
    | some i => exact .returned (h.afterSize _)
    | none =>
      simp only
      split_ifs
      · exact .returned h.fail
      · exact .returned h
  | kExpectLastEmptyChunk =>
    rw [parse_lastEmpty hs hb, parse_lastEmpty (h.state.trans hs) hb]
    cases find CRLF b.bytes with
    | some i =>
      exact .returned ⟨rfl, h.isStream, h.isChunked, h.reason, rfl, h.req, fun hn => (by cases hn),
        fun hn => (by cases hn), h.isRequest⟩
    | none => exact .returned h
  | kExpectHttpComplete | kExpectChunkComplete | kExpectContinue | kExpectError =>
    -- the states `Parse` has no case for
    have hst : Stuck p.state := by simp [Stuck, hs]
    rw [parse_stuck hst, parse_stuck (h.state ▸ hst), h.state]
    exact .of_same h

theorem Same.clearForNextHttp (h : Same p q) : Same p.clearForNextHttp q.clearForNextHttp :=
  ⟨rfl, h.isStream, h.isChunked, h.reason, rfl, rfl, fun hs => (by cases hs),
    fun hs => (by cases hs), fun hn => absurd rfl hn⟩

theorem Same.clearForNextChunk (h : Same p q) : Same p.clearForNextChunk q.clearForNextChunk := by
  unfold HttpParser.clearForNextChunk
  rw [h.isChunked, h.isStream]
  split_ifs
  all_goals
    exact ⟨rfl, rfl, rfl, h.reason, rfl, h.req, fun hs => (by cases hs),
      fun hs => (by cases hs), h.isRequest⟩

/-- **No call tells the parsers apart.** -/
theorem Same.call (h : Same p q) (c : ParserCall) :
    (∃ e, p.call c = .error e ∧ q.call c = .error e) ∨
      ∃ r p' q', p.call c = .ok (r, p') ∧ q.call c = .ok (r, q') ∧ Same p' q' := by
  cases c with
  | parse b =>
    rcases h.parse b with ⟨e, hp, hq⟩ | ⟨s, p', q', b', hp, hq, h'⟩
    · exact .inl ⟨e, by rw [HttpParser.call, hp]; rfl, by rw [HttpParser.call, hq]; rfl⟩
    · exact .inr ⟨_, p', q', by rw [HttpParser.call, hp]; rfl, by rw [HttpParser.call, hq]; rfl, h'⟩
  | clearForNextHttp => exact .inr ⟨_, _, _, rfl, rfl, h.clearForNextHttp⟩
  | clearForNextChunk => exact .inr ⟨_, _, _, rfl, rfl, h.clearForNextChunk⟩

theorem seen_cons_ok {c : ParserCall} {r : Option (HttpParserState × WfBuffer)} {p' : HttpParser}
    (h : p.call c = .ok (r, p')) (cs : List ParserCall) :
    p.seen (c :: cs) = .ok ⟨r, p'.chunk, p'.req, p'.reason⟩ :: p'.seen cs := by
  rw [HttpParser.seen, h]

/-- **The same parsers show the same for good.** -/
theorem Same.seen (h : Same p q) (cs : List ParserCall) : p.seen cs = q.seen cs := by
  induction cs generalizing p q with
  | nil => rfl
  | cons c cs ih =>
    rcases h.call c with ⟨e, hp, hq⟩ | ⟨r, p', q', hp, hq, h'⟩
    · rw [HttpParser.seen, HttpParser.seen, hp, hq]
    · rw [seen_cons_ok hp, seen_cons_ok hq, h'.chunk, h'.req, h'.reason, ih h']

/-! ## What is left of a message -/

/-- A field is set that is never reset. -/
def Marked (p : HttpParser) : Prop :=
  p.isChunked = true ∨ p.isStream = true ∨ p.reason ≠ .kUnknown

theorem cleared_same_iff : Same p.clearForNextHttp {} ↔ ¬ Marked p := by
  unfold Marked
  constructor
  · intro h
    have hchunked : false = p.isChunked := h.isChunked
    have hstream : false = p.isStream := h.isStream
    have hreason : HttpStatusCode.kUnknown = p.reason := h.reason
    simp [← hchunked, ← hstream, ← hreason]
  · intro h
    rw [not_or, not_or, not_not, Bool.not_eq_true, Bool.not_eq_true] at h
    exact ⟨rfl, h.2.1.symm, h.1.symm, h.2.2.symm, rfl, rfl, fun hs => (by cases hs),
      fun hs => (by cases hs), fun hn => absurd rfl hn⟩

theorem kBufferOffset_le : kBufferOffset ≤ 1024 := by decide

/-- The buffer of a call that gets nothing to read. -/
def noBytes : WfBuffer := .new 1024 kBufferOffset_le

theorem call_noBytes (p : HttpParser) :
    p.call (.parse noBytes) = .ok (some (p.state, noBytes), p) := by
  rw [HttpParser.call, parse_empty (b := noBytes) (WfBuffer.bytes_new _ _)]
  rfl

/-- Asking for the next chunk shows which body is expected. -/
theorem state_of_seen (h : p.seen [.clearForNextChunk, .parse noBytes] =
    q.seen [.clearForNextChunk, .parse noBytes]) :
    p.clearForNextChunk.state = q.clearForNextChunk.state := by
  have hseen : ∀ p : HttpParser, p.seen [.clearForNextChunk, .parse noBytes] =
      [.ok ⟨none, p.clearForNextChunk.chunk, p.clearForNextChunk.req, p.clearForNextChunk.reason⟩,
        .ok ⟨some (p.clearForNextChunk.state, noBytes), p.clearForNextChunk.chunk,
          p.clearForNextChunk.req, p.clearForNextChunk.reason⟩] := by
    intro p
    have hclear : p.call .clearForNextChunk = .ok (none, p.clearForNextChunk) := rfl
    rw [seen_cons_ok hclear, seen_cons_ok (call_noBytes p.clearForNextChunk), HttpParser.seen]
  rw [hseen, hseen] at h
  injection h with _ h
  injection h with h
  injection h with h
  injection h with h
  injection h with h
  injection h

/-- Every mark can be seen. -/
theorem Marked.seen (h : Marked p) :
    ∃ later, p.clearForNextHttp.seen later ≠ ({} : HttpParser).seen later := by
  by_cases hreason : p.reason = .kUnknown
  · refine ⟨[.clearForNextChunk, .parse noBytes], fun he => ?_⟩
    have hstate : p.clearForNextHttp.clearForNextChunk.state = .kExpectHeaders := state_of_seen he
    have hmark : p.clearForNextHttp.isChunked = true ∨ p.clearForNextHttp.isStream = true :=
      h.imp id fun h => h.resolve_right fun hr => hr hreason
    unfold HttpParser.clearForNextChunk at hstate
    by_cases hchunked : p.clearForNextHttp.isChunked = true
    · rw [if_pos hchunked] at hstate
      cases hstate
    · rw [if_neg hchunked, if_pos (hmark.resolve_left hchunked)] at hstate
      cases hstate
  · refine ⟨[.clearForNextHttp], fun he => hreason ?_⟩
    have hclear : ∀ p : HttpParser, p.call .clearForNextHttp = .ok (none, p.clearForNextHttp) :=
      fun _ => rfl
    rw [seen_cons_ok (hclear p.clearForNextHttp), seen_cons_ok (hclear {})] at he
    injection he with he
    injection he with he
    injection he

/-- **The reset is complete exactly if nothing is marked.** -/
theorem cleared_seen_iff :
    (∀ later, p.clearForNextHttp.seen later = ({} : HttpParser).seen later) ↔ ¬ Marked p := by
  refine ⟨fun h hm => ?_, fun h later => (cleared_same_iff.2 h).seen later⟩
  obtain ⟨later, hl⟩ := hm.seen
  exact hl (h later)

/-! ## The messages that leave a mark -/

/-- No body, or one of a known length. -/
def Framing.Fixed : Framing → Prop
  | .length _ | .noBody => True
  | .badLength | .chunked | .stream => False

/-- A block whose body's end is known by its length, or that has no body. -/
def FixedBlock (h : Bytes) : Prop := ∃ r, blockRequest h = some r ∧ r.framing.Fixed

/-- The call rejects nothing, and begins no chunked body and no stream. -/
def Plain (p : HttpParser) : ParserCall → Prop
  | .parse b => p.state = .kExpectHeaders →
    match find CRLFCRLF b.bytes with
    | none => b.bytes.length ≤ kHttpMaxBodySize
    | some i => 4 < b.bytes.length → FixedBlock (b.bytes.take i)
  | .clearForNextHttp | .clearForNextChunk => True

/-- The marks of `p` are marks of `p'`. -/
structure MarksKept (p p' : HttpParser) : Prop where
  isChunked : p.isChunked = true → p'.isChunked = true
  isStream : p.isStream = true → p'.isStream = true
  reason : p.reason ≠ .kUnknown → p'.reason ≠ .kUnknown

theorem MarksKept.refl (p : HttpParser) : MarksKept p p := ⟨id, id, id⟩

theorem MarksKept.trans {p' p'' : HttpParser} (h : MarksKept p p') (h' : MarksKept p' p'') :
    MarksKept p p'' :=
  ⟨h'.isChunked ∘ h.isChunked, h'.isStream ∘ h.isStream, h'.reason ∘ h.reason⟩

theorem MarksKept.marked {p' : HttpParser} (h : MarksKept p p') (hm : Marked p) : Marked p' :=
  hm.imp h.isChunked (Or.imp h.isStream h.reason)

theorem marksKept_fail (p : HttpParser) : MarksKept p p.fail :=
  ⟨id, id, fun _ => by simp [fail]⟩

theorem marksKept_selectBody (p : HttpParser) (r : HttpRequest) :
    MarksKept p ({ p with req := some r }.selectBody r) := by
  unfold HttpParser.selectBody
  dsimp only
  split_ifs
  · cases CNumeral.stoull (r.getHeader (ascii "content-length")) with
    | none => exact ⟨id, id, fun _ => by simp [fail]⟩
    | some n =>
      simp only
      generalize CNumeral.toInt32 n = len
      exact ⟨id, id, id⟩
  · exact ⟨fun _ => rfl, id, id⟩
  · exact ⟨id, id, id⟩
  · exact ⟨id, fun _ => rfl, id⟩

/-- The states in which a parser without marks can be. -/
def Counting (p : HttpParser) : Prop :=
  p.state = .kExpectHeaders ∨ p.state = .kExpectNormalBody ∨ Stuck p.state

/-- The call leaves the marks alone, and the parser where it counts bytes. -/
structure Unmarking (p p' : HttpParser) : Prop where
  isChunked : p'.isChunked = p.isChunked
  isStream : p'.isStream = p.isStream
  reason : p'.reason = p.reason
  counting : Counting p'

theorem Unmarking.not_marked {p' : HttpParser} (h : Unmarking p p') (hm : ¬ Marked p) :
    ¬ Marked p' := by
  unfold Marked
  rw [h.isChunked, h.isStream, h.reason]
  exact hm

theorem Unmarking.framed {r : HttpRequest} (h : r.framing.Fixed) : Unmarking p (p.framed r) := by
  unfold HttpParser.framed
  cases hf : r.framing with
  | length n =>
    refine ⟨rfl, rfl, rfl, ?_⟩
    by_cases hn : n = 0
    · exact .inr (.inr (.inl (if_pos hn)))
    · exact .inr (.inl (if_neg hn))
  | noBody => exact ⟨rfl, rfl, rfl, .inr (.inr (.inl rfl))⟩
  | badLength | chunked | stream =>
    rw [hf] at h
    exact h.elim

theorem marked_framed {r : HttpRequest} (h : ¬ r.framing.Fixed) : Marked (p.framed r) := by
  unfold HttpParser.framed
  cases hf : r.framing with
  | length n | noBody =>
    rw [hf] at h
    exact absurd trivial h
  | badLength => exact .inr (.inr (by simp [fail]))
  | chunked => exact .inl rfl
  | stream => exact .inr (.inl rfl)

/-- A block of fixed framing leaves no mark, and any other block one. -/
theorem parseHeaders_marks {p' : HttpParser} (h : p.parseHeaders = .ok p') :
    FixedBlock p.header ∧ Unmarking p p' ∨ ¬ FixedBlock p.header ∧ Marked p' := by
  unfold FixedBlock
  cases hr : blockRequest p.header with
  | some r =>
    rw [parseHeaders_of_blockRequest hr] at h
    cases h
    by_cases hf : r.framing.Fixed
    · have hu := Unmarking.framed (p := { p with isRequest := r.isRequest, req := some r }) hf
      exact .inl ⟨⟨r, rfl, hf⟩, hu.isChunked, hu.isStream, hu.reason, hu.counting⟩
    · refine .inr ⟨?_, marked_framed hf⟩
      rintro ⟨r', hr', hf'⟩
      cases hr'
      exact hf hf'
  | none =>
    rw [parseHeaders_of_malformed hr] at h
    refine .inr ⟨(by rintro ⟨r, hr', -⟩; cases hr'), ?_⟩
    -- a malformed block sets the reason, and a request left over does not clear it
    have hfail : Marked p.fail := .inr (.inr (by simp [fail]))
    cases hl : StringUtils.splitString p.header CRLF with
    | nil =>
      rw [hl] at h
      cases h
      exact hfail
    | cons line rest =>
      rw [hl] at h
      simp only at h
      cases hq : p.req with
      | none => rw [hq] at h; cases h
      | some r =>
        rw [hq] at h
        cases h
        exact (marksKept_selectBody p.fail _).marked hfail

/-- **A call in the header block**: a plain one leaves no mark, and any other one does. -/
theorem parse_headers_marks (hs : p.state = .kExpectHeaders) {s : HttpParserState}
    {p' : HttpParser} {b' : WfBuffer} (h : parse p b = .ok (s, p', b')) :
    Plain p (.parse b) ∧ Unmarking p p' ∨ ¬ Plain p (.parse b) ∧ Marked p' := by
  have hk : 4 ≤ kHttpMaxBodySize := by decide
  have hsame : Unmarking p p := ⟨rfl, rfl, rfl, .inl hs⟩
  by_cases hb : b.bytes = []
  · rw [parse_empty hb] at h
    cases h
    refine .inl ⟨fun _ => ?_, hsame⟩
    rw [hb, show find CRLFCRLF [] = none from rfl]
    exact Nat.zero_le _
  cases hf : find CRLFCRLF b.bytes with
  | none =>
    -- without an end of the block, plain means within the limit
    have hplain : Plain p (.parse b) ↔ b.bytes.length ≤ kHttpMaxBodySize := by
      simp [Plain, hs, hf]
    rw [hplain]
    rcases le_or_gt b.bytes.length kHttpMaxBodySize with hle | hgt
    · rw [parse_headers_wait hs hb hle (.inr hf)] at h
      cases h
      exact .inl ⟨hle, hsame⟩
    · rw [parse_headers_long hs hgt hf] at h
      cases h
      exact .inr ⟨by omega, .inr (.inr (by simp [fail]))⟩
  | some i =>
    -- with one, it means a block of fixed framing
    have hplain : Plain p (.parse b) ↔ (4 < b.bytes.length → FixedBlock (b.bytes.take i)) := by
      simp [Plain, hs, hf]
    rw [hplain]
    rcases le_or_gt b.bytes.length 4 with h4 | h4
    · rw [parse_headers_wait hs hb (h4.trans hk) (.inl h4)] at h
      cases h
      exact .inl ⟨fun hgt => absurd hgt (by omega), hsame⟩
    · rw [parse_headers_found hs h4 hf] at h
      cases hp : ({ p with header := b.bytes.take i }).parseHeaders with
      | error e => rw [hp] at h; cases h
      | ok p₁ =>
        rw [hp] at h
        cases h
        rcases parseHeaders_marks hp with ⟨hfix, hu⟩ | ⟨hfix, hm⟩
        · exact .inl ⟨fun _ => hfix, hu.isChunked, hu.isStream, hu.reason, hu.counting⟩
        · exact .inr ⟨fun h => hfix (h h4), hm⟩

/-- The marks of the parser behind a body call, and its state: the same, or complete. -/
theorem parse_body_marks {s : HttpParserState} {p' : HttpParser} {b' : WfBuffer}
    (hs : p.InBody) (h : parse p b = .ok (s, p', b')) :
    p'.isChunked = p.isChunked ∧ p'.isStream = p.isStream ∧ p'.reason = p.reason ∧
      (p'.state = p.state ∨ Stuck p'.state) := by
  cases parse_effect h with
  | same => exact ⟨rfl, rfl, rfl, .inl rfl⟩
  | body _ hstate => exact ⟨rfl, rfl, rfl, hstate⟩
  | rejected hs' =>
    rcases hs' with hs' | hs' <;> rcases hs with hs | hs | hs <;> rw [hs'] at hs <;> cases hs
  | block hs' _ | size _ hs' | last hs' =>
    rcases hs with hs | hs | hs <;> rw [hs'] at hs <;> cases hs

/-- A block leaves the marks that are there. -/
theorem marksKept_parseHeaders {p' : HttpParser} (h : p.parseHeaders = .ok p') (hm : Marked p) :
    Marked p' := by
  rcases parseHeaders_marks h with ⟨-, hu⟩ | ⟨-, hm'⟩
  · unfold Marked
    rwa [hu.isChunked, hu.isStream, hu.reason]
  · exact hm'

/-- **Marks are never taken back by `Parse`.** -/
theorem parse_marksKept {s : HttpParserState} {p' : HttpParser} {b' : WfBuffer}
    (h : parse p b = .ok (s, p', b')) (hm : Marked p) : Marked p' := by
  cases parse_effect h with
  | same | body _ _ | last _ => exact hm
  | rejected _ => exact (marksKept_fail p).marked hm
  | block _ hp => exact marksKept_parseHeaders hp hm
  | size len _ =>
    refine hm.imp id (Or.imp id fun hr => ?_)
    simp only [afterSize]
    -- a size over the limit is a reason of its own
    split_ifs
    · decide
    · exact hr

/-! ## Histories -/

theorem parse_of_step {p' : HttpParser} (h : p.step (.parse b) = some p') :
    ∃ s b', parse p b = .ok (s, p', b') := by
  unfold HttpParser.step HttpParser.call at h
  dsimp only at h
  cases hp : parse p b with
  | error e => rw [hp] at h; cases h
  | ok r =>
    rw [hp] at h
    obtain ⟨s, p'', b'⟩ := r
    cases h
    exact ⟨s, b', rfl⟩

/-- Nothing is marked, and no state is passed that needs a mark. -/
structure Fresh (p : HttpParser) : Prop where
  counting : Counting p
  not_marked : ¬ Marked p

theorem Fresh.clearForNextChunk (h : Fresh p) : Fresh p.clearForNextChunk := by
  have hm := h.not_marked
  unfold Marked at hm
  rw [not_or, not_or] at hm
  unfold HttpParser.clearForNextChunk
  rw [if_neg hm.1, if_neg hm.2.1]
  exact ⟨.inl rfl, h.not_marked⟩

/-- **One call**: plain calls keep a parser fresh, and any other one marks it. -/
theorem Fresh.step (h : Fresh p) {c : ParserCall} {p' : HttpParser} (hc : p.step c = some p') :
    Plain p c ∧ Fresh p' ∨ ¬ Plain p c ∧ Marked p' := by
  cases c with
  | clearForNextHttp =>
    cases hc
    exact .inl ⟨trivial, .inl rfl, h.not_marked⟩
  | clearForNextChunk =>
    cases hc
    exact .inl ⟨trivial, h.clearForNextChunk⟩
  | parse b =>
    obtain ⟨s, b', hparse⟩ := parse_of_step hc
    -- counting a header block, a body, or past the message
    rcases h.counting with hs | hs | hs
    · rcases parse_headers_marks hs hparse with ⟨hplain, hu⟩ | ⟨hplain, hm⟩
      · exact .inl ⟨hplain, hu.counting, hu.not_marked h.not_marked⟩
      · exact .inr ⟨hplain, hm⟩
    · obtain ⟨hch, hst, hr, hstate⟩ := parse_body_marks (.inl hs) hparse
      rw [hs] at hstate
      refine .inl ⟨fun h0 => ?_, .inr hstate, ?_⟩
      · rw [hs] at h0
        cases h0
      · unfold Marked
        rw [hch, hst, hr]
        exact h.not_marked
    · rw [parse_stuck hs] at hparse
      cases hparse
      refine .inl ⟨fun h0 => ?_, h⟩
      rw [h0] at hs
      simp [Stuck] at hs

theorem marked_step (hm : Marked p) {c : ParserCall} {p' : HttpParser}
    (hc : p.step c = some p') : Marked p' := by
  cases c with
  | clearForNextHttp =>
    cases hc
    exact hm
  | clearForNextChunk =>
    cases hc
    unfold HttpParser.clearForNextChunk
    split_ifs <;> exact hm
  | parse b =>
    obtain ⟨s, b', hparse⟩ := parse_of_step hc
    exact parse_marksKept hparse hm

/-- **A history leaves no mark exactly if all its calls are plain.** -/
theorem run_marked_iff (history : List ParserCall) {p p' : HttpParser} (h : Fresh p)
    (hrun : run HttpParser.step p history = some p') :
    ¬ Marked p' ↔ Meets HttpParser.step Plain p history := by
  induction history generalizing p with
  | nil =>
    cases hrun
    exact ⟨fun _ => trivial, fun _ => h.not_marked⟩
  | cons c cs ih =>
    obtain ⟨q, hq, hrun⟩ := run_cons_eq_some.1 hrun
    rcases h.step hq with ⟨hplain, hfresh⟩ | ⟨hplain, hm⟩
    · rw [ih hfresh hrun]
      constructor
      · intro hcs
        refine ⟨hplain, fun q' hq' => ?_⟩
        rw [hq] at hq'
        cases hq'
        exact hcs
      · exact fun hm => hm.2 q hq
    -- a mark that is left stays to the end of the history
    · have hend : Marked p' := run_inv Marked (fun _ _ _ hm hc => marked_step hm hc) hm hrun
      exact ⟨fun hno => absurd hend hno, fun hm => absurd hm.1 hplain⟩

theorem fresh_new : Fresh {} := ⟨.inl rfl, by simp [Marked]⟩

/-- A history that ends with the reset. -/
theorem run_reset {history : List ParserCall}
    (h : run HttpParser.step {} (history ++ [.clearForNextHttp]) = some p) :
    ∃ q, run HttpParser.step {} history = some q ∧ p = q.clearForNextHttp := by
  obtain ⟨q, hq, hlast⟩ := run_append.1 h
  obtain ⟨q', hq', hnil⟩ := run_cons_eq_some.1 hlast
  cases hq'
  cases hnil
  exact ⟨q, hq, rfl⟩

/-- **After a reset everything is as in a new parser, for every later sequence of calls,
exactly if no call of the history rejected a message or began a chunked body or a stream.** -/
theorem reset_fresh_iff {history : List ParserCall}
    (h : run HttpParser.step {} (history ++ [.clearForNextHttp]) = some p) :
    (∀ later, p.seen later = ({} : HttpParser).seen later) ↔
      Meets HttpParser.step Plain {} history := by
  obtain ⟨q, hq, rfl⟩ := run_reset h
  rw [cleared_seen_iff, run_marked_iff history fresh_new hq]

/-! ## Two histories of one message -/

/-- A buffer that holds these bytes. -/
def holding (bs : Bytes) : WfBuffer := (WfBuffer.new 1024 kBufferOffset_le).append bs

theorem bytes_holding (bs : Bytes) : (holding bs).bytes = bs := by
  rw [holding, WfBuffer.bytes_append, WfBuffer.bytes_new, List.nil_append]

/-- The parser behind a header block. -/
theorem step_block {bs : Bytes} (h4 : 4 < bs.length) {i : ℕ} (hf : find CRLFCRLF bs = some i)
    {r : HttpRequest} (hr : blockRequest (bs.take i) = some r) :
    ∃ q : HttpParser, HttpParser.step {} (.parse (holding bs)) = some (q.framed r) := by
  have hbytes := bytes_holding bs
  have hparse := parse_headers_request (p := {}) (b := holding bs) rfl (by rwa [hbytes])
    (by rwa [hbytes]) (by rwa [hbytes])
  exact ⟨_, by rw [HttpParser.step, HttpParser.call, hparse]; rfl⟩

theorem run_block {bs : Bytes} {q : HttpParser}
    (h : HttpParser.step {} (.parse (holding bs)) = some q) :
    run HttpParser.step {} ([.parse (holding bs)] ++ [.clearForNextHttp]) =
      some q.clearForNextHttp :=
  run_append.2 ⟨q, run_cons_eq_some.2 ⟨q, h, rfl⟩, rfl⟩

/-- After a request without a body. -/
theorem reset_fresh_get :
    ∃ p, run HttpParser.step {} ([.parse (holding (ascii "GET / HTTP/1.1\r\n\r\n"))] ++
      [.clearForNextHttp]) = some p ∧
        ∀ later, p.seen later = ({} : HttpParser).seen later := by
  have hf : find CRLFCRLF (ascii "GET / HTTP/1.1\r\n\r\n") = some 14 := by decide +kernel
  have hframing : (blockRequest ((ascii "GET / HTTP/1.1\r\n\r\n").take 14)).map
      HttpRequest.framing = some .noBody := by decide +kernel
  obtain ⟨r, hr, hnone⟩ := Option.map_eq_some_iff.1 hframing
  obtain ⟨q, hq⟩ := step_block (by decide +kernel) hf hr
  refine ⟨_, run_block hq, (reset_fresh_iff (run_block hq)).2 ⟨fun _ => ?_, fun _ _ => trivial⟩⟩
  rw [bytes_holding, hf]
  exact fun _ => ⟨r, hr, by rw [hnone]; trivial⟩

/-- After a rejected length `Reason()` stays `k400BadRequest`. -/
theorem reset_not_fresh :
    ∃ p, run HttpParser.step {}
      ([.parse (holding (ascii "GET / HTTP/1.1\r\nContent-Length: x\r\n\r\n"))] ++
        [.clearForNextHttp]) = some p ∧
          ¬ ∀ later, p.seen later = ({} : HttpParser).seen later := by
  have hf : find CRLFCRLF (ascii "GET / HTTP/1.1\r\nContent-Length: x\r\n\r\n") = some 33 := by
    decide +kernel
  have hframing : (blockRequest ((ascii "GET / HTTP/1.1\r\nContent-Length: x\r\n\r\n").take
      33)).map HttpRequest.framing = some .badLength := by decide +kernel
  obtain ⟨r, hr, hbad⟩ := Option.map_eq_some_iff.1 hframing
  obtain ⟨q, hq⟩ := step_block (by decide +kernel) hf hr
  refine ⟨_, run_block hq, fun h => cleared_seen_iff.1 h (marked_framed ?_)⟩
  rw [hbad]
  exact id

end HttpNest
