import HttpNest.Proof.Headers

/-!
# Calls in the other states

A call changes nothing without unread bytes (`parse_empty`) and in the states that end
a message or a chunk (`parse_stuck`). The chunk states look for a `CRLF`: the size
line goes to the body or, with size zero, to the last empty chunk, and the line after
that completes the message.

`Owned p` says that `p` is a parser that has only been called, never cleared: the one
of an `HttpContext`. `Unspoiled` is the invariant of such a parser (`Owned.unspoiled`).
-/

namespace HttpNest

open CNumeral ListSearch HttpParser

variable {p : HttpParser} {b : WfBuffer}

/-- Without unread bytes a call returns the state. -/
theorem parse_empty (hb : b.bytes = []) : parse p b = .ok (p.state, p, b) := by
  rw [parse, if_pos (by simp [hb])]

/-- The states that `Parse` leaves alone. -/
def Stuck (s : HttpParserState) : Prop :=
  s = .kExpectHttpComplete ∨ s = .kExpectChunkComplete ∨ s = .kExpectContinue ∨ s = .kExpectError

theorem parse_stuck (hs : Stuck p.state) : parse p b = .ok (p.state, p, b) := by
  unfold parse
  split_ifs
  · rfl
  · rcases hs with hs | hs | hs | hs <;> rw [hs]

/-- The size that a size line denotes. -/
def chunkSize (line : Bytes) : ℤ := toInt32 (strtol 16 line)

/-- The parser behind a size line. -/
def afterSize (p : HttpParser) (len : ℤ) : HttpParser :=
  { p with
    curChunkLength := len
    reason := if len > 1024 * 1024 then .k400BadRequest else p.reason
    state := if len = 0 then .kExpectLastEmptyChunk else .kExpectChunkBody }

/-- The error that a large size sets is overwritten. -/
theorem expectChunkLen_found {i : ℕ} (hf : b.findCRLF = some i) (p : HttpParser) :
    p.expectChunkLen b = (afterSize p (chunkSize (b.bytes.take i)), b.retrieveUntil (i + 2)) := by
  unfold expectChunkLen
  rw [hf]
  simp only [afterSize, chunkSize]
  by_cases hlen : toInt32 (strtol 16 (b.bytes.take i)) > 1024 * 1024
  · simp only [hlen, if_true]
    rfl
  · simp only [hlen, if_false]
    rfl

theorem expectChunkLen_none (hf : b.findCRLF = none) (p : HttpParser) :
    p.expectChunkLen b = if 32 < b.bytes.length then (p.fail, b.retrieveAll) else (p, b) := by
  unfold expectChunkLen
  rw [hf, WfBuffer.readableBytes_eq]

theorem parse_chunkLen (hs : p.state = .kExpectChunkLen) (hb : b.bytes ≠ []) :
    parse p b = .ok (returned (match find CRLF b.bytes with
      | some i => (afterSize p (chunkSize (b.bytes.take i)), b.retrieveUntil (i + 2))
      | none => if 32 < b.bytes.length then (p.fail, b.retrieveAll) else (p, b))) := by
  have hne : ¬ b.readableBytes = 0 := by simpa using hb
  rw [parse, if_neg hne]
  simp only [hs]
  cases hf : find CRLF b.bytes with
  | some i => rw [expectChunkLen_found hf]
  | none => rw [expectChunkLen_none hf]

theorem expectLastEmptyChunk_eq (p : HttpParser) (b : WfBuffer) :
    p.expectLastEmptyChunk b = match find CRLF b.bytes with
      | some i => ({ p with chunk := none, state := .kExpectChunkComplete },
          b.retrieveUntil (i + 2))
      | none => (p, b) := rfl

theorem parse_lastEmpty (hs : p.state = .kExpectLastEmptyChunk) (hb : b.bytes ≠ []) :
    parse p b = .ok (returned (match find CRLF b.bytes with
      | some i => ({ p with chunk := none, state := .kExpectChunkComplete },
          b.retrieveUntil (i + 2))
      | none => (p, b))) := by
  have hne : ¬ b.readableBytes = 0 := by simpa using hb
  rw [parse, if_neg hne]
  simp only [hs]
  exact congrArg (fun r => Except.ok (returned r)) (expectLastEmptyChunk_eq p b)

/-- A body state before its packet is allocated. -/
theorem filling_of_chunk_none (hs : p.InBody) (hc : p.chunk = none) (h0 : 0 < p.bodyCapacity)
    (hlt : p.bodyCapacity < 2 ^ 31) : p.Filling := by
  have hpk : p.packet = ⟨p.bodyCapacity, []⟩ := by rw [packet, hc]; rfl
  have hroom : (p.packet.room : ℤ) = p.bodyCapacity := by
    rw [hpk]
    simp only [Packet.room, Packet.packetSize, List.length_nil]
    omega
  refine ⟨hs, ?_, by omega, fun hn => ?_, fun hn => ?_⟩
  · rw [hpk]
    exact ⟨by simp [Packet.packetSize]; omega, hlt⟩
  · rw [hroom, bodyCapacity, hn]
  · rw [hroom, bodyCapacity, hn]

/-- A body of negative size ends in its allocation. -/
theorem parse_negative (hs : p.InBody) (hc : p.chunk = none) (h0 : p.bodyCapacity < 0)
    (hb : b.bytes ≠ []) : parse p b = .error .negativePacket := by
  have hne : ¬ b.readableBytes = 0 := by simpa using hb
  rw [parse, if_neg hne]
  rcases hs with hs | hs | hs
  · rw [bodyCapacity, hs] at h0
    simp only [hs, parseNormalBody, hc, fill_negative h0]
    rfl
  · rw [bodyCapacity, hs] at h0
    simp [kHttpMaxBodySize] at h0
  · rw [bodyCapacity, hs] at h0
    simp only [hs, parseChunk, hc, fill_negative h0]
    rfl

/-! ## The parser of an `HttpContext` -/

/-- A parser that has been constructed and called any number of times. -/
inductive Owned : HttpParser → Prop
  | init : Owned {}
  | parse {p p' : HttpParser} {b b' : WfBuffer} {s : HttpParserState} :
    Owned p → HttpParser.parse p b = .ok (s, p', b') → Owned p'

/-- A parser has no request before its header block is complete, and no packet before
its body begins; a body state has room left, unless its size is negative. -/
structure Unspoiled (p : HttpParser) : Prop where
  request : p.state = .kExpectHeaders → p.req = none
  packet : p.state = .kExpectHeaders ∨ p.state = .kExpectChunkLen → p.chunk = none
  body : p.InBody → p.Filling ∨ p.chunk = none ∧ p.bodyCapacity < 0

/-- Outside the header block, the size line and the bodies there is nothing to show. -/
theorem Unspoiled.of_state (h : p.state = .kExpectLastEmptyChunk ∨ Stuck p.state) :
    Unspoiled p := by
  unfold Stuck at h
  refine ⟨fun hs => ?_, fun hs => ?_, fun hs => ?_⟩
  · rw [hs] at h; simp at h
  · rcases hs with hs | hs <;> rw [hs] at h <;> simp at h
  · rcases hs with hs | hs | hs <;> rw [hs] at h <;> simp at h

/-- A body state whose size is not zero, before its packet is allocated. -/
theorem Unspoiled.of_body (hs : p.InBody) (hc : p.chunk = none) (h0 : p.bodyCapacity ≠ 0)
    (hlt : p.bodyCapacity < 2 ^ 31) : Unspoiled p := by
  refine ⟨fun h => ?_, fun _ => hc, fun _ => ?_⟩
  · rcases hs with hs | hs | hs <;> rw [hs] at h <;> cases h
  · rcases lt_or_gt_of_ne h0 with hneg | hpos
    · exact .inr ⟨hc, hneg⟩
    · exact .inl (filling_of_chunk_none hs hc hpos hlt)

/-- A length comes from the request's field, cut to 32 bits. -/
theorem HttpRequest.framing_length {r : HttpRequest} {n : ℤ} (h : r.framing = .length n) :
    ∃ m, stoull (r.getHeader (ascii "content-length")) = some m ∧ n = toInt32 m := by
  unfold HttpRequest.framing at h
  split_ifs at h
  cases hm : stoull (r.getHeader (ascii "content-length")) with
  | none => rw [hm] at h; cases h
  | some m =>
    rw [hm] at h
    exact ⟨m, rfl, (Framing.length.inj h).symm⟩

theorem HttpRequest.framing_length_lt {r : HttpRequest} {n : ℤ} (h : r.framing = .length n) :
    n < 2 ^ 31 := by
  obtain ⟨m, -, hn⟩ := HttpRequest.framing_length h
  rw [hn]
  exact toInt32_lt m

theorem Unspoiled.framed {r : HttpRequest} (hc : p.chunk = none) : Unspoiled (p.framed r) := by
  unfold HttpParser.framed
  cases hf : r.framing with
  | badLength => exact .of_state (.inr (.inr (.inr (.inr rfl))))
  | noBody => exact .of_state (.inr (.inl rfl))
  | chunked =>
    refine ⟨fun h => ?_, fun _ => hc, fun h => ?_⟩
    · cases h
    · rcases h with h | h | h <;> cases h
  | stream =>
    refine .of_body (.inr (.inl rfl)) hc ?_ ?_ <;> simp [bodyCapacity, kHttpMaxBodySize]
  | length n =>
    have hlt := HttpRequest.framing_length_lt hf
    by_cases hn : n = 0
    · exact .of_state (.inr (.inl (if_pos hn)))
    · have hs : (if n = 0 then HttpParserState.kExpectHttpComplete else .kExpectNormalBody) =
          .kExpectNormalBody := if_neg hn
      refine .of_body (.inl hs) hc ?_ ?_ <;> simp only [bodyCapacity, hs]
      · exact hn
      · exact hlt

/-- A block with a start line is longer than its terminator. -/
theorem four_lt_length {i : ℕ} (hf : find CRLFCRLF b.bytes = some i) {r : HttpRequest}
    (hr : blockRequest (b.bytes.take i) = some r) : 4 < b.bytes.length := by
  have hle : i + 4 ≤ b.bytes.length := find_le hf
  have hpos := List.length_pos_iff.2 (block_ne_nil hr)
  rw [List.length_take] at hpos
  omega

/-- The end of the header block is waited for, is not within the limit, or is there. -/
theorem terminator_cases (b : WfBuffer) :
    b.bytes.length ≤ kHttpMaxBodySize ∧
        (b.bytes.length ≤ 4 ∨ find CRLFCRLF b.bytes = none) ∨
      kHttpMaxBodySize < b.bytes.length ∧ find CRLFCRLF b.bytes = none ∨
        ∃ i, 4 < b.bytes.length ∧ find CRLFCRLF b.bytes = some i := by
  have hk : 4 ≤ kHttpMaxBodySize := by decide
  rcases le_or_gt b.bytes.length 4 with h4 | h4
  · exact .inl ⟨h4.trans hk, .inl h4⟩
  cases hf : find CRLFCRLF b.bytes with
  | some i => exact .inr (.inr ⟨i, h4, rfl⟩)
  | none =>
    rcases le_or_gt b.bytes.length kHttpMaxBodySize with hle | hgt
    · exact .inl ⟨hle, .inr rfl⟩
    · exact .inr (.inl ⟨hgt, rfl⟩)

/-- The parser behind a header block whose start line is well formed. -/
theorem parse_headers_request (hs : p.state = .kExpectHeaders) (hlen : 4 < b.bytes.length) {i : ℕ}
    (hf : find CRLFCRLF b.bytes = some i) {r : HttpRequest}
    (hr : blockRequest (b.bytes.take i) = some r) :
    parse p b = .ok (returned (({ p with
      header := b.bytes.take i, isRequest := r.isRequest, req := some r }).framed r,
        b.retrieve (i + 4))) := by
  rw [parse_headers_found hs hlen hf,
    parseHeaders_of_blockRequest (p := { p with header := b.bytes.take i }) hr]
  rfl

/-- The call that sees the terminator of a block takes the block and nothing behind it. -/
theorem parse_block (hs : p.state = .kExpectHeaders) {h T : Bytes} {r : HttpRequest}
    (ht : find CRLFCRLF (h ++ CRLFCRLF) = some h.length) (hr : blockRequest h = some r)
    (hb : b.bytes <+: h ++ CRLFCRLF ++ T) (hle : (h ++ CRLFCRLF).length ≤ b.bytes.length) :
    parse p b = .ok (returned (({ p with
      header := h, isRequest := r.isRequest, req := some r }).framed r,
        b.retrieve (h ++ CRLFCRLF).length)) := by
  have hfind := find_terminator_front ht hb
  rw [if_pos hle] at hfind
  have hlen : (h ++ CRLFCRLF).length = h.length + 4 := List.length_append
  have h4 : 4 < b.bytes.length := by
    have hpos : 0 < h.length := List.length_pos_iff.2 (block_ne_nil hr)
    omega
  have htake : b.bytes.take h.length = h := by
    rw [eq_append_drop hb hle, List.append_assoc, List.take_left]
  rw [← htake] at hr
  rw [parse_headers_request hs h4 hfind hr, htake, hlen]

/-- What a parser without a request does with any other header block. -/
theorem parse_headers_malformed (hs : p.state = .kExpectHeaders) (hp : p.req = none)
    (hlen : 4 < b.bytes.length) {i : ℕ} (hf : find CRLFCRLF b.bytes = some i)
    (hr : blockRequest (b.bytes.take i) = none) :
    parse p b = if StringUtils.splitString (b.bytes.take i) CRLF = [] then
        .ok (returned (({ p with header := b.bytes.take i }).fail, b.retrieve (i + 4)))
      else .error .nullRequest := by
  rw [parse_headers_found hs hlen hf,
    parseHeaders_of_req_none (p := { p with header := b.bytes.take i }) hp]
  simp only [hr]
  split_ifs <;> rfl

/-- What a body state does with the packet that it has filled. -/
theorem of_fill {chunk : Option Packet} {capacity : ℤ}
    {f : Packet × ℤ × WfBuffer → HttpParser × WfBuffer} {s : HttpParserState} {p' : HttpParser}
    {b' : WfBuffer}
    (h : (do let r ← fill chunk capacity b; .ok (f r)).map returned = .ok (s, p', b')) :
    ∃ r, p' = (f r).1 := by
  cases hf : fill chunk capacity b with
  | error e =>
    rw [hf] at h
    cases h
  | ok r =>
    rw [hf] at h
    cases h
    exact ⟨r, rfl⟩

/-- What one call does to any parser, its buffer aside. -/
inductive CallEffect (p : HttpParser) : HttpParser → Prop
  | same : CallEffect p p
  | rejected : p.state = .kExpectHeaders ∨ p.state = .kExpectChunkLen → CallEffect p p.fail
  | block {h : Bytes} {p' : HttpParser} : p.state = .kExpectHeaders →
    ({ p with header := h }).parseHeaders = .ok p' → CallEffect p p'
  | body {chunk : Option Packet} {n m : ℤ} {st : HttpParserState} : p.InBody →
    st = p.state ∨ Stuck st →
    CallEffect p { p with chunk := chunk, curContentLength := n, curChunkLength := m, state := st }
  | size (len : ℤ) : p.state = .kExpectChunkLen → CallEffect p (afterSize p len)
  | last : p.state = .kExpectLastEmptyChunk →
    CallEffect p { p with chunk := none, state := .kExpectChunkComplete }

theorem parse_headers_effect (hs : p.state = .kExpectHeaders) (hb : b.bytes ≠ [])
    {s : HttpParserState} {p' : HttpParser} {b' : WfBuffer}
    (h : parse p b = .ok (s, p', b')) : CallEffect p p' := by
  rcases terminator_cases b with ⟨hle, hno⟩ | ⟨hgt, hf⟩ | ⟨i, h4, hf⟩
  · rw [parse_headers_wait hs hb hle hno] at h
    cases h
    exact .same
  · rw [parse_headers_long hs hgt hf] at h
    cases h
    exact .rejected (.inl hs)
  · rw [parse_headers_found hs h4 hf] at h
    cases hp : ({ p with header := b.bytes.take i }).parseHeaders with
    | error e =>
      rw [hp] at h
      cases h
    | ok q =>
      rw [hp] at h
      cases h
      exact .block hs hp

theorem parse_body_effect (hs : p.InBody) (hb : b.bytes ≠ []) {s : HttpParserState}
    {p' : HttpParser} {b' : WfBuffer} (h : parse p b = .ok (s, p', b')) : CallEffect p p' := by
  have hne : ¬ b.readableBytes = 0 := by simpa using hb
  have hbody := hs
  rw [parse, if_neg hne] at h
  rcases hs with hs | hs | hs <;> simp only [hs] at h
  · obtain ⟨r, rfl⟩ := of_fill h
    refine .body hbody ?_
    split_ifs
    · exact .inr (.inl rfl)
    · exact .inl rfl
  · obtain ⟨r, rfl⟩ := of_fill h
    refine .body hbody ?_
    split_ifs
    · exact .inr (.inr (.inl rfl))
    · exact .inl rfl
  · obtain ⟨r, rfl⟩ := of_fill h
    refine .body hbody ?_
    split_ifs
    · exact .inr (.inr (.inl rfl))
    · exact .inl rfl

/-- **Every call has one of these effects.** -/
theorem parse_effect {s : HttpParserState} {p' : HttpParser} {b' : WfBuffer}
    (h : parse p b = .ok (s, p', b')) : CallEffect p p' := by
  by_cases hb : b.bytes = []
  · rw [parse_empty hb] at h
    cases h
    exact .same
  cases hs : p.state with
  | kExpectHeaders => exact parse_headers_effect hs hb h
  | kExpectNormalBody => exact parse_body_effect (.inl hs) hb h
  | kExpectStreamBody => exact parse_body_effect (.inr (.inl hs)) hb h
  | kExpectChunkBody => exact parse_body_effect (.inr (.inr hs)) hb h
  | kExpectChunkLen =>
    rw [parse_chunkLen hs hb] at h
    cases hf : find CRLF b.bytes with
    | some i =>
      rw [hf] at h
      cases h
      exact .size _ hs
    | none =>
      rw [hf] at h
      simp only at h
      split_ifs at h <;> cases h
      · exact .rejected (.inr hs)
      · exact .same
  | kExpectLastEmptyChunk =>
    rw [parse_lastEmpty hs hb] at h
    cases hf : find CRLF b.bytes with
    | some i =>
      rw [hf] at h
      cases h
      exact .last hs
    | none =>
      rw [hf] at h
      cases h
      exact .same
  | kExpectHttpComplete | kExpectChunkComplete | kExpectContinue | kExpectError =>
    rw [parse_stuck (by simp [Stuck, hs])] at h
    cases h
    exact .same

/-- What one call of an unspoiled parser can do. -/
inductive Outcome (p : HttpParser) (b : WfBuffer) : HttpParser → WfBuffer → Prop
  | same : Outcome p b p b
  | rejected {h : Bytes} {b' : WfBuffer} :
    p.state = .kExpectHeaders ∨ p.state = .kExpectChunkLen →
    Outcome p b ({ p with header := h }.fail) b'
  | framed {i : ℕ} {r : HttpRequest} : p.state = .kExpectHeaders →
    find CRLFCRLF b.bytes = some i → blockRequest (b.bytes.take i) = some r →
    Outcome p b ({ p with
      header := b.bytes.take i, isRequest := r.isRequest, req := some r }.framed r)
        (b.retrieve (i + 4))
  | body : p.Filling → Outcome p b (p.advance (b.bytes.take (p.packet.taken b.bytes)))
      (b.retrieve (p.packet.taken b.bytes))
  | size {i : ℕ} : p.state = .kExpectChunkLen → find CRLF b.bytes = some i →
    Outcome p b (afterSize p (chunkSize (b.bytes.take i))) (b.retrieveUntil (i + 2))
  | last {i : ℕ} : p.state = .kExpectLastEmptyChunk → find CRLF b.bytes = some i →
    Outcome p b { p with chunk := none, state := .kExpectChunkComplete } (b.retrieveUntil (i + 2))

theorem parse_headers_outcome (h : Unspoiled p) (hs : p.state = .kExpectHeaders)
    (hb : b.bytes ≠ []) {s : HttpParserState} {p' : HttpParser} {b' : WfBuffer}
    (hparse : parse p b = .ok (s, p', b')) : Outcome p b p' b' := by
  rcases terminator_cases b with ⟨hle, hno⟩ | ⟨hgt, hf⟩ | ⟨i, h4, hf⟩
  · rw [parse_headers_wait hs hb hle hno] at hparse
    cases hparse
    exact .same
  · rw [parse_headers_long hs hgt hf] at hparse
    cases hparse
    exact .rejected (.inl hs)
  · cases hr : blockRequest (b.bytes.take i) with
    | some r =>
      rw [parse_headers_request hs h4 hf hr] at hparse
      cases hparse
      exact .framed hs hf hr
    | none =>
      rw [parse_headers_malformed hs (h.request hs) h4 hf hr] at hparse
      split_ifs at hparse
      cases hparse
      exact .rejected (.inl hs)

/-- **Every call has one of these outcomes.** -/
theorem parse_outcome (h : Unspoiled p) {s : HttpParserState} {p' : HttpParser} {b' : WfBuffer}
    (hparse : parse p b = .ok (s, p', b')) : Outcome p b p' b' := by
  by_cases hb : b.bytes = []
  · rw [parse_empty hb] at hparse
    cases hparse
    exact .same
  have hstuck : Stuck p.state → Outcome p b p' b' := by
    intro hs
    rw [parse_stuck hs] at hparse
    cases hparse
    exact .same
  -- a body whose capacity is negative faults before it takes anything
  have hbody : p.InBody → Outcome p b p' b' := by
    intro hs
    rcases h.body hs with hf | ⟨hc, hneg⟩
    · rw [parse_body hf hb] at hparse
      split_ifs at hparse
      cases hparse
      exact .body hf
    · rw [parse_negative hs hc hneg hb] at hparse
      cases hparse
  cases hs : p.state with
  | kExpectHeaders => exact parse_headers_outcome h hs hb hparse
  | kExpectChunkLen =>
    rw [parse_chunkLen hs hb] at hparse
    cases hf : find CRLF b.bytes with
    | some i =>
      rw [hf] at hparse
      cases hparse
      exact .size hs hf
    | none =>
      rw [hf] at hparse
      simp only at hparse
      split_ifs at hparse <;> cases hparse
      · exact .rejected (.inr hs)
      · exact .same
  | kExpectLastEmptyChunk =>
    rw [parse_lastEmpty hs hb] at hparse
    cases hf : find CRLF b.bytes with
    | some i =>
      rw [hf] at hparse
      cases hparse
      exact .last hs hf
    | none =>
      rw [hf] at hparse
      cases hparse
      exact .same
  | kExpectNormalBody => exact hbody (.inl hs)
  | kExpectStreamBody => exact hbody (.inr (.inl hs))
  | kExpectChunkBody => exact hbody (.inr (.inr hs))
  | kExpectHttpComplete => exact hstuck (.inl hs)
  | kExpectChunkComplete => exact hstuck (.inr (.inl hs))
  | kExpectContinue => exact hstuck (.inr (.inr (.inl hs)))
  | kExpectError => exact hstuck (.inr (.inr (.inr hs)))

/-- The data that a call moves fills the packet, or leaves room. -/
theorem HttpParser.Filling.taken (h : p.Filling) (bs : Bytes) :
    (p.advance (bs.take (p.packet.taken bs))).Filling ∧
        (p.advance (bs.take (p.packet.taken bs))).state = p.state ∨
      (p.advance (bs.take (p.packet.taken bs))).state = bodyDone p.state := by
  have hle := h.ok.taken_le_room bs
  have hlen := p.packet.length_take_taken bs
  rcases hle.lt_or_eq with hlt | heq
  · exact .inl (h.advance _ (by omega))
  · exact .inr (by rw [advance_state, if_pos (by omega)])

theorem stuck_bodyDone (s : HttpParserState) : Stuck (bodyDone s) := by
  cases s with
  | kExpectNormalBody => exact .inl rfl
  | _ => exact .inr (.inl rfl)

/-- A body state is none of the states before a body. -/
theorem Unspoiled.of_filling (h : p.Filling) : Unspoiled p := by
  refine ⟨fun hs => ?_, fun hs => ?_, fun _ => .inl h⟩
  · rcases h.inBody with h' | h' | h' <;> rw [hs] at h' <;> cases h'
  · rcases hs with hs | hs <;> rcases h.inBody with h' | h' | h' <;> rw [hs] at h' <;> cases h'

/-- **Calls keep a parser unspoiled.** -/
theorem Unspoiled.outcome (h : Unspoiled p) {p' : HttpParser} {b' : WfBuffer}
    (ho : Outcome p b p' b') : Unspoiled p' := by
  cases ho with
  | same => exact h
  | rejected _ => exact .of_state (.inr (.inr (.inr (.inr rfl))))
  | framed hs _ _ => exact .framed (h.packet (.inl hs))
  | body hf =>
    rcases hf.taken b.bytes with ⟨hf', -⟩ | hs'
    · exact .of_filling hf'
    · exact .of_state (.inr (by rw [hs']; exact stuck_bodyDone _))
  | @size i hs hf =>
    by_cases h0 : chunkSize (b.bytes.take i) = 0
    · exact .of_state (.inl (if_pos h0))
    · have hst : (afterSize p (chunkSize (b.bytes.take i))).state = .kExpectChunkBody := if_neg h0
      have hcap : (afterSize p (chunkSize (b.bytes.take i))).bodyCapacity =
          chunkSize (b.bytes.take i) := by rw [bodyCapacity, hst]; rfl
      exact .of_body (.inr (.inr hst)) (h.packet (.inr hs)) (by rw [hcap]; exact h0)
        (by rw [hcap]; exact toInt32_lt _)
  | last _ _ => exact .of_state (.inr (.inr (.inl rfl)))

/-- **The parser of an `HttpContext` is unspoiled.** -/
theorem Owned.unspoiled (h : Owned p) : Unspoiled p := by
  induction h with
  | init =>
    exact ⟨fun _ => rfl, fun _ => rfl, fun hs => by rcases hs with hs | hs | hs <;> cases hs⟩
  | parse _ hparse ih => exact ih.outcome (parse_outcome ih hparse)

end HttpNest
