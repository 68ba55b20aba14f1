import HttpNest.Proof.Rejected
import HttpNest.Spec.Reads

/-!
# The size limits and the reads

`Parse` compares what is in the buffer with the limit only where it has not found the
terminator yet. A block or a size line is therefore within the limit if it arrives at once,
however long it is, and over it if all but its last byte arrive first: `Limited` says what the
two states have in common, `Limited.sameEnd_iff` when the reads make no difference.
-/

namespace HttpNest

open CNumeral ListSearch HttpParser EventRun

/-- The parser has left its state for one that goes on. -/
def Accepts (p : HttpParser) (b : WfBuffer) (reads : List Read) : Prop :=
  ∃ t, (⟨p, b⟩ : Session).readAll reads = some t ∧ t.parser.state ≠ p.state ∧
    t.parser.state ≠ .kExpectError

def EndsInError (p : HttpParser) (b : WfBuffer) (reads : List Read) : Prop :=
  ∃ t, (⟨p, b⟩ : Session).readAll reads = some t ∧ t.parser.state = .kExpectError

/-- Any two ways of splitting `bs` are accepted both, or both end in the error. -/
def SameEnd (p : HttpParser) (b : WfBuffer) (bs : Bytes) : Prop :=
  ∀ reads reads', Splits reads bs → Splits reads' bs →
    Accepts p b reads ∧ Accepts p b reads' ∨ EndsInError p b reads ∧ EndsInError p b reads'

/-! ## Runs of calls -/

/-- What every call of `Parse` keeps, any number of them keeps. -/
theorem run_replicate_parse {I : Session → Prop}
    (h : ∀ s, I s → ∃ t, s.step .parse = some t ∧ I t) :
    ∀ n s, I s → ∃ t, run Session.step s (List.replicate n .parse) = some t ∧ I t := by
  intro n
  induction n with
  | zero =>
    intro s hs
    exact ⟨s, rfl, hs⟩
  | succ n ih =>
    intro s hs
    obtain ⟨u, hu, hI⟩ := h s hs
    obtain ⟨t, ht, hI⟩ := ih u hI
    exact ⟨t, run_cons_eq_some.2 ⟨u, hu, ht⟩, hI⟩

theorem readAll_cons {s t : Session} {r : Read} {reads : List Read} :
    s.readAll (r :: reads) = some t ↔
      ∃ u, run Session.step { s with buf := s.buf.append r.piece }
        (List.replicate (r.again + 1) .parse) = some u ∧ u.readAll reads = some t := by
  rw [Session.readAll, List.flatMap_cons, run_append]
  rfl

theorem readAll_single {s t : Session} {piece : Bytes} :
    s.readAll [⟨piece, 0⟩] = some t ↔
      Session.step { s with buf := s.buf.append piece } .parse = some t := by
  rw [readAll_cons]
  constructor
  · rintro ⟨u, hu, ht⟩
    cases ht
    obtain ⟨v, hv, hu⟩ := run_cons_eq_some.1 hu
    cases hu
    exact hv
  · intro h
    exact ⟨t, run_cons_eq_some.2 ⟨t, h, rfl⟩, rfl⟩

theorem session_step_parse {s : Session} {st : HttpParserState} {p : HttpParser} {b : WfBuffer}
    (h : parse s.parser s.buf = .ok (st, p, b)) : s.step .parse = some ⟨p, b⟩ := by
  rw [Session.step, h]

/-- An error is the end. -/
theorem readAll_error (reads : List Read) : ∀ s : Session, s.parser.state = .kExpectError →
    ∃ t, s.readAll reads = some t ∧ t.parser.state = .kExpectError := by
  induction reads with
  | nil =>
    intro s hs
    exact ⟨s, rfl, hs⟩
  | cons r reads ih =>
    intro s hs
    have hstep : ∀ u : Session, u.parser.state = .kExpectError →
        ∃ t, u.step .parse = some t ∧ t.parser.state = .kExpectError := by
      intro u hu
      exact ⟨u, session_step_parse (parse_stuck (.inr (.inr (.inr hu)))), hu⟩
    obtain ⟨u, hu, hs⟩ := run_replicate_parse hstep (r.again + 1)
      { s with buf := s.buf.append r.piece } hs
    obtain ⟨t, ht, hs⟩ := ih u hs
    exact ⟨t, readAll_cons.2 ⟨u, hu, ht⟩, hs⟩

/-! ## A parser with a limit -/

/-- `p` waits for the whole of `bs` with at most `limit` bytes in the buffer, and takes the
whole of it without looking at the limit; `out` is the state after that, `none` a fault. -/
structure Limited (p : HttpParser) (limit : ℕ) (bs : Bytes) (out : Option HttpParserState) :
    Prop where
  nonempty : bs ≠ []
  wait : ∀ b : WfBuffer, b.bytes <+: bs → b.bytes ≠ bs → b.bytes.length ≤ limit →
    ∃ s, parse p b = .ok (s, p, b)
  long : ∀ b : WfBuffer, b.bytes <+: bs → b.bytes ≠ bs → limit < b.bytes.length →
    ∃ s p' b', parse p b = .ok (s, p', b') ∧ p'.state = .kExpectError
  fault : out = none → ∀ b : WfBuffer, b.bytes = bs → ∃ e, parse p b = .error e
  whole : ∀ st, out = some st → ∀ b : WfBuffer, b.bytes = bs →
    ∃ s p' b', parse p b = .ok (s, p', b') ∧ p'.state = st ∧ b'.bytes = []

/-- Where a session is, `A` having arrived of `bs`. -/
inductive LimitPhase (p : HttpParser) (limit : ℕ) (bs : Bytes) (st : HttpParserState)
    (A : Bytes) : Session → Prop
  | waiting {s : Session} : A ≠ bs → s.parser = p → s.buf.bytes = A → LimitPhase p limit bs st A s
  | rejected {s : Session} : limit + 1 < bs.length → s.parser.state = .kExpectError →
    LimitPhase p limit bs st A s
  | taken {s : Session} : A = bs → s.parser.state = st → s.buf.bytes = [] →
    LimitPhase p limit bs st A s

namespace Limited

variable {p : HttpParser} {b : WfBuffer} {limit : ℕ} {bs A : Bytes} {out : Option HttpParserState}
  {st : HttpParserState} {s : Session}

/-- The call that finds `A` in the buffer. -/
theorem parse_waiting (h : Limited p limit bs (some st)) (hA : A <+: bs) (hp : s.parser = p)
    (hbuf : s.buf.bytes = A) : ∃ t, s.step .parse = some t ∧ LimitPhase p limit bs st A t := by
  by_cases hwhole : A = bs
  · obtain ⟨r, p', b', hparse, hst, hb'⟩ := h.whole st rfl s.buf (hbuf.trans hwhole)
    rw [← hp] at hparse
    exact ⟨_, session_step_parse hparse, .taken hwhole hst hb'⟩
  rcases le_or_gt A.length limit with hle | hgt
  · obtain ⟨r, hparse⟩ := h.wait s.buf (by rwa [hbuf]) (by rwa [hbuf]) (by rwa [hbuf])
    rw [← hp] at hparse
    exact ⟨_, session_step_parse hparse, .waiting hwhole hp hbuf⟩
  · obtain ⟨r, p', b', hparse, hst⟩ := h.long s.buf (by rwa [hbuf]) (by rwa [hbuf]) (by rwa [hbuf])
    rw [← hp] at hparse
    -- a proper prefix over the limit leaves room for one more byte of `bs`
    have hlt : A.length < bs.length := by
      refine lt_of_le_of_ne hA.length_le ?_
      intro hlen
      exact hwhole (hA.eq_of_length hlen)
    exact ⟨_, session_step_parse hparse, .rejected (by omega) hst⟩

theorem parse_phase (h : Limited p limit bs (some st)) (hA : A <+: bs)
    (hs : LimitPhase p limit bs st A s) :
    ∃ t, s.step .parse = some t ∧ LimitPhase p limit bs st A t := by
  cases hs with
  | waiting hne hp hbuf => exact h.parse_waiting hA hp hbuf
  | rejected hlong hst =>
    exact ⟨s, session_step_parse (parse_stuck (.inr (.inr (.inr hst)))), .rejected hlong hst⟩
  | taken hwhole hst hbuf =>
    exact ⟨s, session_step_parse (parse_empty hbuf), .taken hwhole hst hbuf⟩

/-- The first call behind a piece. -/
theorem append_phase (h : Limited p limit bs (some st)) {piece : Bytes} (hA : A ++ piece <+: bs)
    (hs : LimitPhase p limit bs st A s) :
    ∃ t, Session.step { s with buf := s.buf.append piece } .parse = some t ∧
      LimitPhase p limit bs st (A ++ piece) t := by
  cases hs with
  | waiting hne hp hbuf =>
    exact h.parse_waiting hA hp (by rw [WfBuffer.bytes_append, hbuf])
  | rejected hlong hst => exact h.parse_phase hA (.rejected hlong hst)
  | taken hwhole hst hbuf =>
    -- nothing is left of `bs`
    have hlen := hA.length_le
    rw [hwhole, List.length_append] at hlen
    have hpiece : piece = [] := List.length_eq_zero_iff.1 (by omega)
    subst hpiece
    rw [List.append_nil] at hA ⊢
    exact h.parse_phase hA (.taken hwhole hst (by rw [WfBuffer.bytes_append, hbuf]; rfl))

/-- **The reads end in a phase.** -/
theorem readAll_phase (h : Limited p limit bs (some st)) (reads : List Read) :
    ∀ (A : Bytes) (s : Session), A ++ reads.flatMap Read.piece <+: bs →
      LimitPhase p limit bs st A s → ∃ t, s.readAll reads = some t ∧
        LimitPhase p limit bs st (A ++ reads.flatMap Read.piece) t := by
  induction reads with
  | nil =>
    intro A s _ hs
    exact ⟨s, rfl, by rwa [List.flatMap_nil, List.append_nil]⟩
  | cons r reads ih =>
    intro A s hpre hs
    rw [List.flatMap_cons, ← List.append_assoc] at hpre ⊢
    have hA : A ++ r.piece <+: bs := (List.prefix_append _ _).trans hpre
    obtain ⟨u, hu, hphase⟩ := h.append_phase hA hs
    obtain ⟨v, hv, hphase⟩ := run_replicate_parse
      (fun s hs => h.parse_phase hA hs) r.again u hphase
    obtain ⟨t, ht, hphase⟩ := ih (A ++ r.piece) v hpre hphase
    exact ⟨t, readAll_cons.2 ⟨v, run_cons_eq_some.2 ⟨u, hu, hv⟩, ht⟩, hphase⟩

theorem readAll_splits (h : Limited p limit bs (some st)) (hb : b.bytes = []) {reads : List Read}
    (hr : Splits reads bs) : ∃ t, (⟨p, b⟩ : Session).readAll reads = some t ∧
      LimitPhase p limit bs st bs t := by
  have hpre : [] ++ reads.flatMap Read.piece <+: bs := by
    rw [List.nil_append, hr]
  obtain ⟨t, ht, hphase⟩ := h.readAll_phase reads [] ⟨p, b⟩ hpre (.waiting h.nonempty.symm rfl hb)
  rw [List.nil_append, hr] at hphase
  exact ⟨t, ht, hphase⟩

/-- All but the last byte in one read, over the limit. -/
theorem endsInError_of_long (h : Limited p limit bs out) (hb : b.bytes = [])
    (hlong : limit + 1 < bs.length) :
    EndsInError p b [⟨bs.take (bs.length - 1), 0⟩, ⟨bs.drop (bs.length - 1), 0⟩] := by
  have hbytes : (b.append (bs.take (bs.length - 1))).bytes = bs.take (bs.length - 1) := by
    rw [WfBuffer.bytes_append, hb, List.nil_append]
  have hlen : (bs.take (bs.length - 1)).length = bs.length - 1 := by
    rw [List.length_take]
    omega
  obtain ⟨r, p', b', hparse, hst⟩ := h.long (b.append (bs.take (bs.length - 1)))
    (by rw [hbytes]; exact List.take_prefix _ _)
    (by intro heq; rw [hbytes] at heq; rw [heq] at hlen; omega) (by rw [hbytes]; omega)
  obtain ⟨t, ht, hst⟩ := readAll_error [⟨bs.drop (bs.length - 1), 0⟩] ⟨p', b'⟩ hst
  refine ⟨t, readAll_cons.2 ⟨⟨p', b'⟩, ?_, ht⟩, hst⟩
  exact run_cons_eq_some.2 ⟨_, session_step_parse hparse, rfl⟩

/-- A block on which `Parse` faults ends in neither way. -/
theorem not_sameEnd_of_fault (h : Limited p limit bs none) (hb : b.bytes = []) :
    ¬ SameEnd p b bs := by
  have hone : Splits [⟨bs, 0⟩] bs := by simp [Splits]
  have hbytes : (b.append bs).bytes = bs := by rw [WfBuffer.bytes_append, hb, List.nil_append]
  obtain ⟨e, hparse⟩ := h.fault rfl _ hbytes
  have hnone : ∀ t, (⟨p, b⟩ : Session).readAll [⟨bs, 0⟩] ≠ some t := by
    intro t ht
    rw [readAll_single] at ht
    simp only [Session.step, hparse, reduceCtorEq] at ht
  intro hsame
  rcases hsame _ _ hone hone with ⟨⟨t, ht, -⟩, -⟩ | ⟨⟨t, ht, -⟩, -⟩
  · exact hnone t ht
  · exact hnone t ht

/-- What is taken in one read, and is too long for two of them, has to be rejected. -/
theorem cond_of_sameEnd (h : Limited p limit bs (some st)) (hb : b.bytes = [])
    (hsame : SameEnd p b bs) : st = .kExpectError ∨ bs.length ≤ limit + 1 := by
  by_contra hno
  obtain ⟨hgood, hlong⟩ := not_or.1 hno
  have hone : Splits [⟨bs, 0⟩] bs := by simp [Splits]
  have htwo : Splits [⟨bs.take (bs.length - 1), 0⟩, ⟨bs.drop (bs.length - 1), 0⟩] bs := by
    simp [Splits]
  have hbytes : (b.append bs).bytes = bs := by rw [WfBuffer.bytes_append, hb, List.nil_append]
  obtain ⟨t, ht, herr⟩ := h.endsInError_of_long hb (by omega)
  obtain ⟨q, p', b', hparse, hq, -⟩ := h.whole st rfl _ hbytes
  have hread := readAll_single (s := ⟨p, b⟩).2 (session_step_parse hparse)
  -- one read takes the whole, two reads are rejected
  rcases hsame _ _ hone htwo with ⟨-, t', ht', -, hne⟩ | ⟨⟨t', ht', herr'⟩, -⟩
  · rw [ht] at ht'
    cases ht'
    exact hne herr
  · rw [hread] at ht'
    cases ht'
    exact hgood (hq.symm.trans herr')

/-- Behind the last read the whole has been taken, or was rejected for its length. -/
theorem state_of_phase {u : Session} (hu : LimitPhase p limit bs st bs u) :
    limit + 1 < bs.length ∧ u.parser.state = .kExpectError ∨ u.parser.state = st := by
  cases hu with
  | waiting hne _ _ => exact absurd rfl hne
  | rejected hlong hu => exact .inl ⟨hlong, hu⟩
  | taken _ hu _ => exact .inr hu

theorem sameEnd_of_cond (h : Limited p limit bs (some st)) (hb : b.bytes = [])
    (hst : st ≠ p.state) (hcond : st = .kExpectError ∨ bs.length ≤ limit + 1) :
    SameEnd p b bs := by
  intro reads reads' hr hr'
  obtain ⟨t, ht, hphase⟩ := h.readAll_splits hb hr
  obtain ⟨t', ht', hphase'⟩ := h.readAll_splits hb hr'
  by_cases herr : st = .kExpectError
  · have hend : ∀ u, LimitPhase p limit bs st bs u → u.parser.state = .kExpectError := by
      intro u hu
      rcases state_of_phase hu with ⟨-, hst⟩ | hst
      · exact hst
      · exact hst.trans herr
    exact .inr ⟨⟨t, ht, hend t hphase⟩, t', ht', hend t' hphase'⟩
  · have hend : ∀ u, LimitPhase p limit bs st bs u →
        u.parser.state ≠ p.state ∧ u.parser.state ≠ .kExpectError := by
      intro u hu
      rcases state_of_phase hu with ⟨hlong, -⟩ | hu
      · exact absurd (hcond.resolve_left herr) (by omega)
      · rw [hu]
        exact ⟨hst, herr⟩
    exact .inl ⟨⟨t, ht, hend t hphase⟩, t', ht', hend t' hphase'⟩

/-- **The reads make no difference exactly if the whole is rejected for what it is, or not
longer than the limit and one byte.** -/
theorem sameEnd_iff (h : Limited p limit bs out) (hb : b.bytes = [])
    (hout : out ≠ some p.state) :
    SameEnd p b bs ↔ ∃ st, out = some st ∧ (st = .kExpectError ∨ bs.length ≤ limit + 1) := by
  cases out with
  | none => exact iff_of_false (h.not_sameEnd_of_fault hb) (by rintro ⟨st, hst, -⟩; cases hst)
  | some st =>
    constructor
    · intro hsame
      exact ⟨st, rfl, h.cond_of_sameEnd hb hsame⟩
    · rintro ⟨st', hst', hcond⟩
      cases hst'
      exact h.sameEnd_of_cond hb (fun heq => hout (by rw [heq])) hcond

end Limited

/-! ## The two states -/

/-- The request that the lines of a block are read into: the one that its start line makes,
else the one left over from before. -/
def lineRequest (req : Option HttpRequest) (h : Bytes) : Option HttpRequest :=
  (blockRequest h).or (req.map fun r => (StringUtils.splitString h CRLF).foldl addField r)

/-- The content length of the request is no number. -/
def BadLength (r : HttpRequest) : Prop :=
  r.getHeader (ascii "content-length") ≠ [] ∧ stoull (r.getHeader (ascii "content-length")) = none

theorem selectBody_state_ne (p : HttpParser) (r : HttpRequest) :
    (p.selectBody r).state ≠ .kExpectHeaders := by
  unfold HttpParser.selectBody
  dsimp only
  cases stoull (r.getHeader (ascii "content-length")) with
  | none => split_ifs <;> simp [fail]
  | some n =>
    simp only
    generalize toInt32 n = len
    by_cases hlen : len = 0
    · rw [if_pos hlen]
      split_ifs <;> simp
    · rw [if_neg hlen]
      split_ifs <;> simp

theorem splitString_ne_nil {h : Bytes} (hne : h ≠ []) : StringUtils.splitString h CRLF ≠ [] := by
  rw [splitString_eq (by decide)]
  cases find CRLF h with
  | none => simp [hne]
  | some i => simp

section

variable {p : HttpParser} {b : WfBuffer} {h line : Bytes}

theorem parseHeaders_lineRequest_none (hne : h ≠ []) (hr : lineRequest p.req h = none) :
    ({ p with header := h }).parseHeaders = .error .nullRequest := by
  obtain ⟨hblock, hreq⟩ := Option.or_eq_none_iff.1 hr
  rw [parseHeaders_of_malformed (p := { p with header := h }) hblock]
  cases hl : StringUtils.splitString h CRLF with
  | nil => exact absurd hl (splitString_ne_nil hne)
  | cons line rest =>
    have hnone : p.req = none := Option.map_eq_none_iff.1 hreq
    simp only [hnone]

theorem parseHeaders_lineRequest (hne : h ≠ []) {r : HttpRequest}
    (hr : lineRequest p.req h = some r) :
    ∃ q : HttpParser, ({ p with header := h }).parseHeaders = .ok (q.selectBody r) := by
  cases hblock : blockRequest h with
  | some r' =>
    have heq : r' = r := by
      rw [lineRequest, hblock] at hr
      exact Option.some.inj hr
    subst heq
    rw [parseHeaders_of_blockRequest (p := { p with header := h }) hblock]
    exact ⟨_, congrArg Except.ok (selectBody_eq rfl).symm⟩
  | none =>
    rw [parseHeaders_of_malformed (p := { p with header := h }) hblock]
    rw [lineRequest, hblock, Option.none_or] at hr
    obtain ⟨r', hreq, hr⟩ := Option.map_eq_some_iff.1 hr
    cases hl : StringUtils.splitString h CRLF with
    | nil => exact absurd hl (splitString_ne_nil hne)
    | cons line rest =>
      rw [hl] at hr
      simp only [hreq, hr]
      exact ⟨_, rfl⟩

/-- A proper prefix is shorter. -/
theorem length_lt_of_prefix {A bs : Bytes} (hA : A <+: bs) (hne : A ≠ bs) :
    A.length < bs.length := by
  refine lt_of_le_of_ne hA.length_le ?_
  intro hlen
  exact hne (hA.eq_of_length hlen)

/-- Before the last byte of a block its terminator is not found. -/
theorem find_none_of_proper {sep block bs : Bytes}
    (hf : find sep (block ++ sep) = some block.length) (hpre : bs <+: block ++ sep)
    (hproper : bs ≠ block ++ sep) : find sep bs = none := by
  have hlt := length_lt_of_prefix hpre hproper
  rw [List.length_append] at hlt
  have hterm := find_in_front hpre hf
  rwa [if_neg (by omega)] at hterm

/-- A block that is not empty, in `kExpectHeaders`. -/
theorem limited_block (hs : p.state = .kExpectHeaders) (hne : h ≠ [])
    (hf : find CRLFCRLF (h ++ CRLFCRLF) = some h.length) {out : Option HttpParserState}
    (hnone : out = none → ({ p with header := h }).parseHeaders = .error .nullRequest)
    (hsome : ∀ st, out = some st → ∃ q : HttpParser,
      ({ p with header := h }).parseHeaders = .ok q ∧ q.state = st) :
    Limited p kHttpMaxBodySize (h ++ CRLFCRLF) out := by
  have hlen : (h ++ CRLFCRLF).length = h.length + 4 := List.length_append
  have h4 : 4 < (h ++ CRLFCRLF).length := by
    have hpos : 0 < h.length := List.length_pos_iff.2 hne
    omega
  have hwhole : ∀ b : WfBuffer, b.bytes = h ++ CRLFCRLF →
      parse p b = (({ p with header := h }).parseHeaders).map
        fun p' : HttpParser => (p'.state, p', b.retrieve (h.length + 4)) := by
    intro b hb
    have hparse := parse_headers_found hs (by rwa [hb]) (by rwa [hb])
    rwa [hb, List.take_left] at hparse
  refine ⟨List.ne_nil_of_length_pos (by omega), ?_, ?_, ?_, ?_⟩
  · intro b hpre hproper hle
    by_cases hempty : b.bytes = []
    · exact ⟨_, parse_empty hempty⟩
    · exact ⟨_, parse_headers_wait hs hempty hle (.inr (find_none_of_proper hf hpre hproper))⟩
  · intro b hpre hproper hgt
    exact ⟨_, _, _, parse_headers_long hs hgt (find_none_of_proper hf hpre hproper), rfl⟩
  · intro hout b hb
    rw [hwhole b hb, hnone hout]
    exact ⟨_, rfl⟩
  · intro st hout b hb
    obtain ⟨q, hq, hst⟩ := hsome st hout
    rw [hwhole b hb, hq]
    refine ⟨_, _, _, rfl, hst, ?_⟩
    rw [WfBuffer.bytes_retrieve, hb, ← hlen, List.drop_length]

/-- An empty block is four bytes, which are not looked at. -/
theorem not_sameEnd_empty (hs : p.state = .kExpectHeaders) (hb : b.bytes = []) :
    ¬ SameEnd p b CRLFCRLF := by
  have hone : Splits [⟨CRLFCRLF, 0⟩] CRLFCRLF := by simp [Splits]
  have hbytes : (b.append CRLFCRLF).bytes = CRLFCRLF := by
    rw [WfBuffer.bytes_append, hb, List.nil_append]
  have hparse := parse_headers_wait (p := p) (b := b.append CRLFCRLF) hs
    (by rw [hbytes]; decide) (by rw [hbytes]; decide) (.inl (by rw [hbytes]; decide))
  have hread := readAll_single (s := ⟨p, b⟩).2 (session_step_parse hparse)
  intro hsame
  rcases hsame _ _ hone hone with ⟨⟨t, ht, hst, -⟩, -⟩ | ⟨⟨t, ht, hst⟩, -⟩
  · rw [hread] at ht
    cases ht
    exact hst rfl
  · rw [hread] at ht
    cases ht
    rw [hs] at hst
    cases hst

/-- A size line, in `kExpectChunkLen`. -/
theorem limited_line (hs : p.state = .kExpectChunkLen)
    (hf : find CRLF (line ++ CRLF) = some line.length) :
    Limited p 32 (line ++ CRLF) (some (afterSize p (chunkSize line)).state) := by
  have hlen : (line ++ CRLF).length = line.length + 2 := List.length_append
  refine ⟨List.ne_nil_of_length_pos (by omega), ?_, ?_, fun hout => (by cases hout), ?_⟩
  · intro b hpre hproper hle
    by_cases hempty : b.bytes = []
    · exact ⟨_, parse_empty hempty⟩
    · have hparse := parse_chunkLen hs hempty
      rw [find_none_of_proper hf hpre hproper] at hparse
      simp only [if_neg (not_lt.2 hle)] at hparse
      exact ⟨_, hparse⟩
  · intro b hpre hproper hgt
    have hempty : b.bytes ≠ [] := List.ne_nil_of_length_pos (by omega)
    have hparse := parse_chunkLen hs hempty
    rw [find_none_of_proper hf hpre hproper] at hparse
    simp only [if_pos hgt] at hparse
    exact ⟨_, _, _, hparse, rfl⟩
  · intro st hout b hb
    have hempty : b.bytes ≠ [] := List.ne_nil_of_length_pos (by rw [hb]; omega)
    have hparse := parse_chunkLen hs hempty
    rw [hb, hf] at hparse
    simp only [List.take_left] at hparse
    cases hout
    refine ⟨_, _, _, hparse, rfl, ?_⟩
    rw [WfBuffer.bytes_retrieveUntil, hb, ← hlen, List.drop_length]

theorem afterSize_state (p : HttpParser) (len : ℤ) :
    (afterSize p len).state ≠ .kExpectChunkLen ∧ (afterSize p len).state ≠ .kExpectError := by
  unfold afterSize
  by_cases hlen : len = 0 <;> simp [hlen]

theorem sameEnd_block (hs : p.state = .kExpectHeaders) (hb : b.bytes = [])
    (hf : find CRLFCRLF (h ++ CRLFCRLF) = some h.length) :
    SameEnd p b (h ++ CRLFCRLF) ↔ h ≠ [] ∧ ∃ r, lineRequest p.req h = some r ∧
      (BadLength r ∨ (h ++ CRLFCRLF).length ≤ kHttpMaxBodySize + 1) := by
  by_cases hne : h = []
  · subst hne
    exact iff_of_false (not_sameEnd_empty hs hb) fun h => h.1 rfl
  rw [and_iff_right hne]
  cases hr : lineRequest p.req h with
  | none =>
    have hlimited : Limited p kHttpMaxBodySize (h ++ CRLFCRLF) none :=
      limited_block hs hne hf (fun _ => parseHeaders_lineRequest_none hne hr)
        (by intro _ hst; cases hst)
    rw [hlimited.sameEnd_iff hb (by simp)]
    simp
  | some r =>
    obtain ⟨q, hq⟩ := parseHeaders_lineRequest hne hr
    have hlimited : Limited p kHttpMaxBodySize (h ++ CRLFCRLF) (some (q.selectBody r).state) := by
      refine limited_block hs hne hf (by intro hst; cases hst) ?_
      intro st hst
      exact ⟨_, hq, Option.some.inj hst⟩
    have hstate : some (q.selectBody r).state ≠ some p.state := by
      rw [hs]
      intro heq
      exact selectBody_state_ne q r (Option.some.inj heq)
    rw [hlimited.sameEnd_iff hb hstate]
    have herr : (q.selectBody r).state = .kExpectError ↔ BadLength r := selectBody_error r
    simp [herr]

theorem sameEnd_line (hs : p.state = .kExpectChunkLen) (hb : b.bytes = [])
    (hf : find CRLF (line ++ CRLF) = some line.length) :
    SameEnd p b (line ++ CRLF) ↔ (line ++ CRLF).length ≤ 33 := by
  obtain ⟨hleft, herr⟩ := afterSize_state p (chunkSize line)
  have hstate : some (afterSize p (chunkSize line)).state ≠ some p.state := by
    rw [hs]
    intro heq
    exact hleft (Option.some.inj heq)
  rw [(limited_line hs hf).sameEnd_iff hb hstate]
  constructor
  · rintro ⟨st, hst, hcond⟩
    cases hst
    exact hcond.resolve_left herr
  · intro hlen
    exact ⟨_, rfl, .inr hlen⟩

/-- **The reads make no difference exactly within the limit and one byte**: for a header block
that is not empty and has a request for its lines, or else is rejected whatever its length, and
for a size line. -/
theorem limits_iff (hb : b.bytes = []) :
    (p.state = .kExpectHeaders → ∀ h, find CRLFCRLF (h ++ CRLFCRLF) = some h.length →
      (SameEnd p b (h ++ CRLFCRLF) ↔ h ≠ [] ∧ ∃ r, lineRequest p.req h = some r ∧
        (BadLength r ∨ (h ++ CRLFCRLF).length ≤ kHttpMaxBodySize + 1))) ∧
    (p.state = .kExpectChunkLen → ∀ line, find CRLF (line ++ CRLF) = some line.length →
      (SameEnd p b (line ++ CRLF) ↔ (line ++ CRLF).length ≤ 33)) :=
  ⟨fun hs _ hf => sameEnd_block hs hb hf, fun hs _ hf => sameEnd_line hs hb hf⟩

end

/-- A short block, and a short size line. -/
theorem limits_short :
    SameEnd {} (holding []) (ascii "GET / HTTP/1.1" ++ CRLFCRLF) ∧
      SameEnd { state := .kExpectChunkLen } (holding []) (ascii "5" ++ CRLF) := by
  obtain ⟨r, hr⟩ := Option.isSome_iff_exists.1
    (show (lineRequest none (ascii "GET / HTTP/1.1")).isSome by decide +kernel)
  refine ⟨((limits_iff (bytes_holding [])).1 rfl _ (by decide +kernel)).2 ⟨?_, r, hr, .inr ?_⟩,
    ((limits_iff (bytes_holding [])).2 rfl _ (by decide +kernel)).2 ?_⟩ <;> decide +kernel

/-- A request line of more than 64 KiB. -/
def longLine : Bytes := ascii "GET /" ++ List.replicate 65536 97 ++ ascii " HTTP/1.1"

theorem length_longLine : longLine.length = 65550 := by
  have hfront : (ascii "GET /").length = 5 := by decide +kernel
  have hback : (ascii " HTTP/1.1").length = 9 := by decide +kernel
  unfold longLine
  rw [List.length_append, List.length_append, List.length_replicate, hfront, hback]

theorem not_mem_longLine {c : UInt8} (hfront : c ∉ ascii "GET /") (hc : c ≠ 97)
    (hback : c ∉ ascii " HTTP/1.1") : c ∉ longLine := by
  unfold longLine
  simp only [List.mem_append, List.mem_replicate, not_or]
  exact ⟨⟨hfront, fun h => hc h.2⟩, hback⟩

/-- The only line of the block gives the request no header. -/
theorem not_badLength_longLine {r : HttpRequest} (hr : blockRequest longLine = some r) :
    ¬ BadLength r := by
  have hcr : find CRLF longLine = none :=
    find_eq_none_of_not_mem (not_mem_longLine (by decide +kernel) (by decide) (by decide +kernel))
  have hcolon : find [58] longLine = none :=
    find_singleton_none.2 (not_mem_longLine (by decide +kernel) (by decide) (by decide +kernel))
  have hne : longLine ≠ [] := List.ne_nil_of_length_pos (by rw [length_longLine]; decide)
  have hlines : StringUtils.splitString longLine CRLF = [longLine] := by
    rw [splitString_eq (by decide), hcr]
    exact if_neg hne
  intro hbad
  apply hbad.1
  rw [getHeader_blockRequest hr toLower_contentLength, storedValue, hlines]
  simp [keyValue, hcolon]

/-- In one read the block and the size line are accepted, in the wrong two they are not. -/
theorem limits_depend_on_reads :
    ¬ SameEnd {} (holding []) (longLine ++ CRLFCRLF) ∧
      ¬ SameEnd { state := .kExpectChunkLen } (holding []) (List.replicate 32 48 ++ CRLF) := by
  have hcr : (13 : UInt8) ∉ longLine :=
    not_mem_longLine (by decide +kernel) (by decide) (by decide +kernel)
  have hlong : kHttpMaxBodySize + 1 < (longLine ++ CRLFCRLF).length := by
    rw [List.length_append, length_longLine]
    decide
  have hend : find CRLFCRLF (longLine ++ CRLFCRLF) = some longLine.length := by
    have hfind := find_append_of_not_mem (by decide : find CRLFCRLF CRLFCRLF = some 0) hcr
    rwa [Nat.add_zero] at hfind
  constructor
  · rw [sameEnd_block rfl (bytes_holding []) hend]
    rintro ⟨-, r, hr, hbad | hle⟩
    · rw [lineRequest, Option.map_none, Option.or_none] at hr
      exact not_badLength_longLine hr hbad
    · omega
  · rw [sameEnd_line rfl (bytes_holding []) (by decide +kernel)]
    decide

end HttpNest
