import HttpNest.Proof.ContentLength
import HttpNest.Proof.ContextLoop

/-!
# Messages on one connection

`HttpContext::Parse` on a stream of messages with a content length, `reads` being the
segments between its calls. `InOrder ms c` is what the server is to do: the requests
reported so far are the first messages, in order, and what follows a reported message
is not left to a parser that is still at it.

Nobody clears the parser, so a complete message is reported again for as long as more
than one byte is buffered. `pipeline_inOrder_iff` says when this does not happen: when
there is no second message, or when the loop never gets past the first header block
(`Stalls`: a read ends inside it, with at least two bytes buffered).
-/

namespace HttpNest

open CNumeral ListSearch HttpParser FeedLoop

/-- The bytes of a list of messages. -/
def stream (ms : List Message) : Bytes := (ms.map Message.bytes).flatten

/-- What `OnRequest` is to be called with. -/
def Message.report (m : Message) : Option HttpRequest × Option Packet := (some m.request, m.chunk)

/-- The reported requests are the first messages in order, and what follows them is
parsed as a new message. -/
structure InOrder (ms : List Message) (c : HttpContext) : Prop where
  reported : c.requests <+: ms.map Message.report
  following : c.requests ≠ [] → c.buf.bytes ≠ [] → c.httpParser.state ≠ .kExpectHttpComplete

/-- At every moment, those inside the loop of `Parse` included. -/
def AlwaysInOrder (ms : List Message) (b : WfBuffer) (reads : List Bytes) : Prop :=
  ∀ c rest, HttpContext.loop.Reaches ({ httpParser := {}, buf := b }, reads) (c, rest) →
    InOrder ms c

/-- Some read ends inside the first header block, with two bytes buffered or more. -/
def Stalls (ms : List Message) (reads : List Bytes) : Prop :=
  ∃ m ∈ ms.head?, ∃ pre, pre <+: reads ∧
    2 ≤ pre.flatten.length ∧ pre.flatten.length < m.head.length

variable {m : Message} {A T : Bytes} {c c' : HttpContext}

/-- A phase of the first message, with the requests reported so far. -/
structure Serving (m : Message) (A : Bytes) (c : HttpContext) : Prop where
  phase : Phase m A c.httpParser c.buf.bytes
  requests : c.httpParser.state ≠ .kExpectHttpComplete → c.requests = []

theorem Phase.ne_chunkComplete {p : HttpParser} {bs : Bytes} (h : Phase m A p bs) :
    p.state ≠ .kExpectChunkComplete := by
  intro hs
  rcases h with ⟨hs', -⟩ | ⟨-, hs', -⟩ | ⟨hs', -⟩ | ⟨hs', -⟩ <;> rw [hs] at hs' <;> cases hs'

/-- The turn around a call that keeps to the phases. -/
theorem Serving.of_parse (h : Serving m A c) {s : HttpParserState} {p : HttpParser}
    {b : WfBuffer} (hparse : parse c.httpParser c.buf = .ok (s, p, b))
    (hs : s = p.state ∨ s = .kExpectContinue ∧ p.state = .kExpectHeaders)
    (hphase : Phase m A p b.bytes)
    (hback : p.state ≠ .kExpectHttpComplete → c.httpParser.state ≠ .kExpectHttpComplete) :
    ∃ c', c.turn = .ok c' ∧ c'.buf = b ∧ Serving m A c' ∧
      c'.requests = if c'.httpParser.state = .kExpectHttpComplete then
        c.requests ++ [m.report] else c.requests := by
  obtain ⟨c', hc', rfl, rfl, hreq⟩ := turn_of_parse hparse hs
  have hne := hphase.ne_chunkComplete
  have hreq' : c'.requests = if c'.httpParser.state = .kExpectHttpComplete then
      c.requests ++ [m.report] else c.requests := by
    rw [hreq]
    by_cases hc : c'.httpParser.state = .kExpectHttpComplete
    · obtain ⟨hr, hk, -⟩ := hphase.of_complete hc
      rw [if_pos (.inl hc), if_pos hc, hr, hk, Message.report]
    · rw [if_neg (not_or.2 ⟨hc, hne⟩), if_neg hc]
  refine ⟨c', hc', rfl, ⟨hphase, fun hc => ?_⟩, hreq'⟩
  rw [hreq', if_neg hc, h.requests (hback hc)]

/-- **One turn of the loop**: the phase goes on, and the message is reported whenever
it is complete. -/
theorem Serving.turn (h : Serving m A c) (hAT : A <+: m.bytes ++ T)
    (hguard : 1 < c.buf.bytes.length) :
    (toInt32 c.buf.bytes.length < 0 ∧ c.turn = .error .copyRange) ∨
      ∃ c', c.turn = .ok c' ∧ Serving m A c' ∧
        c'.requests = (if c'.httpParser.state = .kExpectHttpComplete then
          c.requests ++ [m.report] else c.requests) ∧
        (m.head.length ≤ A.length → c.httpParser.state ≠ .kExpectHttpComplete →
          c.buf.bytes.length < 2 ^ 31 → c'.buf.bytes.length < c.buf.bytes.length) := by
  have hne : c.buf.bytes ≠ [] := List.ne_nil_of_length_pos (by omega)
  have hphase := h.phase
  cases hp : h.phase with
  | headers hs hc =>
    right
    rcases lt_or_ge c.buf.bytes.length m.head.length with hlt | hge
    · -- the block is not complete: more bytes are asked for, or it is too long
      have hfind := m.find_terminator (A := c.buf.bytes)
        (show _ <+: m.head ++ (m.body ++ T) by rw [← List.append_assoc]; exact hAT)
      rw [if_neg (by omega)] at hfind
      rcases le_or_gt c.buf.bytes.length kHttpMaxBodySize with hle | hlong
      · have hparse := parse_headers_wait hs hne hle (.inr hfind)
        obtain ⟨c', hc', -, hs', hreq⟩ := h.of_parse hparse (.inr ⟨rfl, hs⟩) hphase fun h => h
        exact ⟨c', hc', hs', hreq, fun hle => by omega⟩
      · have hparse := parse_headers_long hs hlong hfind
        obtain ⟨c', hc', -, hs', hreq⟩ := h.of_parse hparse (.inl rfl)
          (.rejected rfl hlt hlong) fun _ => by rw [hs]; decide
        exact ⟨c', hc', hs', hreq, fun hle => by omega⟩
    -- the block is complete: it is taken out of the buffer
    · obtain ⟨p', hparse, hphase', -⟩ := parse_head hs hc hAT hge
      rw [← WfBuffer.bytes_retrieve] at hphase'
      obtain ⟨c', hc', hb, hs', hreq⟩ := h.of_parse hparse (.inl rfl) hphase'
        fun _ => by rw [hs]; decide
      refine ⟨c', hc', hs', hreq, fun _ _ _ => ?_⟩
      have h4 := m.length_head
      rw [hb, WfBuffer.bytes_retrieve, List.length_drop]
      omega
  | filling hf hs hcap hr hA =>
    rcases Phase.fill hf hs hcap hr hA hAT hne with ⟨hneg, hparse⟩ | ⟨n, p', hn, hparse, hphase', -⟩
    · left
      refine ⟨hneg, ?_⟩
      unfold HttpContext.turn
      rw [hparse]
      rfl
    · right
      rw [← WfBuffer.bytes_retrieve] at hphase'
      obtain ⟨c', hc', hb, hs', hreq⟩ := h.of_parse hparse (.inl rfl) hphase'
        fun _ => by rw [hs]; decide
      refine ⟨c', hc', hs', hreq, fun _ _ hlt => ?_⟩
      have hroom := hf.open'
      rw [hf.ok.taken_eq hlt] at hn
      rw [hb, WfBuffer.bytes_retrieve, List.length_drop]
      omega
  | complete hs _ _ _ =>
    right
    -- the loop reports the message again and takes no byte
    obtain ⟨c', hc', -, hs', hreq⟩ := h.of_parse (parse_stuck (.inl hs)) (.inl rfl) hphase
      fun h => h
    exact ⟨c', hc', hs', hreq, fun _ hns => absurd hs hns⟩
  | rejected hs hlt _ =>
    right
    obtain ⟨c', hc', -, hs', hreq⟩ := h.of_parse (parse_stuck (.inr (.inr (.inr hs)))) (.inl rfl)
      hphase fun h => h
    exact ⟨c', hc', hs', hreq, fun hle => by omega⟩

/-- The next read. -/
theorem Serving.recv (h : Serving m A c) (hguard : c.buf.bytes.length ≤ 1) (read : Bytes) :
    Serving m (A ++ read) (HttpContext.loop.recv c read) := by
  refine ⟨?_, h.requests⟩
  rw [HttpContext.loop, WfBuffer.bytes_append]
  refine h.phase.append read ?_
  intro hs
  have hk : 1 < kHttpMaxBodySize := by decide
  cases hp : h.phase with
  | headers hs' _ => rw [hs] at hs'; cases hs'
  | filling _ hs' _ _ _ => rw [hs] at hs'; cases hs'
  | complete hs' _ _ _ => rw [hs] at hs'; cases hs'
  | rejected _ _ hlong => omega

theorem Serving.start {b : WfBuffer} (hb : b.bytes = []) :
    Serving m [] { httpParser := {}, buf := b } :=
  ⟨hb ▸ .headers rfl rfl, fun _ => rfl⟩

/-! ## When the requests stay in order -/

variable {ms : List Message} {b : WfBuffer} {reads : List Bytes}

/-- A message is reported once if nothing follows it. -/
theorem inOrder_single (hb : b.bytes = []) (hreads : reads.flatten = m.bytes) :
    AlwaysInOrder [m] b reads := by
  intro c rest hr
  -- a complete parser has nothing left to parse
  have hlast : ∀ {A : Bytes} {c : HttpContext}, A <+: m.bytes → Serving m A c →
      c.httpParser.state = .kExpectHttpComplete → c.buf.bytes = [] := by
    intro A c hA hS hs
    obtain ⟨-, -, he⟩ := hS.phase.of_complete hs
    have := hA.length_le
    rw [he, List.length_append] at this
    exact List.eq_nil_of_length_eq_zero (by omega)
  obtain ⟨A, hA, hS, hreq⟩ := reaches_inv (L := HttpContext.loop)
    (fun c ps => ∃ A, A ++ ps.flatten = m.bytes ∧ Serving m A c ∧
      (c.httpParser.state = .kExpectHttpComplete → c.requests = [m.report]))
    (by
      rintro c ps c' ⟨A, hA, hS, -⟩ hg hc'
      have hguard := loop_guard.1 hg
      have hpre : A <+: m.bytes := ⟨_, hA⟩
      have hns : c.httpParser.state ≠ .kExpectHttpComplete := by
        intro hs
        rw [hlast hpre hS hs] at hguard
        cases hguard
      refine ⟨A, hA, ?_⟩
      rcases hS.turn (T := []) (by simpa using hpre) hguard with ⟨-, he⟩ | ⟨d, hd, hS', hreq, -⟩
      · rw [show c.turn = .ok c' from hc'] at he
        cases he
      · rw [show c.turn = .ok c' from hc'] at hd
        cases hd
        refine ⟨hS', fun hs => ?_⟩
        rw [hreq, if_pos hs, hS.requests hns]
        rfl)
    (by
      rintro c read ps ⟨A, hA, hS, hreq⟩ hg
      exact ⟨A ++ read, by rw [List.append_assoc, ← hA, List.flatten_cons],
        hS.recv (loop_guard_false.1 hg) read, hreq⟩)
    hr ⟨[], hreads, Serving.start hb, fun hs => by cases hs⟩
  by_cases hs : c.httpParser.state = .kExpectHttpComplete
  · refine ⟨by rw [hreq hs]; exact List.prefix_refl _, fun _ hne => ?_⟩
    exact absurd (hlast ⟨_, hA⟩ hS hs) hne
  · exact ⟨by rw [hS.requests hs]; exact List.nil_prefix, fun _ _ => hs⟩

/-- Nothing is reported on an empty stream. -/
theorem inOrder_nil (hb : b.bytes = []) (hreads : reads.flatten = []) :
    AlwaysInOrder [] b reads := by
  intro c rest hr
  obtain ⟨hreq, -, -⟩ := reaches_inv (L := HttpContext.loop)
    (fun c ps => c.requests = [] ∧ c.buf.bytes = [] ∧ ps.flatten = [])
    (by
      rintro c ps c' ⟨-, hb, -⟩ hg -
      have hguard := loop_guard.1 hg
      rw [hb] at hguard
      cases hguard)
    (by
      rintro c read ps ⟨hreq, hb, hps⟩ -
      rw [List.flatten_cons, List.append_eq_nil_iff] at hps
      refine ⟨hreq, ?_, hps.2⟩
      rw [HttpContext.loop, WfBuffer.bytes_append, hb, hps.1]
      rfl)
    hr ⟨rfl, hb, hreads⟩
  exact ⟨by rw [hreq]; exact List.nil_prefix, fun hne => absurd hreq hne⟩

/-- A loop that stalls in the first header block reports nothing. -/
theorem inOrder_of_stalls (hb : b.bytes = []) (hreads : reads.flatten = stream ms)
    (hstall : Stalls ms reads) : AlwaysInOrder ms b reads := by
  obtain ⟨m, hm, pre, hpre, h2, hlt⟩ := hstall
  obtain ⟨ms', rfl⟩ : ∃ ms', ms = m :: ms' := by
    cases ms with
    | nil => cases hm
    | cons m' ms' => cases hm; exact ⟨ms', rfl⟩
  have hstream : reads.flatten = m.bytes ++ stream ms' := hreads
  intro c rest hr
  obtain ⟨A, -, hS, hA, -⟩ := reaches_inv (L := HttpContext.loop)
    (fun c ps => ∃ A, A ++ ps.flatten = m.bytes ++ stream ms' ∧ Serving m A c ∧
      A.length < m.head.length ∧ (2 ≤ A.length ∨ ∃ pre, pre <+: ps ∧
        2 ≤ (A ++ pre.flatten).length ∧ (A ++ pre.flatten).length < m.head.length))
    (by
      rintro c ps c' ⟨A, hA, hS, hlt, hpre⟩ hg hc'
      refine ⟨A, hA, ?_, hlt, hpre⟩
      rcases hS.turn ⟨_, hA⟩ (loop_guard.1 hg) with ⟨-, he⟩ | ⟨d, hd, hS', -⟩
      · rw [show c.turn = .ok c' from hc'] at he
        cases he
      · rw [show c.turn = .ok c' from hc'] at hd
        cases hd
        exact hS')
    (by
      rintro c read ps ⟨A, hA, hS, hlt, hpre⟩ hg
      have hguard := loop_guard_false.1 hg
      -- the loop has been left, so not even two bytes are buffered
      have hAb : A = c.buf.bytes := by
        cases hp : hS.phase with
        | headers _ _ => rfl
        | rejected _ _ _ => rfl
        | filling _ _ _ _ he => rw [he, List.append_assoc, List.length_append] at hlt; omega
        | complete _ _ _ he =>
          rw [he, List.length_append, m.length_bytes] at hlt; omega
      obtain ⟨pre, ⟨more, hmore⟩, h2, hlt'⟩ := hpre.resolve_left (by rw [hAb]; omega)
      refine ⟨A ++ read, by rw [List.append_assoc, ← hA, List.flatten_cons],
        hS.recv hguard read, ?_⟩
      cases pre with
      | nil => rw [List.flatten_nil, List.append_nil, hAb] at h2; omega
      | cons read' pre =>
        rw [List.cons_append, List.cons.injEq] at hmore
        obtain ⟨rfl, hmore⟩ := hmore
        rw [List.flatten_cons, ← List.append_assoc] at h2 hlt'
        refine ⟨?_, .inr ⟨pre, ⟨more, hmore⟩, h2, hlt'⟩⟩
        rw [List.length_append] at hlt'
        omega)
    hr ⟨[], hstream, Serving.start hb, by rw [m.length_head, List.length_nil]; omega,
      .inr ⟨pre, hpre, h2, hlt⟩⟩
  have hns : c.httpParser.state ≠ .kExpectHttpComplete := by
    intro hs
    obtain ⟨-, -, he⟩ := hS.phase.of_complete hs
    rw [he, List.length_append, m.length_bytes] at hA
    omega
  exact ⟨by rw [hS.requests hns]; exact List.nil_prefix, fun _ _ => hns⟩

/-! ## When they do not -/

theorem Phase.length_le {p : HttpParser} {bs : Bytes} (h : Phase m A p bs) :
    bs.length ≤ A.length := by
  rcases h with _ | ⟨-, -, -, -, rfl⟩ | ⟨-, -, -, rfl⟩ | _
  · exact le_rfl
  · rw [List.length_append]; omega
  · rw [List.length_append]; omega
  · exact le_rfl

/-- Bytes of the next message are in the buffer, whatever the phase. -/
theorem Phase.two_le {p : HttpParser} {bs : Bytes} (h : Phase m A p bs)
    (hA : m.bytes.length + 2 ≤ A.length) : 2 ≤ bs.length := by
  rw [m.length_bytes] at hA
  rcases h with _ | ⟨hf, -, hcap, -, rfl⟩ | ⟨-, -, -, rfl⟩ | _
  · omega
  · have h1 := hf.ok.size_le
    rw [hcap, Packet.packetSize] at h1
    simp only [List.length_append] at hA
    omega
  · rw [List.length_append, m.length_bytes] at hA
    omega
  · omega

/-- Behind the first header block the loop goes on until it is left, or the message is
complete. -/
theorem Serving.leaves (hAT : A <+: m.bytes ++ T) (hA : 2 ≤ A.length → m.head.length ≤ A.length)
    (ps : List Bytes) {c : HttpContext} (h : Serving m A c) (hlt : c.buf.bytes.length < 2 ^ 31) :
    ∃ c', HttpContext.loop.Reaches (c, ps) (c', ps) ∧ Serving m A c' ∧
      (c'.buf.bytes.length ≤ 1 ∨ c'.httpParser.state = .kExpectHttpComplete) := by
  induction hn : c.buf.bytes.length using Nat.strong_induction_on generalizing c with
  | _ n ih =>
    by_cases hdone : c.buf.bytes.length ≤ 1 ∨ c.httpParser.state = .kExpectHttpComplete
    · exact ⟨c, .refl, h, hdone⟩
    rw [not_or, not_le] at hdone
    obtain ⟨hguard, hns⟩ := hdone
    have hle := h.phase.length_le
    rcases h.turn hAT hguard with ⟨hneg, -⟩ | ⟨d, hd, hS, -, hdec⟩
    · rw [toInt32_of_lt (by omega) (by omega)] at hneg
      omega
    · have hlt' := hdec (hA (by omega)) hns hlt
      obtain ⟨c', hr, hS', hc'⟩ := ih d.buf.bytes.length (by omega) hS (by omega) rfl
      exact ⟨c', .head (.turn (loop_guard.2 hguard) hd) hr, hS', hc'⟩

/-- If the reads do not stall, the first message gets complete with two bytes of the
next one in the buffer. -/
theorem Serving.reaches_complete (hT : 2 ≤ T.length) :
    ∀ (ps : List Bytes) (A : Bytes) (c : HttpContext), Serving m A c →
      A ++ ps.flatten = m.bytes ++ T → c.buf.bytes.length < 2 ^ 31 →
      (∀ r ∈ ps, r.length + 1 < 2 ^ 31) →
      (∀ pre, pre <+: ps → 2 ≤ (A ++ pre.flatten).length →
        m.head.length ≤ (A ++ pre.flatten).length) →
      ∃ c' ps' A', HttpContext.loop.Reaches (c, ps) (c', ps') ∧ Serving m A' c' ∧
        c'.httpParser.state = .kExpectHttpComplete ∧ 1 < c'.buf.bytes.length := by
  intro ps
  induction ps with
  | nil =>
    intro A c h hstream hlt _ hgo
    rw [List.flatten_nil, List.append_nil] at hstream
    have hA := hgo [] List.nil_prefix
    rw [List.flatten_nil, List.append_nil] at hA
    obtain ⟨c', hr, hS, hc'⟩ := h.leaves (T := T) ⟨[], by simpa using hstream⟩ hA [] hlt
    have h2 := hS.phase.two_le (by rw [hstream, List.length_append]; omega)
    exact ⟨c', [], A, hr, hS, hc'.resolve_left (by omega), h2⟩
  | cons read ps ih =>
    intro A c h hstream hlt hreads hgo
    have hA := hgo [] List.nil_prefix
    rw [List.flatten_nil, List.append_nil] at hA
    obtain ⟨c', hr, hS, hc'⟩ := h.leaves (T := T) ⟨_, hstream⟩ hA (read :: ps) hlt
    rcases le_or_gt c'.buf.bytes.length 1 with hle | hgt
    -- the loop is left, and the next read is appended
    · have hread := hreads read (List.mem_cons_self ..)
      have hbuf : (HttpContext.loop.recv c' read).buf.bytes = c'.buf.bytes ++ read := by
        rw [HttpContext.loop, WfBuffer.bytes_append]
      obtain ⟨d, ps', A', hr', hd⟩ := ih (A ++ read) _ (hS.recv hle read)
        (by rw [List.append_assoc, ← hstream, List.flatten_cons])
        (by rw [hbuf, List.length_append]; omega)
        (fun r hmem => hreads r (List.mem_cons_of_mem _ hmem))
        (by
          rintro pre ⟨more, hmore⟩
          have := hgo (read :: pre) ⟨more, by rw [List.cons_append, hmore]⟩
          rwa [List.flatten_cons, ← List.append_assoc] at this)
      exact ⟨d, ps', A', hr.trans (.head (.recv (loop_guard_false.2 hle)) hr'), hd⟩
    · exact ⟨c', read :: ps, A, hr, hS, hc'.resolve_left (by omega), hgt⟩

/-- A complete message is reported any number of times while two bytes are buffered. -/
theorem reports_again (hs : c.httpParser.state = .kExpectHttpComplete)
    (hguard : 1 < c.buf.bytes.length) (ps : List Bytes) (n : ℕ) :
    ∃ c', HttpContext.loop.Reaches (c, ps) (c', ps) ∧ n ≤ c'.requests.length := by
  suffices h : ∃ c', HttpContext.loop.Reaches (c, ps) (c', ps) ∧ n ≤ c'.requests.length ∧
      c'.httpParser = c.httpParser ∧ c'.buf = c.buf by
    obtain ⟨c', hr, hn, -⟩ := h
    exact ⟨c', hr, hn⟩
  induction n with
  | zero => exact ⟨c, .refl, Nat.zero_le _, rfl, rfl⟩
  | succ n ih =>
    obtain ⟨c', hr, hn, hp, hb⟩ := ih
    rw [← hp] at hs
    rw [← hb] at hguard
    obtain ⟨d, hd, hp', hb', hreq⟩ := turn_of_parse (parse_stuck (b := c'.buf) (.inl hs)) (.inl rfl)
    refine ⟨d, hr.tail (.turn (loop_guard.2 hguard) hd), ?_, hp'.trans hp, hb'.trans hb⟩
    rw [hreq, if_pos (.inl hs), List.length_append, List.length_singleton]
    omega

/-- **Requests on one connection stay in order exactly where there is no second one,
or no first.** They do when the stream holds at most one message or the loop stalls in
the first header block. If every read is short enough for a `readv`, they do only
then: otherwise the first message is reported without end. -/
theorem pipeline_inOrder_iff {ms : List Message} (hb : b.bytes = [])
    (hreads : reads.flatten = stream ms) :
    (ms.length ≤ 1 ∨ Stalls ms reads → AlwaysInOrder ms b reads) ∧
      ((∀ read ∈ reads, read.length + 1 < 2 ^ 31) → AlwaysInOrder ms b reads →
        ms.length ≤ 1 ∨ Stalls ms reads) := by
  constructor
  · rintro (hle | hstall)
    · rcases ms with _ | ⟨m, _ | ⟨m', ms⟩⟩
      · exact inOrder_nil hb hreads
      · exact inOrder_single hb (by simpa [stream] using hreads)
      · simp at hle
    · exact inOrder_of_stalls hb hreads hstall
  · intro hshort hinOrder
    by_contra hno
    rw [not_or, not_le] at hno
    obtain ⟨hlen, hstall⟩ := hno
    rcases ms with _ | ⟨m, _ | ⟨m', ms⟩⟩
    · simp at hlen
    · simp at hlen
    have hstream : reads.flatten = m.bytes ++ stream (m' :: ms) := hreads
    have h2 : 2 ≤ (stream (m' :: ms)).length := by
      rw [stream, List.map_cons, List.flatten_cons, List.length_append, m'.length_bytes,
        m'.length_head]
      omega
    obtain ⟨c, ps, A, hr, hS, hs, hguard⟩ := Serving.reaches_complete h2 reads [] _
      (Serving.start hb) hstream (by show b.bytes.length < _; rw [hb]; decide) hshort
      (by
        intro pre hpre h2
        by_contra hlt
        exact hstall ⟨m, rfl, pre, hpre, by simpa using h2, by simpa using hlt⟩)
    obtain ⟨d, hr', hn⟩ := reports_again hs hguard ps ((m :: m' :: ms).length + 1)
    have := (hinOrder d ps (hr.trans hr')).reported.length_le
    rw [List.length_map] at this
    omega

theorem lengthBlock_put : LengthBlock (ascii "PUT /b HTTP/1.1\r\ncontent-length:2") 2 where
  terminator := by decide +kernel
  startLine := ⟨ascii "PUT /b HTTP/1.1", [ascii "content-length:2"],
    by decide +kernel, by decide +kernel⟩
  stored := by decide +kernel
  length_lt := by decide

def postMessage : Message := .of (ascii "abc") lengthBlock_post

def putMessage : Message := .of (ascii "de") lengthBlock_put

/-- Two requests in one read: the first is reported three times before anything else. -/
theorem pipeline_repeats : ¬ AlwaysInOrder [postMessage, putMessage] (.new 1024 (by decide))
    [stream [postMessage, putMessage]] := by
  intro h
  have hcount : (HttpContext.loop.after 5 ({ httpParser := {}, buf := .new 1024 (by decide) },
      [stream [postMessage, putMessage]])).map (fun a => a.1.requests.length) = some 3 := by
    decide +kernel
  obtain ⟨⟨c, rest⟩, hc, h3⟩ := Option.map_eq_some_iff.1 hcount
  have hle := (h c rest (reaches_of_after hc)).reported.length_le
  simp only [List.length_map, List.length_cons, List.length_nil] at hle h3
  omega

/-- One request whose body arrives in two reads is reported once. -/
theorem pipeline_inOrder_post : AlwaysInOrder [postMessage] (.new 1024 (by decide))
    [postMessage.head ++ ascii "ab", ascii "c"] := by
  refine (pipeline_inOrder_iff (WfBuffer.bytes_new 1024 (by decide)) ?_).1 (.inl ?_)
  · decide +kernel
  · decide

end HttpNest
