import HttpNest.Proof.ParserStep
import HttpNest.Spec.HttpContext

/-!
# One message with a content length

`Phase m A p bs` relates a parser `p` and the bytes `bs` in its buffer to the bytes
`A` of the message appended so far: still in the header block, filling the body,
complete, or rejected for a header block over the limit. The step lemmas say what a
call does in each phase, for buffers of any length; `contentLength_complete` follows
a caller that stops where `Parse` asks for more.
-/

namespace HttpNest

open CNumeral ListSearch HttpParser

/-- A message: its header block without the terminator, the request the block
describes, and its body. -/
structure Message where
  block : Bytes
  request : HttpRequest
  body : Bytes
  lengthBlock : LengthBlock block body.length
  blockRequest_eq : blockRequest block = some request

namespace Message

/-- The message of a block and a body of the length it announces. -/
def of {block : Bytes} (body : Bytes) (h : LengthBlock block body.length) : Message where
  block := block
  request := (blockRequest block).get (by
    obtain ⟨r, hr, -⟩ := h.blockRequest_eq
    rw [hr]; rfl)
  body := body
  lengthBlock := h
  blockRequest_eq := by simp

variable (m : Message)

/-- The header block with its terminator. -/
def head : Bytes := m.block ++ CRLFCRLF

def bytes : Bytes := m.head ++ m.body

/-- What `Chunk()` is when the message is complete. -/
def chunk : Option Packet := if m.body = [] then none else some ⟨m.body.length, m.body⟩

theorem length_head : m.head.length = m.block.length + 4 := by
  rw [head, List.length_append]; rfl

variable {m} {A : Bytes}

/-- The terminator is seen as soon as it is there. -/
theorem find_terminator {rest : Bytes} (hA : A <+: m.head ++ rest) :
    find CRLFCRLF A = if m.head.length ≤ A.length then some m.block.length else none := by
  exact find_terminator_front m.lengthBlock.terminator hA

end Message

/-- Where a parser and its buffer are in the message, of which `A` has arrived. -/
inductive Phase (m : Message) (A : Bytes) : HttpParser → Bytes → Prop
  | headers {p : HttpParser} : p.state = .kExpectHeaders → p.chunk = none → Phase m A p A
  | filling {p : HttpParser} {bs : Bytes} : p.Filling → p.state = .kExpectNormalBody →
    p.packet.capacity = m.body.length → p.req = some m.request →
    A = m.head ++ p.packet.data ++ bs → Phase m A p bs
  | complete {p : HttpParser} {bs : Bytes} : p.state = .kExpectHttpComplete →
    p.req = some m.request → p.chunk = m.chunk → A = m.bytes ++ bs → Phase m A p bs
  | rejected {p : HttpParser} : p.state = .kExpectError → A.length < m.head.length →
    kHttpMaxBodySize < A.length → Phase m A p A

variable {m : Message} {A T : Bytes} {p : HttpParser} {b : WfBuffer}

/-- More bytes of the message do not change the phase. -/
theorem Phase.append {bs : Bytes} (h : Phase m A p bs) (piece : Bytes)
    (hrej : p.state ≠ .kExpectError) : Phase m (A ++ piece) p (bs ++ piece) := by
  cases h with
  | headers hs hc => exact .headers hs hc
  | filling hf hs hcap hr hA => exact .filling hf hs hcap hr (by rw [hA, List.append_assoc])
  | complete hs hr hc hA => exact .complete hs hr hc (by rw [hA, List.append_assoc])
  | rejected hs _ _ => exact absurd hs hrej

theorem Phase.of_complete {bs : Bytes} (h : Phase m A p bs) (hs : p.state = .kExpectHttpComplete) :
    p.req = some m.request ∧ p.chunk = m.chunk ∧ A = m.bytes ++ bs := by
  cases h with
  | headers hs' _ => rw [hs] at hs'; cases hs'
  | filling _ hs' _ _ _ => rw [hs] at hs'; cases hs'
  | complete _ hr hc hA => exact ⟨hr, hc, hA⟩
  | rejected hs' _ _ => rw [hs] at hs'; cases hs'

/-- The parser behind a complete header block. -/
theorem parse_head (hs : p.state = .kExpectHeaders) (hc : p.chunk = none)
    (hA : b.bytes <+: m.bytes ++ T) (hle : m.head.length ≤ b.bytes.length) :
    ∃ p', parse p b = .ok (p'.state, p', b.retrieve m.head.length) ∧
      Phase m b.bytes p' (b.bytes.drop m.head.length) ∧ p'.state ≠ .kExpectError ∧
      p'.state ≠ .kExpectContinue ∧ p'.state ≠ .kExpectHeaders ∧
      (p'.state = .kExpectHttpComplete ↔ m.body = []) := by
  rw [Message.bytes, List.append_assoc] at hA
  have hA' := eq_append_drop hA hle
  have hparse := parse_block hs m.lengthBlock.terminator m.blockRequest_eq hA hle
  rw [m.lengthBlock.framed_eq m.blockRequest_eq] at hparse
  set p₁ : HttpParser := { p with
    header := m.block, isRequest := m.request.isRequest, req := some m.request
    curContentLength := m.body.length
    state := if m.body.length = 0 then .kExpectHttpComplete else .kExpectNormalBody } with hp₁
  refine ⟨p₁, hparse, ?_, ?_⟩
  · by_cases hN : m.body = []
    · exact .complete (by simp [hp₁, hN]) rfl (by simp [hp₁, hc, Message.chunk, hN])
        (by rw [Message.bytes, hN, List.append_nil]; exact hA')
    · have hlen : m.body.length ≠ 0 := by simpa using hN
      have hstate : p₁.state = .kExpectNormalBody := if_neg hlen
      have hcap : p₁.bodyCapacity = m.body.length := by rw [bodyCapacity, hstate]
      have hpk : p₁.packet = ⟨m.body.length, []⟩ := by
        rw [packet, hcap, show p₁.chunk = none from hc]; rfl
      have hroom : p₁.packet.room = m.body.length := by
        rw [hpk]; simp [Packet.room, Packet.packetSize]
      have hlt := m.lengthBlock.length_lt
      refine .filling ⟨.inl hstate, ?_, by omega, fun _ => by rw [hroom], ?_⟩ hstate
        (by rw [hpk]) rfl (by rw [hpk, List.append_nil]; exact hA')
      · rw [hpk]
        exact ⟨by simp [Packet.packetSize], by simp only; omega⟩
      · intro hch
        rw [hstate] at hch
        cases hch
  · by_cases hN : m.body = []
    · simp [hp₁, hN]
    · have hlen : m.body.length ≠ 0 := by simpa using hN
      simp [hp₁, hN]

/-- One call while the body is filling: the packet takes `n` bytes, and the message
is complete when they are the last. -/
theorem Phase.fill (hf : p.Filling) (hs : p.state = .kExpectNormalBody)
    (hcap : p.packet.capacity = m.body.length) (hr : p.req = some m.request)
    (hA : A = m.head ++ p.packet.data ++ b.bytes) (hAT : A <+: m.bytes ++ T)
    (hb : b.bytes ≠ []) :
    (toInt32 b.bytes.length < 0 ∧ parse p b = .error .copyRange) ∨
      ∃ n p', n = p.packet.taken b.bytes ∧ parse p b = .ok (p'.state, p', b.retrieve n) ∧
        Phase m A p' (b.bytes.drop n) ∧
        p'.state = (if n = p.packet.room then .kExpectHttpComplete else .kExpectNormalBody) := by
  have hparse := parse_body hf hb
  split_ifs at hparse with hneg
  · exact .inl ⟨hneg, hparse⟩
  set n := p.packet.taken b.bytes with hn
  have hlen : (b.bytes.take n).length = n := p.packet.length_take_taken b.bytes
  have hle : n ≤ p.packet.room := hf.ok.taken_le_room _
  have hdata : A = m.head ++ (p.packet.push (b.bytes.take n)).data ++ b.bytes.drop n := by
    rw [Packet.push, hA]
    simp [List.append_assoc]
  have hroom : p.packet.room + p.packet.data.length = m.body.length := by
    have hadd := hf.ok.room_add
    omega
  refine .inr ⟨n, p.advance (b.bytes.take n), rfl, hparse, ?_, ?_⟩
  · by_cases hfull : n = p.packet.room
    · -- the packet holds as many bytes as the body has, and they are the body's
      have hbody : (p.packet.push (b.bytes.take n)).data = m.body := by
        have hpre : (p.packet.push (b.bytes.take n)).data <+: m.body ++ T := by
          rw [hdata, Message.bytes, List.append_assoc, List.append_assoc] at hAT
          exact (List.prefix_append _ _).trans ((List.prefix_append_right_inj _).1 hAT)
        refine (List.prefix_of_prefix_length_le hpre (List.prefix_append _ _) ?_).eq_of_length ?_
        all_goals
          simp only [Packet.push, List.length_append, hlen]
          omega
      have hne : m.body ≠ [] := by
        have := hf.open'
        intro h0
        rw [h0] at hroom
        simp at hroom
        omega
      refine .complete ?_ hr ?_ (by rw [Message.bytes, ← hbody]; exact hdata)
      · rw [advance_state, hlen, if_pos hfull, hs]; rfl
      · rw [advance_chunk, Message.chunk, if_neg hne, ← hbody]
        congr 1
        show (⟨p.packet.capacity, _⟩ : Packet) = _
        rw [hcap, ← hbody]
        rfl
    · obtain ⟨hf', hs'⟩ := hf.advance (b.bytes.take n) (by rw [hlen]; omega)
      exact .filling hf' (hs'.trans hs) hcap hr hdata
  · rw [advance_state, hlen, hs]; rfl

/-! ## A caller that waits for the message -/

/-- The last call of a round is the one that completes the message, if any is. -/
def Round (m : Message) (A : Bytes) (calls : List HttpParserState) : Prop :=
  if m.bytes.length ≤ A.length then
    ∃ cs, calls = cs ++ [.kExpectHttpComplete] ∧ .kExpectHttpComplete ∉ cs
  else .kExpectHttpComplete ∉ calls

/-- The invariant of the caller, `A` being what it has appended so far. -/
structure Waiting (m : Message) (A : Bytes) (r : Reader) : Prop where
  phase : Phase m A r.parser r.buf.bytes
  accepted : r.parser.state ≠ .kExpectError
  calling : r.running = true → .kExpectHttpComplete ∉ r.calls
  waiting : r.running = false → Round m A r.calls
  arrived : r.running = false →
    (r.parser.state = .kExpectHttpComplete ↔ m.bytes.length ≤ A.length)

theorem Message.length_bytes (m : Message) : m.bytes.length = m.head.length + m.body.length :=
  List.length_append

/-- The phase tells whether the message has arrived. -/
theorem Phase.state_eq (h : Phase m A p b.bytes)
    (hempty : b.bytes = [] ∨ p.state ≠ .kExpectNormalBody)
    (hheaders : p.state = .kExpectHeaders → A.length < m.head.length) :
    p.state = .kExpectHttpComplete ↔ m.bytes.length ≤ A.length := by
  rw [m.length_bytes]
  cases h with
  | headers hs hc =>
    have := hheaders hs
    simp only [hs, reduceCtorEq, false_iff, not_le]
    omega
  | filling hf hs hcap hr hA =>
    rcases hempty with he | hne
    · have h1 := hf.open'
      have h2 := hf.ok.room_add
      have h3 := congrArg List.length hA
      rw [he, List.append_nil, List.length_append] at h3
      simp only [hs, reduceCtorEq, false_iff, not_le]
      omega
    · exact absurd hs hne
  | complete hs hr hc hA =>
    have h3 := congrArg List.length hA
    rw [List.length_append, m.length_bytes] at h3
    simp only [hs, true_iff]
    omega
  | rejected hs hlt _ =>
    simp only [hs, reduceCtorEq, false_iff, not_le]
    omega

/-- Rounds left before the caller stops. -/
def Reader.rank (r : Reader) : ℕ :=
  if r.running then if r.parser.state = .kExpectHeaders then 2 else 1 else 0

/-- A call that stops the caller, or leaves the header block. -/
theorem Waiting.of_call {r : Reader} (h : Waiting m A r) (hrun : r.running = true)
    {s : HttpParserState} {p' : HttpParser} {b' : WfBuffer}
    (hparse : parse r.parser r.buf = .ok (s, p', b')) (hphase : Phase m A p' b'.bytes)
    (hacc : p'.state ≠ .kExpectError)
    (hs : s = .kExpectHttpComplete ↔ p'.state = .kExpectHttpComplete)
    (hstop : s = .kExpectContinue ∨ s = .kExpectHttpComplete ∨ b'.bytes = [] →
      (p'.state = .kExpectHttpComplete ↔ m.bytes.length ≤ A.length))
    (hgo : ¬ (s = .kExpectContinue ∨ s = .kExpectHttpComplete ∨ b'.bytes = []) →
      r.parser.state = .kExpectHeaders ∧ p'.state ≠ .kExpectHeaders) :
    ∃ r', reader.body r = .ok r' ∧ Waiting m A r' ∧ r'.rank < r.rank := by
  have hcalls := h.calling hrun
  have hbody : reader.body r = .ok {
      parser := p', buf := b', calls := r.calls ++ [s]
      running := ¬ (s = .kExpectContinue ∨ s = .kExpectHttpComplete ∨ b'.bytes = []) } := by
    simp [reader, hparse, bind, Except.bind]
  refine ⟨_, hbody, ⟨hphase, hacc, ?_, ?_, ?_⟩, ?_⟩
  · intro hr
    simp only [decide_eq_true_eq, not_or] at hr
    simpa [hcalls] using fun he => hr.2.1 he.symm
  · intro hr
    simp only [decide_eq_false_iff_not, not_not] at hr
    have hiff := hs.trans (hstop hr)
    unfold Round
    split_ifs with hA
    · exact ⟨r.calls, by rw [hiff.2 hA], hcalls⟩
    · simpa [hcalls] using fun he => hA (hiff.1 he.symm)
  · intro hr
    simp only [decide_eq_false_iff_not, not_not] at hr
    exact hstop hr
  · by_cases hc : s = .kExpectContinue ∨ s = .kExpectHttpComplete ∨ b'.bytes = []
    · have h0 : 0 < r.rank := by
        unfold Reader.rank
        rw [if_pos hrun]
        split <;> omega
      simpa [Reader.rank, hc] using h0
    · obtain ⟨h2, h1⟩ := hgo hc
      simp [Reader.rank, hc, hrun, h1, h2]

/-- **One call of the caller.** -/
theorem Waiting.turn {r : Reader} (h : Waiting m A r) (hrun : r.running = true)
    (hsmall : m.head.length ≤ kHttpMaxBodySize) (hAT : A <+: m.bytes ++ T)
    (hlen : A.length < 2 ^ 31) :
    ∃ r', reader.body r = .ok r' ∧ Waiting m A r' ∧ r'.rank < r.rank := by
  by_cases hempty : r.buf.bytes = []
  · -- an empty piece was appended
    refine h.of_call hrun (parse_empty hempty) h.phase h.accepted .rfl (fun _ => ?_)
      (fun hc => absurd (.inr (.inr hempty)) hc)
    refine h.phase.state_eq (.inl hempty) fun hs => ?_
    have h4 := m.length_head
    cases hp : h.phase with
    | headers _ _ => rw [hempty]; simp only [List.length_nil]; omega
    | filling _ hs' _ _ _ => rw [hs] at hs'; cases hs'
    | complete hs' _ _ _ => rw [hs] at hs'; cases hs'
    | rejected hs' _ _ => rw [hs] at hs'; cases hs'
  have hphase := h.phase
  cases hp : h.phase with
  | headers hs hc =>
    rcases lt_or_ge r.buf.bytes.length m.head.length with hlt | hge
    · have hfind := m.find_terminator (A := r.buf.bytes)
        (show _ <+: m.head ++ (m.body ++ T) by rw [← List.append_assoc]; exact hAT)
      rw [if_neg (by omega)] at hfind
      have hparse := parse_headers_wait hs hempty (by omega) (.inr hfind)
      refine h.of_call hrun hparse hphase h.accepted (by rw [hs]; decide) (fun _ => ?_)
        (fun hc => absurd (.inl rfl) hc)
      exact hphase.state_eq (.inr (by rw [hs]; decide)) fun _ => hlt
    · obtain ⟨p', hparse, hphase', hne, hnc, hns, -⟩ := parse_head hs hc hAT hge
      rw [← WfBuffer.bytes_retrieve] at hphase'
      refine h.of_call hrun hparse hphase' hne .rfl (fun hc => ?_) (fun _ => ⟨hs, hns⟩)
      refine hphase'.state_eq ?_ fun hs' => absurd hs' hns
      rcases hc with hc | hc | hc
      · exact absurd hc hnc
      · exact .inr (by rw [hc]; decide)
      · exact .inl hc
  | filling hf hs hcap hr hA =>
    have hle : r.buf.bytes.length ≤ A.length := by
      rw [hA, List.length_append]; omega
    have hlt : r.buf.bytes.length < 2 ^ 31 := by omega
    rcases Phase.fill hf hs hcap hr hA hAT hempty with ⟨hneg, -⟩ | ⟨n, p', hn, hparse, hphase', hs'⟩
    · rw [toInt32_of_lt (by omega) (by omega)] at hneg
      omega
    rw [hf.ok.taken_eq hlt] at hn
    rw [← WfBuffer.bytes_retrieve] at hphase'
    have hacc : p'.state ≠ .kExpectError := by rw [hs']; split_ifs <;> decide
    have hns : p'.state ≠ .kExpectHeaders := by rw [hs']; split_ifs <;> decide
    -- either the body is full or the buffer is used up
    have hstop : p'.state = .kExpectHttpComplete ∨ (r.buf.retrieve n).bytes = [] := by
      by_cases hfull : n = r.parser.packet.room
      · exact .inl (by rw [hs', if_pos hfull])
      · exact .inr (by rw [WfBuffer.bytes_retrieve]; exact List.drop_eq_nil_of_le (by omega))
    refine h.of_call hrun hparse hphase' hacc .rfl (fun _ => ?_) (fun hc => absurd (.inr hstop) hc)
    refine hphase'.state_eq ?_ fun hs' => absurd hs' hns
    rcases hstop with hc | hc
    · exact .inr (by rw [hc]; decide)
    · exact .inl hc
  | complete hs hr hc hA =>
    refine h.of_call hrun (parse_stuck (.inl hs)) hphase h.accepted .rfl (fun _ => ?_)
      (fun hc => absurd (.inr (.inl hs)) hc)
    exact hphase.state_eq (.inr (by rw [hs]; decide)) fun hs' => by rw [hs] at hs'; cases hs'
  | rejected hs _ _ => exact absurd hs h.accepted

/-- The next piece. -/
theorem Waiting.recv {r : Reader} (h : Waiting m A r) (piece : Bytes) :
    Waiting m (A ++ piece) (reader.recv r piece) := by
  refine ⟨?_, h.accepted, fun _ => List.not_mem_nil, fun hr => (by cases hr),
    fun hr => (by cases hr)⟩
  rw [reader, WfBuffer.bytes_append]
  exact h.phase.append piece h.accepted

theorem Waiting.start (hs : p.state = .kExpectHeaders) (hc : p.chunk = none)
    (hb : b.bytes = []) : Waiting m [] { parser := p, buf := b } := by
  have h4 := m.length_head
  have h0 : ¬ m.bytes.length ≤ ([] : Bytes).length := by
    rw [m.length_bytes, List.length_nil]; omega
  refine ⟨hb ▸ .headers hs hc, by rw [hs]; decide, fun hr => (by cases hr), fun _ => ?_,
    fun _ => ?_⟩
  · rw [Round, if_neg h0]
    exact List.not_mem_nil
  · simp only [hs, reduceCtorEq, false_iff]
    exact h0

/-- The caller of `pieces` stops after them, in a state that its invariant describes. -/
theorem Waiting.completes {pieces : List Bytes} (hsmall : m.head.length ≤ kHttpMaxBodySize)
    (hstream : pieces.flatten <+: m.bytes ++ T) (hlen : pieces.flatten.length < 2 ^ 31)
    {r : Reader} (h : Waiting m [] r) :
    ∃ t, reader.Completes r pieces t ∧ Waiting m pieces.flatten t := by
  obtain ⟨t, ht, A, hA, hw⟩ := FeedLoop.completes_of_measure (L := reader)
    (fun r ps => ∃ A, A ++ ps.flatten = pieces.flatten ∧ Waiting m A r) Reader.rank
    (by
      rintro r ps ⟨A, hA, hw⟩ hrun
      have hpre : A <+: pieces.flatten := ⟨ps.flatten, hA⟩
      obtain ⟨r', hr', hw', hlt⟩ := hw.turn hrun hsmall (hpre.trans hstream)
        (lt_of_le_of_lt hpre.length_le hlen)
      exact ⟨r', hr', ⟨A, hA, hw'⟩, hlt⟩)
    (by
      rintro r piece ps ⟨A, hA, hw⟩ -
      exact ⟨A ++ piece, by rw [List.append_assoc, ← hA, List.flatten_cons], hw.recv piece⟩)
    pieces r ⟨[], rfl, h⟩
  rw [List.flatten_nil, List.append_nil] at hA
  exact ⟨t, ht, hA ▸ hw⟩

/-- **A message with a content length is returned complete on the call that sees its
last body byte.** Whatever pieces the bytes arrive in, after each piece the caller
stops; `kExpectHttpComplete` is what its last call returned if the whole message has
arrived, and was not returned otherwise; then `Chunk()` holds the body and the buffer
what follows the message. -/
theorem contentLength_complete {block body T : Bytes} {N : ℕ} (hblock : LengthBlock block N)
    (hN : 1 ≤ N) (hbody : body.length = N)
    (hsmall : (block ++ CRLFCRLF).length ≤ kHttpMaxBodySize)
    (htotal : (block ++ CRLFCRLF ++ body ++ T).length < 2 ^ 31)
    (hp : p = {} ∨ ∃ q : HttpParser, p = q.clearForNextHttp) (hb : b.bytes = [])
    {pieces : List Bytes} (hpieces : pieces.flatten = block ++ CRLFCRLF ++ body ++ T)
    {pre : List Bytes} (hpre : pre <+: pieces) :
    ∃ t, reader.Completes { parser := p, buf := b } pre t ∧
      if (block ++ CRLFCRLF).length + N ≤ pre.flatten.length then
        (∃ cs, t.calls = cs ++ [.kExpectHttpComplete] ∧ .kExpectHttpComplete ∉ cs) ∧
          t.parser.chunk = some ⟨N, body⟩ ∧
          t.buf.bytes = pre.flatten.drop ((block ++ CRLFCRLF).length + N)
      else .kExpectHttpComplete ∉ t.calls := by
  subst hbody
  obtain ⟨req, hreq, -⟩ := hblock.blockRequest_eq
  set m : Message := ⟨block, req, body, hblock, hreq⟩
  have hlen : (block ++ CRLFCRLF).length + body.length = m.bytes.length := m.length_bytes.symm
  have hstart : p.state = .kExpectHeaders ∧ p.chunk = none := by
    rcases hp with rfl | ⟨q, rfl⟩ <;> exact ⟨rfl, rfl⟩
  obtain ⟨rest, rfl⟩ := hpre
  have hstream : pre.flatten <+: m.bytes ++ T :=
    ⟨rest.flatten, by rw [← List.flatten_append]; exact hpieces⟩
  obtain ⟨t, ht, hw⟩ := (Waiting.start hstart.1 hstart.2 hb).completes (m := m) hsmall hstream
    (lt_of_le_of_lt hstream.length_le htotal)
  refine ⟨t, ht, ?_⟩
  have hround := hw.waiting ht.2
  rw [Round] at hround
  rw [hlen]
  split_ifs at hround ⊢ with hle
  · obtain ⟨-, hc, hA⟩ := hw.phase.of_complete ((hw.arrived ht.2).2 hle)
    have hne : body ≠ [] := by intro h0; rw [h0] at hN; cases hN
    exact ⟨hround, by rw [hc, Message.chunk, if_neg hne], by rw [hA, List.drop_left]⟩
  · exact hround

theorem lengthBlock_post : LengthBlock (ascii "POST /a HTTP/1.1\r\nContent-Length: 3") 3 where
  terminator := by decide +kernel
  startLine := ⟨ascii "POST /a HTTP/1.1", [ascii "Content-Length: 3"],
    by decide +kernel, by decide +kernel⟩
  stored := by decide +kernel
  length_lt := by decide

/-- The terminator and the body are each cut in two, and the next message has begun. -/
theorem contentLength_complete_post :
    ∃ t, reader.Completes { parser := {}, buf := .new 1024 (by decide) }
        [ascii "POST /a HTTP/1.1\r\nContent-Length: 3\r\n\r", ascii "\nab", ascii "cGE"] t ∧
      t.parser.chunk = some ⟨3, ascii "abc"⟩ ∧ t.buf.bytes = ascii "GE" := by
  have hbody : (ascii "abc").length = 3 := by decide +kernel
  have hpieces : [ascii "POST /a HTTP/1.1\r\nContent-Length: 3\r\n\r", ascii "\nab",
      ascii "cGE"].flatten = ascii "POST /a HTTP/1.1\r\nContent-Length: 3" ++ CRLFCRLF ++
        ascii "abc" ++ ascii "GE" := by decide +kernel
  obtain ⟨t, ht, hlast⟩ := contentLength_complete lengthBlock_post (by decide) hbody
    (by decide +kernel) (by decide +kernel) (.inl rfl)
    (WfBuffer.bytes_new 1024 (by decide)) hpieces (List.prefix_refl _)
  rw [if_pos (by decide +kernel)] at hlast
  exact ⟨t, ht, hlast.2.1, hlast.2.2.trans (by decide +kernel)⟩

end HttpNest
