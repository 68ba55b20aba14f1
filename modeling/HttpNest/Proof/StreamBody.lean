import HttpNest.Proof.ParserStep
import HttpNest.Spec.HttpContext

/-!
# One message without a length

A header block that announces no length sends the parser of a request with a body to
`kExpectStreamBody`: it fills packets of `kHttpMaxBodySize` bytes, and only a full one is
complete. `StreamPhase h A p bs` relates a parser `p` and the bytes `bs` in its buffer to the
bytes `A` that have arrived, and `StreamPhase.call` is what one call does, for buffers of any
length.

For a caller that stops at the first chunk: what it takes for complete has
`kHttpMaxBodySize` bytes (`chunk_of_completes`), a body of that size is complete in any
pieces if its header block is not over the limit (`stream_completes`), and a longer one is
rejected in the wrong pieces (`rejected_of_long`).
-/

namespace HttpNest

open CNumeral ListSearch HttpParser

/-- A header block after which the body has no end. -/
structure StreamHead where
  block : Bytes
  request : HttpRequest
  terminator : find CRLFCRLF (block ++ CRLFCRLF) = some block.length
  blockRequest_eq : blockRequest block = some request
  framing_eq : request.framing = .stream

namespace StreamHead

variable (h : StreamHead)

/-- The header block with its terminator. -/
def bytes : Bytes := h.block ++ CRLFCRLF

theorem length_bytes : h.bytes.length = h.block.length + 4 := List.length_append

/-- The terminator is seen as soon as it is there. -/
theorem find_terminator {A rest : Bytes} (hA : A <+: h.bytes ++ rest) :
    find CRLFCRLF A = if h.bytes.length ≤ A.length then some h.block.length else none := by
  exact find_terminator_front h.terminator hA

end StreamHead

/-- Where a parser and its buffer are, `A` having arrived. -/
inductive StreamPhase (h : StreamHead) (A : Bytes) : HttpParser → Bytes → Prop
  | headers {p : HttpParser} : p.state = .kExpectHeaders → p.chunk = none → StreamPhase h A p A
  | filling {p : HttpParser} {bs : Bytes} : p.Filling → p.state = .kExpectStreamBody →
    p.packet.capacity = kHttpMaxBodySize → A = h.bytes ++ p.packet.data ++ bs →
    StreamPhase h A p bs
  | full {p : HttpParser} {bs data : Bytes} : p.state = .kExpectChunkComplete →
    p.chunk = some ⟨kHttpMaxBodySize, data⟩ → data.length = kHttpMaxBodySize →
    A = h.bytes ++ data ++ bs → StreamPhase h A p bs
  | rejected {p : HttpParser} {bs : Bytes} : p.state = .kExpectError → StreamPhase h A p bs

/-- Nothing is left to do before more bytes arrive. -/
def Settled (h : StreamHead) (A : Bytes) (p : HttpParser) (bs : Bytes) : Prop :=
  (p.state = .kExpectHeaders → A.length < h.bytes.length) ∧
    (p.state = .kExpectStreamBody → bs = [])

variable {h : StreamHead} {A T : Bytes} {p p' : HttpParser} {b b' : WfBuffer}
  {s : HttpParserState}

/-- In the header block nothing has been taken from the buffer. -/
theorem StreamPhase.of_headers {bs : Bytes} (hp : StreamPhase h A p bs)
    (hs : p.state = .kExpectHeaders) : bs = A := by
  cases hp with
  | headers _ _ => rfl
  | filling _ hs' _ _ => rw [hs] at hs'; cases hs'
  | full hs' _ _ _ => rw [hs] at hs'; cases hs'
  | rejected hs' => rw [hs] at hs'; cases hs'

theorem StreamPhase.append {bs : Bytes} (hp : StreamPhase h A p bs) (piece : Bytes) :
    StreamPhase h (A ++ piece) p (bs ++ piece) := by
  cases hp with
  | headers hs hc => exact .headers hs hc
  | filling hf hs hcap hA => exact .filling hf hs hcap (by rw [hA, List.append_assoc])
  | full hs hc hlen hA => exact .full hs hc hlen (by rw [hA, List.append_assoc])
  | rejected hs => exact .rejected hs

/-- The caller stops at this return value. -/
def Stops (s : HttpParserState) (b' : WfBuffer) : Prop :=
  s = .kExpectHttpComplete ∨ s = .kExpectChunkComplete ∨ s = .kExpectContinue ∨
    s = .kExpectError ∨ b'.bytes = []

instance (s : HttpParserState) (b' : WfBuffer) : Decidable (Stops s b') :=
  inferInstanceAs (Decidable (_ ∨ _ ∨ _ ∨ _ ∨ _))

/-- What a call does in a phase. A call that the caller goes on after has read the headers. -/
structure StreamStep (h : StreamHead) (A : Bytes) (p : HttpParser) (b : WfBuffer)
    (s : HttpParserState) (p' : HttpParser) (b' : WfBuffer) : Prop where
  phase : StreamPhase h A p' b'.bytes
  settled : Stops s b' → Settled h A p' b'.bytes
  progress : b.bytes.length < 2 ^ 31 → ¬ Stops s b' →
    p.state = .kExpectHeaders ∧ p'.state ≠ .kExpectHeaders
  accepted : p.state ≠ .kExpectError → h.bytes.length ≤ kHttpMaxBodySize + 1 →
    p'.state ≠ .kExpectError
  refused : p.state = .kExpectHeaders → kHttpMaxBodySize < A.length → A.length < h.bytes.length →
    p'.state = .kExpectError

/-- A call that changes nothing, and says so. -/
theorem StreamStep.same (hp : StreamPhase h A p b.bytes) (hstop : Stops s b)
    (hsettled : Settled h A p b.bytes)
    (hrefused : p.state = .kExpectHeaders → A.length ≤ kHttpMaxBodySize) :
    StreamStep h A p b s p b := by
  refine ⟨hp, fun _ => hsettled, fun _ hno => absurd hstop hno, fun he _ => he, ?_⟩
  intro hs hlong _
  have := hrefused hs
  omega

/-- A call while the terminator has not arrived. -/
theorem StreamPhase.call_waiting (hs : p.state = .kExpectHeaders) (hc : p.chunk = none)
    (hne : b.bytes ≠ []) (hb : b.bytes <+: h.bytes ++ T) (hlt : b.bytes.length < h.bytes.length) :
    ∃ s p' b', parse p b = .ok (s, p', b') ∧ StreamStep h b.bytes p b s p' b' := by
  have hfind := h.find_terminator hb
  rw [if_neg (by omega)] at hfind
  -- the limit is on what is in the buffer, with or without a terminator to come
  rcases le_or_gt b.bytes.length kHttpMaxBodySize with hle | hgt
  · refine ⟨_, _, _, parse_headers_wait hs hne hle (.inr hfind), ?_⟩
    refine .same (.headers hs hc) (.inr (.inr (.inl rfl))) ⟨fun _ => hlt, fun hs' => ?_⟩
      fun _ => hle
    rw [hs] at hs'
    cases hs'
  · refine ⟨_, _, _, parse_headers_long hs hgt hfind, ?_⟩
    have hfail : p.fail.state = .kExpectError := rfl
    refine ⟨.rejected hfail, fun _ => ⟨fun hs' => ?_, fun hs' => ?_⟩,
      fun _ hno => absurd (.inr (.inr (.inr (.inl rfl)))) hno, fun _ hle => ?_, fun _ _ _ => hfail⟩
    · rw [hfail] at hs'
      cases hs'
    · rw [hfail] at hs'
      cases hs'
    · omega

/-- The call that sees the terminator. -/
theorem StreamPhase.call_head (hs : p.state = .kExpectHeaders) (hc : p.chunk = none)
    (hb : b.bytes <+: h.bytes ++ T) (hle : h.bytes.length ≤ b.bytes.length) :
    ∃ s p' b', parse p b = .ok (s, p', b') ∧ StreamStep h b.bytes p b s p' b' := by
  have hA := eq_append_drop hb hle
  have hparse := parse_block hs h.terminator h.blockRequest_eq hb hle
  rw [framed, h.framing_eq] at hparse
  simp only at hparse
  set p₁ : HttpParser := { p with
    header := h.block, isRequest := h.request.isRequest
    req := some { h.request with isStream := true }, curContentLength := -1, isStream := true
    state := .kExpectStreamBody } with hp₁
  -- a stream gets an empty packet of the largest size
  have hcap : p₁.bodyCapacity = kHttpMaxBodySize := rfl
  have hpk : p₁.packet = ⟨kHttpMaxBodySize, []⟩ := by
    rw [packet, hcap, show p₁.chunk = none from hc]
    rfl
  have hfill : p₁.Filling :=
    filling_of_chunk_none (.inr (.inl rfl)) hc (by rw [hcap]; decide) (by rw [hcap]; decide)
  refine ⟨_, p₁, _, hparse, ?_⟩
  have hne : ∀ s, s ≠ .kExpectStreamBody → p₁.state ≠ s := fun s hs heq => hs heq.symm
  refine ⟨?_, fun hstop => ⟨fun hs' => absurd hs' (hne _ (by decide)), fun _ => ?_⟩,
    fun _ _ => ⟨hs, hne _ (by decide)⟩, fun _ _ => hne _ (by decide), ?_⟩
  · rw [WfBuffer.bytes_retrieve]
    exact .filling hfill rfl (by rw [hpk]) (by rw [hpk, List.append_nil]; exact hA)
  · rcases hstop with hstop | hstop | hstop | hstop | hstop
    · cases hstop
    · cases hstop
    · cases hstop
    · cases hstop
    · exact hstop
  · intro _ _ hlt
    omega

/-- A call while the packet is filling. -/
theorem StreamPhase.call_filling (hf : p.Filling) (hs : p.state = .kExpectStreamBody)
    (hcap : p.packet.capacity = kHttpMaxBodySize) (hA : A = h.bytes ++ p.packet.data ++ b.bytes)
    (hne : b.bytes ≠ []) :
    (2 ^ 31 ≤ b.bytes.length ∧ parse p b = .error .copyRange) ∨
      ∃ s p' b', parse p b = .ok (s, p', b') ∧ StreamStep h A p b s p' b' := by
  have hparse := parse_body hf hne
  split_ifs at hparse with hneg
  · refine .inl ⟨?_, hparse⟩
    by_contra hlt
    rw [toInt32_of_lt (by omega) (by omega)] at hneg
    omega
  set n := p.packet.taken b.bytes with hn
  have hlen : (b.bytes.take n).length = n := p.packet.length_take_taken b.bytes
  have hle : n ≤ p.packet.room := hf.ok.taken_le_room _
  -- what has been taken and what is left is still all that has arrived
  have hdata : A = h.bytes ++ (p.packet.push (b.bytes.take n)).data ++ (b.retrieve n).bytes := by
    rw [Packet.push, hA, WfBuffer.bytes_retrieve]
    simp [List.append_assoc]
  have hnh : p.state ≠ .kExpectHeaders := by rw [hs]; decide
  refine .inr ⟨_, p.advance (b.bytes.take n), _, hparse, ?_⟩
  by_cases hfull : n = p.packet.room
  · -- the packet is full
    have hdone : (p.advance (b.bytes.take n)).state = .kExpectChunkComplete := by
      rw [advance_state, hlen, if_pos hfull, hs]
      rfl
    have hsize : (p.packet.push (b.bytes.take n)).data.length = kHttpMaxBodySize := by
      have hadd := hf.ok.room_add
      simp only [Packet.push, List.length_append, hlen]
      omega
    have hne : ∀ s, s ≠ .kExpectChunkComplete → (p.advance (b.bytes.take n)).state ≠ s :=
      fun s hs heq => hs (heq.symm.trans hdone)
    refine ⟨.full hdone ?_ hsize hdata, fun _ => ⟨?_, ?_⟩, ?_, ?_, ?_⟩
    · rw [advance_chunk, ← hcap]
      rfl
    · exact fun hs' => absurd hs' (hne _ (by decide))
    · exact fun hs' => absurd hs' (hne _ (by decide))
    · exact fun _ hno => absurd (.inr (.inl hdone)) hno
    · exact fun _ _ => hne _ (by decide)
    · exact fun hs' => absurd hs' hnh
  · obtain ⟨hf', hs'⟩ := hf.advance (b.bytes.take n) (by rw [hlen]; omega)
    have hstate : (p.advance (b.bytes.take n)).state = .kExpectStreamBody := hs'.trans hs
    have hne : ∀ s, s ≠ .kExpectStreamBody → (p.advance (b.bytes.take n)).state ≠ s :=
      fun s hs heq => hs (heq.symm.trans hstate)
    refine ⟨.filling hf' hstate hcap hdata, fun hstop => ⟨?_, fun _ => ?_⟩, ?_, ?_, ?_⟩
    · exact fun hs' => absurd hs' (hne _ (by decide))
    · simp only [Stops, hstate, reduceCtorEq, false_or] at hstop
      exact hstop
    · -- a buffer that does not fill the packet is used up
      intro hlt hno
      rw [hf.ok.taken_eq hlt] at hn
      refine absurd (.inr (.inr (.inr (.inr ?_)))) hno
      rw [WfBuffer.bytes_retrieve]
      exact List.drop_eq_nil_of_le (by omega)
    · exact fun _ _ => hne _ (by decide)
    · exact fun hs' => absurd hs' hnh

/-- **What one call does**, for a buffer of any length. -/
theorem StreamPhase.call (hp : StreamPhase h A p b.bytes) (hA : A <+: h.bytes ++ T) :
    (2 ^ 31 ≤ b.bytes.length ∧ parse p b = .error .copyRange) ∨
      ∃ s p' b', parse p b = .ok (s, p', b') ∧ StreamStep h A p b s p' b' := by
  -- in these two states a call changes nothing
  have hstuck : p.state = .kExpectChunkComplete ∨ p.state = .kExpectError →
      ∃ s p' b', parse p b = .ok (s, p', b') ∧ StreamStep h A p b s p' b' := by
    intro hs
    refine ⟨_, _, _, parse_stuck ?_, .same hp ?_ ⟨fun hs' => ?_, fun hs' => ?_⟩ fun hs' => ?_⟩
    · rcases hs with hs | hs
      · exact .inr (.inl hs)
      · exact .inr (.inr (.inr hs))
    · rcases hs with hs | hs
      · exact .inr (.inl hs)
      · exact .inr (.inr (.inr (.inl hs)))
    all_goals
      rcases hs with hs | hs
      · rw [hs] at hs'; cases hs'
      · rw [hs] at hs'; cases hs'
  by_cases hempty : b.bytes = []
  · -- an empty piece has arrived
    refine .inr ⟨_, _, _, parse_empty hempty, .same hp (.inr (.inr (.inr (.inr hempty)))) ?_ ?_⟩
    · refine ⟨fun hs => ?_, fun _ => hempty⟩
      have h4 := h.length_bytes
      rw [← hp.of_headers hs, hempty, List.length_nil]
      omega
    · intro hs
      rw [← hp.of_headers hs, hempty]
      exact Nat.zero_le _
  generalize hbs : b.bytes = bs at hp
  cases hp with
  | headers hs hc =>
    rw [← hbs] at hA ⊢
    rcases lt_or_ge b.bytes.length h.bytes.length with hlt | hge
    · exact .inr (call_waiting hs hc hempty hA hlt)
    · exact .inr (call_head hs hc hA hge)
  | filling hf hs hcap hA' => exact hbs ▸ call_filling hf hs hcap (hbs ▸ hA') hempty
  | full hs _ _ _ => exact .inr (hstuck (.inl hs))
  | rejected hs => exact .inr (hstuck (.inr hs))

/-! ## A caller that stops at the first chunk -/

/-- The invariant of the caller. -/
structure Streaming (h : StreamHead) (A : Bytes) (r : Reader) : Prop where
  phase : StreamPhase h A r.parser r.buf.bytes
  settled : r.running = false → Settled h A r.parser r.buf.bytes

/-- Calls left before the caller stops. -/
def Reader.callsLeft (r : Reader) : ℕ :=
  if r.running then if r.parser.state = .kExpectHeaders then 2 else 1 else 0

/-- The caller after a call. -/
def Reader.afterCall (r : Reader) (s : HttpParserState) (p' : HttpParser) (b' : WfBuffer) :
    Reader where
  parser := p'
  buf := b'
  calls := r.calls ++ [s]
  running := ¬ Stops s b'

theorem messageReader_body {r : Reader} (hparse : parse r.parser r.buf = .ok (s, p', b')) :
    messageReader.body r = .ok (r.afterCall s p' b') := by
  simp [messageReader, hparse, bind, Except.bind, Reader.afterCall, Stops]

/-- **One call of the caller.** -/
theorem Streaming.call {r : Reader} (hr : Streaming h A r) (hA : A <+: h.bytes ++ T) :
    (2 ^ 31 ≤ r.buf.bytes.length ∧ messageReader.body r = .error .copyRange) ∨
      ∃ s p' b', messageReader.body r = .ok (r.afterCall s p' b') ∧
        StreamStep h A r.parser r.buf s p' b' := by
  rcases hr.phase.call hA with ⟨hlong, hparse⟩ | ⟨s, p', b', hparse, hstep⟩
  · refine .inl ⟨hlong, ?_⟩
    simp [messageReader, hparse, bind, Except.bind]
  · exact .inr ⟨s, p', b', messageReader_body hparse, hstep⟩

theorem StreamStep.streaming {r : Reader} (hstep : StreamStep h A r.parser r.buf s p' b') :
    Streaming h A (r.afterCall s p' b') := by
  refine ⟨hstep.phase, fun hrun => hstep.settled ?_⟩
  simpa [Reader.afterCall] using hrun

/-- A call that the caller goes on after is one of two. -/
theorem StreamStep.callsLeft_lt {r : Reader} (hstep : StreamStep h A r.parser r.buf s p' b')
    (hlt : r.buf.bytes.length < 2 ^ 31) (hrun : r.running = true) :
    (r.afterCall s p' b').callsLeft < r.callsLeft := by
  have h0 : 0 < r.callsLeft := by
    rw [Reader.callsLeft, if_pos hrun]
    split_ifs <;> omega
  by_cases hstop : Stops s b'
  · simpa [Reader.callsLeft, Reader.afterCall, hstop] using h0
  · obtain ⟨h2, h1⟩ := hstep.progress hlt hstop
    simp [Reader.callsLeft, Reader.afterCall, hstop, hrun, h1, h2]

theorem Streaming.recv {r : Reader} (hr : Streaming h A r) (piece : Bytes) :
    Streaming h (A ++ piece) (messageReader.recv r piece) := by
  refine ⟨?_, fun hrun => (by cases hrun)⟩
  rw [messageReader, WfBuffer.bytes_append]
  exact hr.phase.append piece

theorem Streaming.start (hb : b.bytes = []) : Streaming h [] { parser := {}, buf := b } := by
  have h4 := h.length_bytes
  refine ⟨?_, fun _ => ⟨fun _ => ?_, fun _ => hb⟩⟩
  · rw [hb]
    exact .headers rfl rfl
  · rw [List.length_nil]
    omega

/-- **The invariant holds at every moment.** -/
theorem Streaming.reaches {r r' : Reader} {ps ps' : List Bytes} (hr : Streaming h A r)
    (hA : A ++ ps.flatten <+: h.bytes ++ T) (hreach : messageReader.Reaches (r, ps) (r', ps')) :
    ∃ A', A' ++ ps'.flatten = A ++ ps.flatten ∧ Streaming h A' r' := by
  refine FeedLoop.reaches_inv
    (fun r' ps' => ∃ A', A' ++ ps'.flatten = A ++ ps.flatten ∧ Streaming h A' r') ?_ ?_ hreach
    ⟨A, rfl, hr⟩
  · rintro r₁ ps₁ r₂ ⟨A₁, hA₁, hr₁⟩ - hbody
    have hpre : A₁ <+: h.bytes ++ T := ((List.prefix_append _ _).trans (hA₁ ▸ hA))
    rcases hr₁.call hpre with ⟨-, herr⟩ | ⟨s, p', b', hok, hstep⟩
    · rw [herr] at hbody
      cases hbody
    · rw [hok] at hbody
      cases hbody
      exact ⟨A₁, hA₁, hstep.streaming⟩
  · rintro r₁ piece ps₁ ⟨A₁, hA₁, hr₁⟩ -
    exact ⟨A₁ ++ piece, by rw [List.append_assoc, ← hA₁, List.flatten_cons], hr₁.recv piece⟩

variable {pieces : List Bytes} {body : Bytes} {t : Reader}

/-- **A chunk that is complete is a full packet.** -/
theorem chunk_of_completes (hb : b.bytes = []) (hpieces : pieces.flatten = h.bytes ++ body)
    (ht : messageReader.Completes { parser := {}, buf := b } pieces t)
    (hdone : t.parser.state = .kExpectHttpComplete ∨ t.parser.state = .kExpectChunkComplete) :
    ∃ data, t.parser.chunk = some ⟨kHttpMaxBodySize, data⟩ ∧ data.length = kHttpMaxBodySize := by
  obtain ⟨A', -, hr⟩ := (Streaming.start (h := h) hb).reaches (T := body)
    (by rw [List.nil_append, hpieces]) ht.1
  cases hr.phase with
  | headers hs _ => rcases hdone with hd | hd <;> rw [hs] at hd <;> cases hd
  | filling _ hs _ _ => rcases hdone with hd | hd <;> rw [hs] at hd <;> cases hd
  | full hs hc hlen _ => exact ⟨_, hc, hlen⟩
  | rejected hs => rcases hdone with hd | hd <;> rw [hs] at hd <;> cases hd

/-- **A body that fills a packet is complete with its last byte**, in any pieces. -/
theorem stream_completes (hb : b.bytes = []) (hpieces : pieces.flatten = h.bytes ++ body)
    (hbody : body.length = kHttpMaxBodySize) (hhead : h.bytes.length ≤ kHttpMaxBodySize + 1) :
    ∃ t, messageReader.Completes { parser := {}, buf := b } pieces t ∧
      t.parser.state = .kExpectChunkComplete ∧ t.parser.chunk = some ⟨kHttpMaxBodySize, body⟩ := by
  have hk : kHttpMaxBodySize = 65536 := rfl
  have htotal : (h.bytes ++ body).length < 2 ^ 31 := by
    rw [List.length_append]
    omega
  obtain ⟨t, ht, A, hA, hr, hacc⟩ := FeedLoop.completes_of_measure (L := messageReader)
    (fun r ps => ∃ A, A ++ ps.flatten = h.bytes ++ body ∧ Streaming h A r ∧
      r.parser.state ≠ .kExpectError) Reader.callsLeft
    (by
      rintro r ps ⟨A, hA, hr, hacc⟩ hrun
      have hpre : A <+: h.bytes ++ body := ⟨ps.flatten, hA⟩
      have hbuf : r.buf.bytes.length ≤ A.length := by
        cases hr.phase with
        | headers _ _ => exact le_rfl
        | filling _ _ _ hA' => rw [hA', List.length_append]; omega
        | full _ _ _ hA' => rw [hA', List.length_append]; omega
        | rejected hs => exact absurd hs hacc
      have hlt : r.buf.bytes.length < 2 ^ 31 := by
        have := hpre.length_le
        omega
      rcases hr.call hpre with ⟨hlong, -⟩ | ⟨s, p', b', hok, hstep⟩
      · omega
      · exact ⟨_, hok, ⟨A, hA, hstep.streaming, hstep.accepted hacc hhead⟩,
          hstep.callsLeft_lt hlt hrun⟩)
    (by
      rintro r piece ps ⟨A, hA, hr, hacc⟩ -
      exact ⟨A ++ piece, by rw [List.append_assoc, ← hA, List.flatten_cons], hr.recv piece, hacc⟩)
    pieces { parser := {}, buf := b } ⟨[], hpieces, .start hb, nofun⟩
  rw [List.flatten_nil, List.append_nil] at hA
  obtain ⟨hheaders, hstream⟩ := hr.settled ht.2
  have hlenA := congrArg List.length hA
  rw [List.length_append] at hlenA
  refine ⟨t, ht, ?_⟩
  -- all bytes have arrived, so a caller that waits is neither in the headers nor in the body
  cases hr.phase with
  | headers hs _ =>
    have := hheaders hs
    omega
  | filling hf hs hcap hA' =>
    have h1 := hf.open'
    have h2 := hf.ok.room_add
    have h3 := congrArg List.length hA'
    rw [hstream hs, List.append_nil, List.length_append] at h3
    omega
  | full hs hc hlen hA' =>
    -- the data and the body are as long, so they are the same
    rw [hA, List.append_assoc] at hA'
    have hdata := List.append_cancel_left hA'
    have hprefix := (List.append_inj (hdata.symm.trans (List.append_nil body).symm)
      (by omega)).1
    exact ⟨hs, by rw [hc, hprefix]⟩
  | rejected hs => exact absurd hs hacc

/-- A rejected message stays rejected. -/
theorem rejected_reaches {r r' : Reader} {ps ps' : List Bytes}
    (hr : r.parser.state = .kExpectError) (hreach : messageReader.Reaches (r, ps) (r', ps')) :
    r'.parser.state = .kExpectError := by
  refine FeedLoop.reaches_inv (fun r _ => r.parser.state = .kExpectError) ?_ ?_ hreach hr
  · intro r₁ _ r₂ hs _ hbody
    rw [messageReader_body (parse_stuck (.inr (.inr (.inr hs))))] at hbody
    cases hbody
    exact hs
  · intro r₁ _ _ hs _
    exact hs

/-- **A header block over the limit is rejected** when the limit is passed before its
terminator has arrived. -/
theorem rejected_of_long {first rest : Bytes} (hb : b.bytes = [])
    (hpieces : first ++ rest = h.bytes ++ body) (hfirst : first.length = kHttpMaxBodySize + 1)
    (hhead : kHttpMaxBodySize + 1 < h.bytes.length)
    (ht : messageReader.Completes { parser := {}, buf := b } [first, rest] t) :
    t.parser.state = .kExpectError := by
  have hk : kHttpMaxBodySize = 65536 := rfl
  set r₁ := messageReader.recv { parser := {}, buf := b } first with hr₁
  have hstream : Streaming h first r₁ := (Streaming.start (h := h) hb).recv first
  have hbuf : r₁.buf.bytes = first := hstream.phase.of_headers rfl
  have hrecv : messageReader.Reaches ({ parser := {}, buf := b }, [first, rest]) (r₁, [rest]) :=
    .single (.recv rfl)
  rcases hstream.call ⟨rest, hpieces⟩ with ⟨hlong, -⟩ | ⟨s, p', b', hok, hstep⟩
  · rw [hbuf] at hlong
    omega
  · have herror : p'.state = .kExpectError := hstep.refused rfl (by omega) (by omega)
    have hcall : messageReader.Reaches ({ parser := {}, buf := b }, [first, rest])
        (r₁.afterCall s p' b', [rest]) := hrecv.tail (.turn rfl hok)
    exact rejected_reaches (r := r₁.afterCall s p' b') herror (ht.reaches hcall)

end HttpNest
