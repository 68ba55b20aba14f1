import HttpNest.Proof.ParserStep
import HttpNest.Spec.HttpContext

/-!
# When `HttpContext::Parse` returns

The loop `while (buf.ReadableBytes() > 1)` is left only through its condition. It
ignores that `Parse` asks for more bytes, rejects its input, or has completed a
message, and in each of these cases the next call sees the same parser and buffer.

`Drains p bs` is the exact condition on the parser and the readable bytes under which
the loop is left (`context_loop_halts_iff`): the bytes end, but for at most one, where
the parser stops consuming. It is put together from a condition for each state, in the
order in which the parser passes them.
-/

namespace HttpNest

open CNumeral ListSearch HttpParser FeedLoop

variable {c c' : HttpContext} {p : HttpParser} {b : WfBuffer}

theorem loop_guard : HttpContext.loop.guard c = true ↔ 1 < c.buf.bytes.length := by
  simp [HttpContext.loop]

theorem loop_guard_false : HttpContext.loop.guard c = false ↔ c.buf.bytes.length ≤ 1 := by
  simp [HttpContext.loop]

/-- The context after a turn in which `Parse` returned the parser's state, or asked for
more. -/
theorem turn_of_parse {s : HttpParserState} {p : HttpParser} {b : WfBuffer}
    (h : parse c.httpParser c.buf = .ok (s, p, b))
    (hs : s = p.state ∨ s = .kExpectContinue ∧ p.state = .kExpectHeaders) :
    ∃ c', c.turn = .ok c' ∧ c'.httpParser = p ∧ c'.buf = b ∧
      c'.requests = if p.state = .kExpectHttpComplete ∨ p.state = .kExpectChunkComplete then
        c.requests ++ [(p.req, p.chunk)] else c.requests := by
  have hiff : (s = .kExpectHttpComplete ∨ s = .kExpectChunkComplete) ↔
      (p.state = .kExpectHttpComplete ∨ p.state = .kExpectChunkComplete) := by
    rcases hs with rfl | ⟨rfl, hp⟩
    · exact .rfl
    · rw [hp]; decide
  unfold HttpContext.turn
  rw [h]
  refine ⟨_, rfl, ?_⟩
  by_cases hc : s = .kExpectHttpComplete ∨ s = .kExpectChunkComplete
  · rw [if_pos hc, if_pos (hiff.1 hc)]
    exact ⟨rfl, rfl, rfl⟩
  · rw [if_neg hc, if_neg (fun h => hc (hiff.2 h))]
    split_ifs <;> exact ⟨rfl, rfl, rfl⟩

/-- What a turn has done. -/
theorem parse_of_turn (h : c.turn = .ok c') : ∃ s,
    parse c.httpParser c.buf = .ok (s, c'.httpParser, c'.buf) ∧ (c'.requests = c.requests ∨
      c'.requests = c.requests ++ [(c'.httpParser.req, c'.httpParser.chunk)]) := by
  unfold HttpContext.turn at h
  cases hparse : parse c.httpParser c.buf with
  | error e =>
    rw [hparse] at h
    cases h
  | ok r =>
    obtain ⟨s, p, b⟩ := r
    rw [hparse] at h
    have h' := Except.ok.inj h
    refine ⟨s, ?_⟩
    rw [← h']
    split_ifs
    · exact ⟨rfl, .inr rfl⟩
    · exact ⟨rfl, .inl rfl⟩
    · exact ⟨rfl, .inl rfl⟩

/-- Halting is decided by the parser and the bytes after the next call. -/
theorem halts_of_parse (hguard : 1 < c.buf.bytes.length) {s : HttpParserState} {p : HttpParser}
    {b : WfBuffer} (hparse : parse c.httpParser c.buf = .ok (s, p, b))
    (hs : s = p.state ∨ s = .kExpectContinue ∧ p.state = .kExpectHeaders) :
    ∃ c', (HttpContext.loop.Halts c ↔ HttpContext.loop.Halts c') ∧ c'.httpParser = p ∧
      c'.buf = b := by
  obtain ⟨c', hc', hp, hb, -⟩ := turn_of_parse hparse hs
  exact ⟨c', halts_turn (loop_guard.2 hguard) hc', hp, hb⟩

theorem halts_of_le_one (h : c.buf.bytes.length ≤ 1) : HttpContext.loop.Halts c :=
  halts_of_exit (loop_guard_false.2 h)

theorem not_halts_of_fault (hguard : 1 < c.buf.bytes.length) {e : Fault}
    (hparse : parse c.httpParser c.buf = .error e) : ¬ HttpContext.loop.Halts c := by
  refine not_halts_of_error (loop_guard.2 hguard) (e := e) ?_
  show c.turn = _
  rw [HttpContext.turn, hparse]
  rfl

/-- A call that returns with the same parser and buffer is repeated for good. -/
theorem not_halts_of_same (hguard : 1 < c.buf.bytes.length) {s : HttpParserState}
    (hparse : parse c.httpParser c.buf = .ok (s, c.httpParser, c.buf))
    (hs : s = c.httpParser.state ∨ s = .kExpectContinue ∧ c.httpParser.state = .kExpectHeaders) :
    ¬ HttpContext.loop.Halts c := by
  refine not_halts_of_inv (L := HttpContext.loop)
    (fun d => d.httpParser = c.httpParser ∧ d.buf = c.buf) ?_ ?_ ⟨rfl, rfl⟩
  · rintro d ⟨-, hb⟩
    rw [loop_guard, hb]
    exact hguard
  · rintro d d' ⟨hp, hb⟩ hd'
    rw [← hp, ← hb] at hparse
    rw [← hp] at hs
    obtain ⟨e, he, hp', hb', -⟩ := turn_of_parse hparse hs
    have heq : d' = e := Except.ok.inj (hd'.symm.trans he)
    rw [heq]
    exact ⟨hp'.trans hp, hb'.trans hb⟩

/-! ## The condition -/

/-- A body with this much room takes all bytes but at most one. -/
def Fills (room : ℤ) (bs : Bytes) : Prop :=
  bs.length ≤ 1 ∨ ((bs.length : ℤ) ≤ room + 1 ∧ bs.length < 2 ^ 31)

/-- The line behind the last chunk's size line ends the bytes. -/
def EndsLast (bs : Bytes) : Prop :=
  bs.length ≤ 1 ∨ ∃ i, find CRLF bs = some i ∧ bs.length ≤ i + 3

/-- A chunk's size line and its data end the bytes; or there is no line, and they are
dropped. -/
def EndsChunk (bs : Bytes) : Prop :=
  bs.length ≤ 1 ∨
    match find CRLF bs with
    | none => 32 < bs.length
    | some i =>
      if chunkSize (bs.take i) = 0 then EndsLast (bs.drop (i + 2))
      else Fills (chunkSize (bs.take i)) (bs.drop (i + 2))

/-- The body that the framing announces ends the bytes. -/
def EndsBody : Framing → Bytes → Prop
  | .badLength, bs => bs.length ≤ 1
  | .noBody, bs => bs.length ≤ 1
  | .length n, bs => Fills n bs
  | .chunked, bs => EndsChunk bs
  | .stream, bs => Fills kHttpMaxBodySize bs

/-- A header block, terminated and well formed or empty, and its body end the bytes. -/
def EndsMessage (bs : Bytes) : Prop :=
  bs.length ≤ 1 ∨ 4 < bs.length ∧ ∃ i, find CRLFCRLF bs = some i ∧
    match blockRequest (bs.take i) with
    | some r => EndsBody r.framing (bs.drop (i + 4))
    | none => StringUtils.splitString (bs.take i) CRLF = [] ∧ (bs.drop (i + 4)).length ≤ 1

/-- The loop is left: the bytes end, but for at most one, where the parser stops. -/
def Drains (p : HttpParser) (bs : Bytes) : Prop :=
  match p.state with
  | .kExpectHeaders => EndsMessage bs
  | .kExpectNormalBody | .kExpectStreamBody | .kExpectChunkBody =>
    Fills (p.packet.capacity - p.packet.packetSize) bs
  | .kExpectChunkLen => EndsChunk bs
  | .kExpectLastEmptyChunk => EndsLast bs
  | .kExpectHttpComplete | .kExpectChunkComplete | .kExpectContinue | .kExpectError =>
    bs.length ≤ 1

/-! ## State by state -/

theorem halts_stuck (hs : Stuck c.httpParser.state) :
    HttpContext.loop.Halts c ↔ c.buf.bytes.length ≤ 1 := by
  refine ⟨fun h => ?_, halts_of_le_one⟩
  by_contra hgt
  exact not_halts_of_same (by omega) (parse_stuck hs) (.inl rfl) h

/-- More bytes than a body takes keep the loop going, whatever the calls move. -/
theorem not_halts_of_overfull (hguard : 1 < c.buf.bytes.length)
    (h : Stuck c.httpParser.state ∨
      c.httpParser.Filling ∧ c.httpParser.packet.room + 1 < c.buf.bytes.length) :
    ¬ HttpContext.loop.Halts c := by
  refine not_halts_of_inv (L := HttpContext.loop)
    (fun c => 1 < c.buf.bytes.length ∧ (Stuck c.httpParser.state ∨
      c.httpParser.Filling ∧ c.httpParser.packet.room + 1 < c.buf.bytes.length))
    (fun c hc => loop_guard.2 hc.1) ?_ ⟨hguard, h⟩
  rintro c c' ⟨hguard, hc⟩ hc'
  have hne : c.buf.bytes ≠ [] := List.ne_nil_of_length_pos (by omega)
  rcases hc with hs | ⟨hf, hgt⟩
  · obtain ⟨d, hd, hp, hb, -⟩ := turn_of_parse (parse_stuck (b := c.buf) hs) (.inl rfl)
    have heq : c' = d := Except.ok.inj (hc'.symm.trans hd)
    rw [heq, hp, hb]
    exact ⟨hguard, .inl hs⟩
  · have hparse := parse_body hf hne
    split_ifs at hparse with hneg
    · have hfault : c.turn = .error .copyRange := by rw [HttpContext.turn, hparse]; rfl
      cases hc'.symm.trans hfault
    · set data := c.buf.bytes.take (c.httpParser.packet.taken c.buf.bytes) with hdata
      have htaken := hf.ok.taken_le_room c.buf.bytes
      have hlen : data.length = c.httpParser.packet.taken c.buf.bytes := by
        rw [hdata, Packet.length_take_taken]
      obtain ⟨d, hd, hp, hb, -⟩ := turn_of_parse hparse (.inl rfl)
      have heq : c' = d := Except.ok.inj (hc'.symm.trans hd)
      rw [heq, hp, hb, WfBuffer.bytes_retrieve, List.length_drop]
      refine ⟨by omega, ?_⟩
      -- the bytes and the room shrink by the same length
      rcases htaken.lt_or_eq with hlt | hfull
      · have hf' := (hf.advance data (by omega)).1
        have hroom : (c.httpParser.advance data).packet.room =
            c.httpParser.packet.room - data.length := Packet.room_push _ _
        exact .inr ⟨hf', by rw [hroom]; omega⟩
      · left
        show Stuck (c.httpParser.advance data).state
        rw [advance_state, if_pos (by omega)]
        rcases hf.inBody with hs | hs | hs <;> rw [hs]
        · exact .inl rfl
        · exact .inr (.inl rfl)
        · exact .inr (.inl rfl)

theorem halts_filling (hf : c.httpParser.Filling) :
    HttpContext.loop.Halts c ↔ Fills c.httpParser.packet.room c.buf.bytes := by
  have hroom := hf.ok.room_lt
  constructor
  · intro h
    by_contra hno
    rw [Fills, not_or, not_and_or, not_le, not_le, not_lt] at hno
    obtain ⟨hguard, hno⟩ := hno
    by_cases hle : c.buf.bytes.length ≤ c.httpParser.packet.room + 1
    · -- the one length that fits and is negative as an `int`
      have hlen : c.buf.bytes.length = 2 ^ 31 := by omega
      have hneg : toInt32 c.buf.bytes.length < 0 := by
        rw [hlen]; decide
      have hne : c.buf.bytes ≠ [] := List.ne_nil_of_length_pos (by omega)
      have hparse := parse_body hf hne
      rw [if_pos hneg] at hparse
      exact not_halts_of_fault hguard hparse h
    · exact not_halts_of_overfull hguard (.inr ⟨hf, by omega⟩) h
  -- one turn takes all that fits, and leaves at most a byte
  · rintro (hle | ⟨hle, hlt⟩)
    · exact halts_of_le_one hle
    rcases le_or_gt c.buf.bytes.length 1 with h1 | hguard
    · exact halts_of_le_one h1
    have hne : c.buf.bytes ≠ [] := List.ne_nil_of_length_pos (by omega)
    have hparse := parse_body hf hne
    rw [if_neg (by rw [toInt32_of_lt] <;> omega), hf.ok.taken_eq hlt] at hparse
    obtain ⟨c', hiff, -, hb⟩ := halts_of_parse hguard hparse (.inl rfl)
    refine hiff.2 (halts_of_le_one ?_)
    rw [hb, WfBuffer.bytes_retrieve, List.length_drop]
    omega

/-- A body state with `room` left, allocated or not. -/
theorem halts_body (h : Unspoiled c.httpParser) (hs : c.httpParser.InBody) :
    HttpContext.loop.Halts c ↔
      Fills (c.httpParser.packet.capacity - c.httpParser.packet.packetSize) c.buf.bytes := by
  rcases h.body hs with hf | ⟨hc, hneg⟩
  · have hroom : (c.httpParser.packet.room : ℤ) =
        c.httpParser.packet.capacity - c.httpParser.packet.packetSize := by
      have hadd := hf.ok.room_add
      unfold Packet.packetSize
      omega
    rw [halts_filling hf, hroom]
  -- a packet of negative size faults in the turn that allocates it
  · have hpk : c.httpParser.packet = ⟨c.httpParser.bodyCapacity, []⟩ := by rw [packet, hc]; rfl
    have hcap : c.httpParser.packet.capacity - c.httpParser.packet.packetSize < 0 := by
      rw [hpk]
      simpa [Packet.packetSize] using hneg
    constructor
    · intro hh
      by_contra hno
      rw [Fills, not_or, not_le] at hno
      have hne : c.buf.bytes ≠ [] := by
        intro h0
        rw [h0] at hno
        cases hno.1
      exact not_halts_of_fault hno.1 (parse_negative hs hc hneg hne) hh
    · rintro (hle | ⟨hle, -⟩)
      · exact halts_of_le_one hle
      · exact halts_of_le_one (by omega)

/-- A body state whose packet is about to be allocated with this size. -/
theorem halts_new_body (hs : c.httpParser.InBody) (hc : c.httpParser.chunk = none)
    (h0 : c.httpParser.bodyCapacity ≠ 0) (hlt : c.httpParser.bodyCapacity < 2 ^ 31) :
    HttpContext.loop.Halts c ↔ Fills c.httpParser.bodyCapacity c.buf.bytes := by
  have hpk : c.httpParser.packet = ⟨c.httpParser.bodyCapacity, []⟩ := by rw [packet, hc]; rfl
  rw [halts_body (.of_body hs hc h0 hlt) hs, hpk]
  simp [Packet.packetSize]

theorem halts_last (hs : c.httpParser.state = .kExpectLastEmptyChunk) :
    HttpContext.loop.Halts c ↔ EndsLast c.buf.bytes := by
  rcases le_or_gt c.buf.bytes.length 1 with h1 | hguard
  · exact ⟨fun _ => .inl h1, fun _ => halts_of_le_one h1⟩
  have hne : c.buf.bytes ≠ [] := List.ne_nil_of_length_pos (by omega)
  have hparse := parse_lastEmpty hs hne
  rw [EndsLast, or_iff_right (by omega)]
  cases hf : find CRLF c.buf.bytes with
  | none =>
    rw [hf] at hparse
    have hno := not_halts_of_same hguard hparse (.inl rfl)
    exact ⟨fun h => absurd h hno, fun ⟨i, hi, _⟩ => by cases hi⟩
  | some i =>
    rw [hf] at hparse
    obtain ⟨c', hiff, hp, hb⟩ := halts_of_parse hguard hparse (.inl rfl)
    rw [hiff, halts_stuck (by rw [hp]; exact .inr (.inl rfl)), hb, WfBuffer.bytes_retrieveUntil,
      List.length_drop]
    refine ⟨fun h => ⟨i, rfl, by omega⟩, ?_⟩
    rintro ⟨j, hj, hle⟩
    cases hj
    omega

theorem halts_chunk (hs : c.httpParser.state = .kExpectChunkLen)
    (hc : c.httpParser.chunk = none) :
    HttpContext.loop.Halts c ↔ EndsChunk c.buf.bytes := by
  rcases le_or_gt c.buf.bytes.length 1 with h1 | hguard
  · exact ⟨fun _ => .inl h1, fun _ => halts_of_le_one h1⟩
  have hne : c.buf.bytes ≠ [] := List.ne_nil_of_length_pos (by omega)
  have hparse := parse_chunkLen hs hne
  rw [EndsChunk, or_iff_right (by omega)]
  cases hf : find CRLF c.buf.bytes with
  | none =>
    simp only [hf] at hparse ⊢
    by_cases h32 : 32 < c.buf.bytes.length
    · -- the bytes are dropped, and the loop is left in the error state
      rw [if_pos h32] at hparse
      obtain ⟨c', hiff, -, hb⟩ := halts_of_parse hguard hparse (.inl rfl)
      exact ⟨fun _ => h32, fun _ => hiff.2 (halts_of_le_one (by
        rw [hb, WfBuffer.bytes_retrieveAll]; exact Nat.zero_le _))⟩
    · rw [if_neg h32] at hparse
      have hno := not_halts_of_same hguard hparse (.inl rfl)
      exact ⟨fun h => absurd h hno, fun h => absurd h h32⟩
  | some i =>
    simp only [hf] at hparse ⊢
    obtain ⟨c', hiff, hp, hb⟩ := halts_of_parse hguard hparse (.inl rfl)
    set v := chunkSize (c.buf.bytes.take i) with hv
    simp only at hp hb
    rw [hiff, ← WfBuffer.bytes_retrieveUntil, ← hb]
    -- the size says which body follows, and the rest of the buffer is its
    by_cases h0 : v = 0
    · rw [if_pos h0]
      exact halts_last (by rw [hp]; exact if_pos h0)
    · rw [if_neg h0]
      have hs' : c'.httpParser.state = .kExpectChunkBody := by rw [hp]; exact if_neg h0
      have hcap : c'.httpParser.bodyCapacity = v := by
        rw [bodyCapacity, hs', hp]; rfl
      rw [halts_new_body (.inr (.inr hs')) (by rw [hp]; exact hc) (by rw [hcap]; exact h0)
        (by rw [hcap]; exact toInt32_lt _), hcap]

/-- Behind a header block the framing decides. -/
theorem halts_framed {q : HttpParser} {r : HttpRequest} (hq : c.httpParser = q.framed r)
    (hc : q.chunk = none) : HttpContext.loop.Halts c ↔ EndsBody r.framing c.buf.bytes := by
  unfold HttpParser.framed at hq
  cases hf : r.framing with
  | badLength =>
    rw [hf] at hq
    exact halts_stuck (by rw [hq]; exact .inr (.inr (.inr rfl)))
  | noBody =>
    rw [hf] at hq
    exact halts_stuck (by rw [hq]; exact .inl rfl)
  | chunked =>
    rw [hf] at hq
    exact halts_chunk (by rw [hq]) (by rw [hq]; exact hc)
  | stream =>
    rw [hf] at hq
    have hcap : c.httpParser.bodyCapacity = kHttpMaxBodySize := by rw [hq]; rfl
    rw [EndsBody, ← hcap]
    refine halts_new_body (by rw [hq]; exact .inr (.inl rfl)) (by rw [hq]; exact hc) ?_ ?_ <;>
      rw [hcap] <;> decide
  | length n =>
    rw [hf] at hq
    have hlt := HttpRequest.framing_length_lt hf
    by_cases hn : n = 0
    · rw [halts_stuck (by rw [hq]; exact .inl (if_pos hn)), EndsBody, Fills, hn]
      omega
    · have hs : c.httpParser.state = .kExpectNormalBody := by rw [hq]; exact if_neg hn
      have hcap : c.httpParser.bodyCapacity = n := by rw [bodyCapacity, hs, hq]
      rw [EndsBody, ← hcap]
      exact halts_new_body (.inl hs) (by rw [hq]; exact hc) (by rw [hcap]; exact hn)
        (by rw [hcap]; exact hlt)

theorem halts_headers (hs : c.httpParser.state = .kExpectHeaders)
    (hreq : c.httpParser.req = none) (hc : c.httpParser.chunk = none) :
    HttpContext.loop.Halts c ↔ EndsMessage c.buf.bytes := by
  rcases le_or_gt c.buf.bytes.length 1 with h1 | hguard
  · exact ⟨fun _ => .inl h1, fun _ => halts_of_le_one h1⟩
  have hne : c.buf.bytes ≠ [] := List.ne_nil_of_length_pos (by omega)
  rw [EndsMessage, or_iff_right (by omega)]
  have hk : 4 ≤ kHttpMaxBodySize := by decide
  -- a call that waits leaves everything as it is, and the loop calls again
  have hwait : c.buf.bytes.length ≤ kHttpMaxBodySize →
      (c.buf.bytes.length ≤ 4 ∨ find CRLFCRLF c.buf.bytes = none) →
      ¬ HttpContext.loop.Halts c := fun hle hno =>
    not_halts_of_same hguard (parse_headers_wait hs hne hle hno) (.inr ⟨rfl, hs⟩)
  cases hf : find CRLFCRLF c.buf.bytes with
  | none =>
    refine ⟨fun h => absurd h ?_, fun ⟨_, i, hi, _⟩ => by cases hi⟩
    rcases le_or_gt c.buf.bytes.length kHttpMaxBodySize with hle | hgt
    · exact hwait hle (.inr hf)
    · obtain ⟨c', hiff, hp, hb⟩ := halts_of_parse hguard (parse_headers_long hs hgt hf) (.inl rfl)
      rw [hiff, halts_stuck (by rw [hp]; exact .inr (.inr (.inr rfl))), hb]
      omega
  | some i =>
    rcases le_or_gt c.buf.bytes.length 4 with h4 | h4
    · exact ⟨fun h => absurd h (hwait (h4.trans hk) (.inl h4)), fun ⟨h, _⟩ => by omega⟩
    -- the terminator is where `find` says
    have hsome : (4 < c.buf.bytes.length ∧ ∃ j, some i = some j ∧
        match blockRequest (c.buf.bytes.take j) with
        | some r => EndsBody r.framing (c.buf.bytes.drop (j + 4))
        | none => StringUtils.splitString (c.buf.bytes.take j) CRLF = [] ∧
          (c.buf.bytes.drop (j + 4)).length ≤ 1) ↔
        match blockRequest (c.buf.bytes.take i) with
        | some r => EndsBody r.framing (c.buf.bytes.drop (i + 4))
        | none => StringUtils.splitString (c.buf.bytes.take i) CRLF = [] ∧
          (c.buf.bytes.drop (i + 4)).length ≤ 1 := by
      constructor
      · rintro ⟨-, j, hj, h⟩
        cases hj
        exact h
      · exact fun h => ⟨h4, i, rfl, h⟩
    rw [hsome]
    cases hr : blockRequest (c.buf.bytes.take i) with
    | some r =>
      obtain ⟨c', hiff, hp, hb⟩ := halts_of_parse hguard (parse_headers_request hs h4 hf hr)
        (.inl rfl)
      rw [hiff, halts_framed hp hc, hb, WfBuffer.bytes_retrieve]
    | none =>
      have hparse := parse_headers_malformed hs hreq h4 hf hr
      by_cases hsplit : StringUtils.splitString (c.buf.bytes.take i) CRLF = []
      · rw [if_pos hsplit] at hparse
        obtain ⟨c', hiff, hp, hb⟩ := halts_of_parse hguard hparse (.inl rfl)
        rw [hiff, halts_stuck (by rw [hp]; exact .inr (.inr (.inr rfl))), hb,
          WfBuffer.bytes_retrieve]
        exact ⟨fun h => ⟨hsplit, h⟩, fun h => h.2⟩
      · rw [if_neg hsplit] at hparse
        exact ⟨fun h => absurd h (not_halts_of_fault hguard hparse), fun h => absurd h.1 hsplit⟩

/-- **`HttpContext::Parse` returns exactly where the bytes end with what the parser
reads.** For every parser that the context can own and every content of the buffer. -/
theorem context_loop_halts_iff (hp : Owned p) (b : WfBuffer)
    (requests : List (Option HttpRequest × Option Packet)) (closed : Bool) :
    HttpContext.loop.Halts ⟨p, b, requests, closed⟩ ↔ Drains p b.bytes := by
  have h := hp.unspoiled
  unfold Drains
  cases hs : p.state with
  | kExpectHeaders => exact halts_headers hs (h.request hs) (h.packet (.inl hs))
  | kExpectNormalBody => exact halts_body h (.inl hs)
  | kExpectStreamBody => exact halts_body h (.inr (.inl hs))
  | kExpectChunkBody => exact halts_body h (.inr (.inr hs))
  | kExpectChunkLen => exact halts_chunk hs (h.packet (.inr hs))
  | kExpectLastEmptyChunk => exact halts_last hs
  | kExpectHttpComplete => exact halts_stuck (.inl hs)
  | kExpectChunkComplete => exact halts_stuck (.inr (.inl hs))
  | kExpectContinue => exact halts_stuck (.inr (.inr (.inl hs)))
  | kExpectError => exact halts_stuck (.inr (.inr (.inr hs)))

/-- Three bytes of a request line keep the first call from returning. -/
theorem context_loop_hangs : ¬ HttpContext.loop.Halts
    { httpParser := {}, buf := (WfBuffer.new 1024 (by decide)).append (ascii "GET") } := by
  have hb : ((WfBuffer.new 1024 (by decide)).append (ascii "GET")).bytes = ascii "GET" := by
    rw [WfBuffer.bytes_append, WfBuffer.bytes_new, List.nil_append]
  refine not_halts_of_same ?_ (parse_headers_wait rfl ?_ ?_ (.inl ?_)) (.inr ⟨rfl, rfl⟩)
  · rw [hb]; decide +kernel
  · rw [hb]; decide +kernel
  · rw [hb]; decide +kernel
  · rw [hb]; decide +kernel

/-- A request without a body, alone in the buffer, is read to the end. -/
theorem context_loop_halts_get : HttpContext.loop.Halts
    ⟨{}, (WfBuffer.new 1024 (by decide)).append (ascii "GET / HTTP/1.1\r\n\r\n"), [], false⟩ := by
  refine (context_loop_halts_iff .init _ _ _).2 ?_
  rw [WfBuffer.bytes_append, WfBuffer.bytes_new, List.nil_append]
  refine .inr ⟨by decide +kernel, 14, by decide +kernel, ?_⟩
  obtain ⟨r, hr⟩ : ∃ r, blockRequest ((ascii "GET / HTTP/1.1\r\n\r\n").take 14) = some r :=
    Option.isSome_iff_exists.1 (by decide +kernel)
  have hf : (blockRequest ((ascii "GET / HTTP/1.1\r\n\r\n").take 14)).map HttpRequest.framing =
      some .noBody := by decide +kernel
  rw [hr, Option.map_some, Option.some.injEq] at hf
  rw [hr]
  simp only [hf, EndsBody]
  decide +kernel

end HttpNest
