import HttpNest.Spec.HttpParser

/-!
# The body states

`Filling p` says that `p` is in one of the three body states with a packet that has
room left (possibly not allocated yet), and that the remaining length the state
counts down is that room. One call then moves `taken` bytes into the packet
(`parse_body`), unless the buffer is so long that its length is negative as an
`int`; the state completes exactly when the room is used up.
-/

namespace HttpNest

open CNumeral

namespace Packet

variable {pk : Packet} {bs : Bytes}

/-- `size_ <= capacity_`, and the capacity is one that `NewPacket` takes. -/
structure Ok (pk : Packet) : Prop where
  size_le : pk.packetSize ≤ pk.capacity
  capacity_lt : pk.capacity < 2 ^ 31

/-- The bytes that still fit. -/
def room (pk : Packet) : ℕ := (pk.capacity - pk.packetSize).toNat

/-- How many bytes of a buffer one call moves. -/
def taken (pk : Packet) (bs : Bytes) : ℕ := (min (toInt32 bs.length) pk.space).toNat

def push (pk : Packet) (bs : Bytes) : Packet := { pk with data := pk.data ++ bs }

theorem Ok.space_eq (h : pk.Ok) : pk.space = pk.room := by
  have h1 := h.size_le
  have h2 := h.capacity_lt
  have h3 : 0 ≤ pk.packetSize := Int.natCast_nonneg _
  rw [space, room, toInt32_of_lt (by omega) (by omega)]
  omega

theorem Ok.room_lt (h : pk.Ok) : pk.room < 2 ^ 31 := by
  have h1 := h.size_le
  have h2 := h.capacity_lt
  have h3 : 0 ≤ pk.packetSize := Int.natCast_nonneg _
  unfold room; omega

theorem taken_le_length (pk : Packet) (bs : Bytes) : pk.taken bs ≤ bs.length := by
  have := toInt32_le bs.length
  unfold taken; omega

theorem length_take_taken (pk : Packet) (bs : Bytes) :
    (bs.take (pk.taken bs)).length = pk.taken bs := by
  rw [List.length_take, min_eq_left (pk.taken_le_length bs)]

/-- What is in the packet and what still fits. -/
theorem Ok.room_add (h : pk.Ok) : (pk.room : ℤ) + pk.data.length = pk.capacity := by
  have hle := h.size_le
  unfold room packetSize at *
  omega

theorem Ok.taken_le_room (h : pk.Ok) (bs : Bytes) : pk.taken bs ≤ pk.room := by
  have := h.space_eq
  unfold taken; omega

/-- A buffer shorter than `2^31` fills the packet as far as it reaches. -/
theorem Ok.taken_eq (h : pk.Ok) (hb : bs.length < 2 ^ 31) :
    pk.taken bs = min bs.length pk.room := by
  have hs := h.space_eq
  have ht : toInt32 bs.length = bs.length := toInt32_of_lt (by omega) (by omega)
  unfold taken; omega

theorem packetSize_push (pk : Packet) (bs : Bytes) :
    (pk.push bs).packetSize = pk.packetSize + bs.length := by
  simp [push, packetSize]

theorem Ok.push (h : pk.Ok) (hb : bs.length ≤ pk.room) : (pk.push bs).Ok := by
  have h1 := h.size_le
  refine ⟨?_, h.capacity_lt⟩
  rw [packetSize_push]
  unfold room at hb
  show pk.packetSize + bs.length ≤ pk.capacity
  omega

theorem room_push (pk : Packet) (bs : Bytes) : (pk.push bs).room = pk.room - bs.length := by
  rw [room, packetSize_push, room]
  show (pk.capacity - (pk.packetSize + bs.length)).toNat = _
  omega

/-- `memcpy` stays in range unless the buffer's length is negative as an `int`. -/
theorem Ok.copyIn_eq (h : pk.Ok) (b : WfBuffer) :
    pk.copyIn b (min (toInt32 b.bytes.length) pk.space) =
      if toInt32 b.bytes.length < 0 then .error .copyRange
      else .ok (pk.push (b.bytes.take (pk.taken b.bytes))) := by
  have h1 := toInt32_le b.bytes.length
  have h2 := h.space_eq
  have h3 : pk.capacity - pk.packetSize = pk.room := by
    have := h.size_le
    unfold room; omega
  have hiff : (min (toInt32 b.bytes.length) pk.space < 0 ∨
      (b.readableBytes : ℤ) < min (toInt32 b.bytes.length) pk.space ∨
      pk.capacity - pk.packetSize < min (toInt32 b.bytes.length) pk.space) ↔
      toInt32 b.bytes.length < 0 := by
    rw [WfBuffer.readableBytes_eq]; omega
  unfold copyIn
  simp only [hiff]
  rfl

end Packet

namespace HttpParser

variable {p : HttpParser} {b : WfBuffer}

theorem fill_eq (chunk : Option Packet) (capacity : ℤ) {pk : Packet}
    (hpk : chunk.getD ⟨capacity, []⟩ = pk) (h : pk.Ok) (b : WfBuffer) :
    fill chunk capacity b =
      if toInt32 b.bytes.length < 0 then .error .copyRange
      else .ok (pk.push (b.bytes.take (pk.taken b.bytes)), (pk.taken b.bytes : ℤ),
        b.retrieve (pk.taken b.bytes)) := by
  have hopen : openPacket chunk capacity = .ok pk := by
    subst hpk
    cases chunk with
    | none =>
      have := h.size_le
      have : ¬ capacity < 0 := not_lt.2 this
      simp [openPacket, Packet.newPacket, this]
    | some pk => rfl
  have hcopy := h.copyIn_eq b
  unfold fill
  rw [hopen, WfBuffer.readableBytes_eq]
  by_cases hneg : toInt32 b.bytes.length < 0
  · rw [if_pos hneg] at hcopy ⊢
    simp [bind, Except.bind, hcopy]
  · have hsize : min (toInt32 b.bytes.length) pk.space = (pk.taken b.bytes : ℤ) := by
      have := h.space_eq
      unfold Packet.taken; omega
    rw [if_neg hneg, hsize] at hcopy
    rw [if_neg hneg]
    simp [bind, Except.bind, hsize, hcopy]

/-- A packet of negative size is the only one that is not allocated. -/
theorem fill_negative {capacity : ℤ} (h : capacity < 0) (b : WfBuffer) :
    fill none capacity b = .error .negativePacket := by
  simp [fill, openPacket, Packet.newPacket, h, bind, Except.bind]

/-- The size `NewPacket` is called with in a body state. -/
def bodyCapacity (p : HttpParser) : ℤ :=
  match p.state with
  | .kExpectNormalBody => p.curContentLength
  | .kExpectChunkBody => p.curChunkLength
  | _ => kHttpMaxBodySize

/-- The packet that a body state works on, allocated or about to be. -/
def packet (p : HttpParser) : Packet := p.chunk.getD ⟨p.bodyCapacity, []⟩

def InBody (p : HttpParser) : Prop :=
  p.state = .kExpectNormalBody ∨ p.state = .kExpectStreamBody ∨ p.state = .kExpectChunkBody

/-- The state that completes a body state. -/
def bodyDone : HttpParserState → HttpParserState
  | .kExpectNormalBody => .kExpectHttpComplete
  | _ => .kExpectChunkComplete

/-- A body state whose packet has room left. -/
structure Filling (p : HttpParser) : Prop where
  inBody : p.InBody
  ok : p.packet.Ok
  open' : 0 < p.packet.room
  normal : p.state = .kExpectNormalBody → p.curContentLength = p.packet.room
  chunk : p.state = .kExpectChunkBody → p.curChunkLength = p.packet.room

/-- The parser after `data` has gone into the packet. -/
def advance (p : HttpParser) (data : Bytes) : HttpParser :=
  { p with
    chunk := some (p.packet.push data)
    curContentLength := if p.state = .kExpectNormalBody then p.curContentLength - data.length
      else p.curContentLength
    curChunkLength := if p.state = .kExpectChunkBody then p.curChunkLength - data.length
      else p.curChunkLength
    state := if data.length = p.packet.room then bodyDone p.state else p.state }

@[simp] theorem advance_req (data : Bytes) : (p.advance data).req = p.req := rfl

@[simp] theorem advance_isChunked (data : Bytes) : (p.advance data).isChunked = p.isChunked := rfl

@[simp] theorem advance_chunk (data : Bytes) :
    (p.advance data).chunk = some (p.packet.push data) := rfl

@[simp] theorem advance_packet (data : Bytes) : (p.advance data).packet = p.packet.push data := rfl

theorem advance_state (data : Bytes) : (p.advance data).state =
    if data.length = p.packet.room then bodyDone p.state else p.state := rfl

/-- Data that leaves room leaves the parser in its body state. -/
theorem Filling.advance (h : p.Filling) (data : Bytes) (hd : data.length < p.packet.room) :
    (p.advance data).Filling ∧ (p.advance data).state = p.state := by
  have hs : (p.advance data).state = p.state := by rw [advance_state, if_neg (by omega)]
  have hroom : (p.advance data).packet.room = p.packet.room - data.length := Packet.room_push _ _
  refine ⟨⟨?_, h.ok.push (by omega), by omega, ?_, ?_⟩, hs⟩
  · simpa only [InBody, hs] using h.inBody
  · intro hn
    rw [hs] at hn
    have := h.normal hn
    rw [hroom]
    simp only [HttpParser.advance, hn, if_true]
    omega
  · intro hn
    rw [hs] at hn
    have := h.chunk hn
    rw [hroom]
    simp only [HttpParser.advance, hn, if_true]
    omega

/-- **One call in a body state.** -/
theorem parse_body (h : p.Filling) (hb : b.bytes ≠ []) :
    parse p b =
      if toInt32 b.bytes.length < 0 then .error .copyRange
      else .ok (returned (p.advance (b.bytes.take (p.packet.taken b.bytes)),
        b.retrieve (p.packet.taken b.bytes))) := by
  have hne : ¬ b.readableBytes = 0 := by simpa using hb
  have hlen := p.packet.length_take_taken b.bytes
  have hspace : (p.packet.push (b.bytes.take (p.packet.taken b.bytes))).space =
      p.packet.room - p.packet.taken b.bytes := by
    have hle := h.ok.taken_le_room b.bytes
    rw [(h.ok.push (by rw [hlen]; exact hle)).space_eq, Packet.room_push, hlen]
    omega
  rw [parse, if_neg hne]
  rcases h.inBody with hs | hs | hs
  · have hcap : p.bodyCapacity = p.curContentLength := by rw [bodyCapacity, hs]
    have hfill := fill_eq p.chunk p.curContentLength
      (show p.chunk.getD ⟨p.curContentLength, []⟩ = p.packet by rw [packet, hcap]) h.ok b
    have hcur := h.normal hs
    simp only [hs, parseNormalBody, hfill]
    split_ifs with hneg
    · rfl
    · have hiff : p.curContentLength - (p.packet.taken b.bytes : ℤ) = 0 ↔
          p.packet.taken b.bytes = p.packet.room := by omega
      simp [bind, Except.bind, Except.map, advance, hs, hlen, hiff, bodyDone]
  · have hcap : p.bodyCapacity = kHttpMaxBodySize := by rw [bodyCapacity, hs]
    have hfill := fill_eq p.chunk kHttpMaxBodySize
      (show p.chunk.getD ⟨kHttpMaxBodySize, []⟩ = p.packet by rw [packet, hcap]) h.ok b
    simp only [hs, parseStream, hfill]
    split_ifs with hneg
    · rfl
    · have hiff : ((p.packet.room : ℤ) - p.packet.taken b.bytes = 0) ↔
          p.packet.taken b.bytes = p.packet.room := by omega
      simp [bind, Except.bind, Except.map, advance, hs, hlen, hspace, hiff, bodyDone]
  · have hcap : p.bodyCapacity = p.curChunkLength := by rw [bodyCapacity, hs]
    have hfill := fill_eq p.chunk p.curChunkLength
      (show p.chunk.getD ⟨p.curChunkLength, []⟩ = p.packet by rw [packet, hcap]) h.ok b
    have hcur := h.chunk hs
    simp only [hs, parseChunk, hfill]
    split_ifs with hneg
    · rfl
    · have hiff : (p.curChunkLength - (p.packet.taken b.bytes : ℤ) = 0 ∨
          (p.packet.room : ℤ) - p.packet.taken b.bytes = 0) ↔
          p.packet.taken b.bytes = p.packet.room := by omega
      simp [bind, Except.bind, Except.map, advance, hs, hlen, hspace, hiff, bodyDone]

end HttpParser

end HttpNest
