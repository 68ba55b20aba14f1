import HttpNest.Lib.EventRun
import HttpNest.Spec.MsgBuffer

/-!
# `MsgBuffer` is a byte list

`Inv` is `head_ <= tail_ <= buffer_.size()`, with a constructor length of at least
the reserved front. One specification lemma for each operation says that it does
not write outside the vector, keeps `Inv`, and what it does to the readable bytes
(`ensureWritableBytes_spec`, `append_spec`, `addInFront_spec`, `readFd_spec`, …).
-/

namespace HttpNest

open ByteOrder CNumeral

namespace MsgBuffer

/-- `head_ <= tail_ <= buffer_.size()`, and a vector and `initCap_` of at least `K`. -/
structure InvOf (K : ℕ) (b : MsgBuffer) : Prop where
  head_le : b.head ≤ b.tail
  tail_le : b.tail ≤ b.buffer.length
  cap_le : K ≤ b.initCap
  size_le : K ≤ b.buffer.length

/-- The invariant of every buffer that is constructed with at least the reserved front. -/
abbrev Inv (b : MsgBuffer) : Prop := b.InvOf kBufferOffset

variable {K : ℕ} {b : MsgBuffer} {buf : Bytes} {len : ℕ}

theorem length_readable (h : b.InvOf K) : b.readable.length = b.readableBytes :=
  Vec.length_slice_of_le h.tail_le

theorem new_inv (h : K ≤ len) : (new len).InvOf K :=
  ⟨le_rfl, by simp [new_def], h, by simp [new_def]; omega⟩

@[simp] theorem readable_new (len : ℕ) : (new len).readable = [] := by simp [readable, new_def]

@[simp] theorem writableBytes_new (len : ℕ) : (new len).writableBytes = len := by
  simp [writableBytes_def, new_def]

theorem swap_fst (b c : MsgBuffer) : (b.swap c).1 = c := rfl

/-- Writing at `BeginWrite()` and moving it, where there is room. -/
theorem write_tail (h : b.InvOf K) (hroom : buf.length ≤ b.writableBytes) :
    ∃ v, Vec.write b.buffer b.tail buf = some v ∧ v.length = b.buffer.length ∧
      InvOf K { b with buffer := v, tail := b.tail + buf.length } ∧
      MsgBuffer.readable { b with buffer := v, tail := b.tail + buf.length } =
        b.readable ++ buf := by
  have hle := h.tail_le
  have hfit : b.tail + buf.length ≤ b.buffer.length := by
    rw [writableBytes_def] at hroom
    omega
  obtain ⟨v, hv⟩ := Vec.write_isSome hfit
  have hlen := Vec.length_write hv
  refine ⟨v, hv, hlen, ⟨?_, ?_, h.cap_le, hlen ▸ h.size_le⟩, ?_⟩
  · have := h.head_le; simp only; omega
  · simp only; omega
  · simp only [readable]
    rw [← Vec.slice_append h.head_le (Nat.le_add_right _ _), Vec.slice_write hv,
      Vec.slice_write_before hv le_rfl]

/-- What `EnsureWritableBytes(len)` is to do on `b`. -/
def Ensures (K : ℕ) (ensure : MsgBuffer → ℕ → Option MsgBuffer) (b : MsgBuffer) (len : ℕ) : Prop :=
  ∃ b', ensure b len = some b' ∧ b'.InvOf K ∧ len ≤ b'.writableBytes ∧ b'.readable = b.readable

theorem appendWith_spec {ensure : MsgBuffer → ℕ → Option MsgBuffer}
    (he : Ensures K ensure b buf.length) :
    ∃ b', appendWith ensure b buf = some b' ∧ b'.InvOf K ∧ b'.readable = b.readable ++ buf := by
  obtain ⟨b₁, hb₁, hinv, hroom, hread⟩ := he
  obtain ⟨v, hv, -, hinv', hread'⟩ := write_tail hinv hroom
  refine ⟨{ b₁ with buffer := v, tail := b₁.tail + buf.length }, ?_, hinv', ?_⟩
  · simp [appendWith_def, hb₁, hv]
  · rw [hread', hread]

/-- With room, `EnsureWritableBytes` leaves the buffer alone. -/
theorem ensureWritableBytesTo_of_room (depth : ℕ) (h : len ≤ b.writableBytes) :
    ensureWritableBytesTo (depth + 1) b len = some b := by
  rw [ensureWritableBytesTo_succ, if_pos h]

/-- Moving the readable bytes to the reserved front's end makes room. -/
theorem compact_spec (h : b.InvOf K) (hlt : b.writableBytes < len)
    (hroom : len + kBufferOffset ≤ b.head + b.writableBytes) :
    ∃ v, Vec.write b.buffer kBufferOffset b.readable = some v ∧
      InvOf K { b with
        buffer := v, head := kBufferOffset, tail := kBufferOffset + (b.tail - b.head) } ∧
      len ≤ MsgBuffer.writableBytes { b with
        buffer := v, head := kBufferOffset, tail := kBufferOffset + (b.tail - b.head) } ∧
      MsgBuffer.readable { b with
        buffer := v, head := kBufferOffset, tail := kBufferOffset + (b.tail - b.head) } =
          b.readable := by
  have h1 := h.head_le
  have h2 := h.tail_le
  have hlr : b.readable.length = b.tail - b.head := length_readable h
  simp only [writableBytes_def] at hlt hroom ⊢
  obtain ⟨v, hv⟩ := Vec.write_isSome
    (show kBufferOffset + b.readable.length ≤ b.buffer.length by omega)
  have hlen := Vec.length_write hv
  refine ⟨v, hv, ⟨Nat.le_add_right _ _, ?_, h.cap_le, hlen ▸ h.size_le⟩, ?_, ?_⟩
  · simp only; omega
  · omega
  · simp only [readable] at hlr hv ⊢
    rw [← hlr]
    exact Vec.slice_write hv

/-- **`EnsureWritableBytes(len)` leaves `WritableBytes() >= len` and the content
unchanged.** -/
theorem ensureWritableBytes_spec (h : b.InvOf K) (len : ℕ) :
    Ensures K ensureWritableBytes b len := by
  unfold Ensures
  rw [ensureWritableBytes_def, ensureWritableBytesTo_succ]
  split_ifs with hroom hmove
  · exact ⟨b, rfl, h, hroom, rfl⟩
  · obtain ⟨v, hv, hinv, hw, hr⟩ := compact_spec h (by omega) hmove
    exact ⟨_, by simp [hv], hinv, hw, hr⟩
  · -- the new buffer has room for the old content, and after it for `len` bytes
    have hlen : kBufferOffset + b.readableBytes + len ≤ b.grownLen len := by
      rw [grownLen_def]; split_ifs <;> omega
    have hlr := length_readable h
    have hroom' : b.readable.length ≤ (new (b.grownLen len)).writableBytes := by
      rw [writableBytes_new]; omega
    have hcap : K ≤ b.grownLen len := by
      have hsize := h.size_le
      rw [grownLen_def]
      split_ifs <;> omega
    obtain ⟨v, hv, hvl, hinv, hread⟩ := write_tail (new_inv hcap) hroom'
    refine ⟨_, ?_, hinv, ?_, ?_⟩
    · simp [appendWith_def, ensureWritableBytesTo_of_room 0 hroom', hv, swap_fst]
    · simp only [writableBytes_def, hvl, new_def, List.length_replicate]; omega
    · rw [hread, readable_new, List.nil_append]

theorem append_spec (h : b.InvOf K) (buf : Bytes) :
    ∃ b', b.append buf = some b' ∧ b'.InvOf K ∧ b'.readable = b.readable ++ buf :=
  appendWith_spec (ensureWritableBytes_spec h buf.length)

/-- A property that a buffer keeps while it makes room and is written to. -/
structure RoomKept (P : MsgBuffer → Prop) : Prop where
  write : ∀ {b : MsgBuffer} {buf v : Bytes}, P b → Vec.write b.buffer b.tail buf = some v →
    P { b with buffer := v, tail := b.tail + buf.length }
  move : ∀ {b : MsgBuffer} {v : Bytes}, P b → Vec.write b.buffer kBufferOffset b.readable = some v →
    P { b with buffer := v, head := kBufferOffset, tail := kBufferOffset + (b.tail - b.head) }
  grown : ∀ {b : MsgBuffer} (len : ℕ), P b → P (new (b.grownLen len))

theorem RoomKept.appendWith {P : MsgBuffer → Prop} (hP : RoomKept P) {b' : MsgBuffer}
    {ensure : MsgBuffer → ℕ → Option MsgBuffer}
    (he : ∀ c, ensure b buf.length = some c → P c)
    (hb' : MsgBuffer.appendWith ensure b buf = some b') : P b' := by
  obtain ⟨c, hc, hb'⟩ := Option.bind_eq_some_iff.1 hb'
  obtain ⟨v, hv, hb'⟩ := Option.bind_eq_some_iff.1 hb'
  cases hb'
  exact hP.write (he c hc) hv

theorem RoomKept.ensureTo {P : MsgBuffer → Prop} (hP : RoomKept P) (depth : ℕ) :
    ∀ {b b' : MsgBuffer} {len : ℕ}, P b → ensureWritableBytesTo depth b len = some b' → P b' := by
  induction depth with
  | zero =>
    intro b b' len _ hb'
    cases hb'
  | succ depth ih =>
    intro b b' len h hb'
    rw [ensureWritableBytesTo_succ] at hb'
    split_ifs at hb'
    · cases hb'
      exact h
    · obtain ⟨v, hv, hb'⟩ := Option.bind_eq_some_iff.1 hb'
      cases hb'
      exact hP.move h hv
    · obtain ⟨c, hc, hb'⟩ := Option.bind_eq_some_iff.1 hb'
      cases hb'
      exact hP.appendWith (fun d hd => ih (hP.grown len h) hd) hc

theorem RoomKept.ensureWritableBytes {P : MsgBuffer → Prop} (hP : RoomKept P) {b' : MsgBuffer}
    (h : P b) (hb' : b.ensureWritableBytes len = some b') : P b' :=
  hP.ensureTo 2 h hb'

theorem RoomKept.append {P : MsgBuffer → Prop} (hP : RoomKept P) {b' : MsgBuffer} (h : P b)
    (hb' : b.append buf = some b') : P b' :=
  hP.appendWith (fun _ hc => hP.ensureWritableBytes h hc) hb'

theorem retrieveAll_spec (h : b.Inv) : b.retrieveAll.Inv ∧ b.retrieveAll.readable = [] := by
  have hsize : kBufferOffset ≤ b.retrieveAll.buffer.length := by
    have h1 := h.cap_le
    have h2 := h.size_le
    rw [retrieveAll_def]
    split_ifs with hs
    · rw [Vec.length_resize]; exact h1
    · exact h2
  exact ⟨⟨le_rfl, hsize, h.cap_le, hsize⟩, by simp [readable, retrieveAll_def]⟩

theorem retrieve_spec (h : b.Inv) (len : ℕ) :
    (b.retrieve len).Inv ∧ (b.retrieve len).readable = b.readable.drop len := by
  have hlr := length_readable h
  rw [retrieve_def]
  split_ifs with hle
  · obtain ⟨hinv, hread⟩ := retrieveAll_spec h
    exact ⟨hinv, by rw [hread, List.drop_eq_nil_of_le (by omega)]⟩
  · have h1 := h.head_le
    have h2 := h.tail_le
    rw [readableBytes_def] at hle
    refine ⟨⟨by simp only; omega, h2, h.cap_le, h.size_le⟩, ?_⟩
    simp only [readable, Vec.drop_slice]

theorem retrieveUntil_spec (h : b.Inv) (offset : ℕ) :
    (b.retrieveUntil (b.head + offset)).Inv ∧
      (b.retrieveUntil (b.head + offset)).readable = b.readable.drop offset := by
  rw [retrieveUntil_def]
  rw [Nat.add_sub_cancel_left]
  exact retrieve_spec h offset

theorem read_spec (h : b.Inv) (len : ℕ) :
    (b.read len).2.Inv ∧ (b.read len).1 = b.readable.take len ∧
      (b.read len).2.readable = b.readable.drop len := by
  have hlr := length_readable h
  have h1 := h.head_le
  set n := if len > b.readableBytes then b.readableBytes else len with hn
  have hle : n ≤ b.readableBytes := by rw [hn]; split_ifs <;> omega
  have hmin : b.readable.take n = b.readable.take len ∧
      b.readable.drop n = b.readable.drop len := by
    rw [hn]
    split_ifs with hlt
    · rw [← hlr, List.take_length, List.drop_length, List.take_of_length_le (by omega),
        List.drop_eq_nil_of_le (by omega)]
      exact ⟨rfl, rfl⟩
    · exact ⟨rfl, rfl⟩
  obtain ⟨hinv, hread⟩ := retrieve_spec h n
  refine ⟨hinv, ?_, hread.trans hmin.2⟩
  rw [readableBytes_def] at hle
  rw [← hmin.1, readable, Vec.take_slice (by omega)]
  rfl

theorem hasWritten_spec (h : b.InvOf K) (hroom : buf.length ≤ b.writableBytes) :
    ∃ b', b.fill buf = some b' ∧ (b'.hasWritten buf.length).InvOf K ∧
      (b'.hasWritten buf.length).readable = b.readable ++ buf := by
  obtain ⟨v, hv, -, hinv, hread⟩ := write_tail h hroom
  exact ⟨{ b with buffer := v }, by simp [fill, hv], hinv, hread⟩

theorem unwrite_spec (h : b.InvOf K) {offset : ℕ} (hle : offset ≤ b.readableBytes) :
    (b.unwrite offset).InvOf K ∧
      (b.unwrite offset).readable = b.readable.take (b.readable.length - offset) := by
  have h1 := h.head_le
  have h2 := h.tail_le
  have hlr := length_readable h
  simp only [readableBytes_def] at hle hlr
  refine ⟨⟨by simp only [unwrite_def]; omega, by simp only [unwrite_def]; omega, h.cap_le,
    h.size_le⟩, ?_⟩
  have htail : b.tail - offset = b.head + (b.readable.length - offset) := by omega
  simp only [readable, unwrite_def] at htail ⊢
  rw [Vec.take_slice (by omega), htail]

/-- **`AddInFront` prepends**, whether it uses the front, shifts, or grows. -/
theorem addInFront_spec (h : b.InvOf K) (buf : Bytes) :
    ∃ b', b.addInFront buf = some b' ∧ b'.InvOf K ∧ b'.readable = buf ++ b.readable := by
  have h1 := h.head_le
  have h2 := h.tail_le
  have hlr := length_readable h
  rw [addInFront_def]
  split_ifs with hfront hshift
  -- the front is long enough
  · obtain ⟨v, hv⟩ := Vec.write_isSome
      (show b.head - buf.length + buf.length ≤ b.buffer.length by omega)
    have hlen := Vec.length_write hv
    have hend : b.head - buf.length + buf.length = b.head := by omega
    have hs := Vec.slice_write hv
    rw [hend] at hs
    refine ⟨{ b with buffer := v, head := b.head - buf.length }, by simp [hv],
      ⟨by simp only; omega, by simp only; omega, h.cap_le, hlen ▸ h.size_le⟩, ?_⟩
    simp only [readable]
    rw [← Vec.slice_append (show b.head - buf.length ≤ b.head by omega) h1, hs,
      Vec.slice_write_after hv (by omega)]
  -- the free part behind is: the readable bytes are moved into it first
  · rw [readableBytes_def] at hlr
    rw [writableBytes_def] at hshift
    obtain ⟨v, hv⟩ := Vec.write_isSome
      (show b.head + buf.length + b.readable.length ≤ b.buffer.length by omega)
    have hlen := Vec.length_write hv
    obtain ⟨w, hw⟩ := Vec.write_isSome (show b.head + buf.length ≤ v.length by omega)
    have hlen' := Vec.length_write hw
    have hend : b.head + buf.length + b.readable.length = b.tail + buf.length := by omega
    have hs := Vec.slice_write hv
    rw [hend] at hs
    refine ⟨{ b with buffer := w, tail := b.tail + buf.length }, by simp [hv, hw],
      ⟨by simp only; omega, by simp only; omega, h.cap_le, ?_⟩, ?_⟩
    · have := h.size_le; simp only; omega
    · -- the new bytes, then the old ones where the shift put them
      simp only [readable] at hs ⊢
      rw [← Vec.slice_append (show b.head ≤ b.head + buf.length by omega) (by omega),
        Vec.slice_write hw, Vec.slice_write_after hw le_rfl, hs]
  -- neither is: all goes into a new buffer
  · have hcap : K ≤ b.frontLen buf.length := by
      have := h.cap_le
      have := h.size_le
      rw [writableBytes_def] at hshift
      rw [frontLen_def, readableBytes_def]
      split_ifs <;> omega
    obtain ⟨c, hc, hcinv, hcread⟩ := append_spec (new_inv hcap) buf
    obtain ⟨d, hd, hdinv, hdread⟩ := append_spec hcinv b.readable
    refine ⟨d, by simp [hc, hd, swap_fst], hdinv, ?_⟩
    rw [hdread, hcread, readable_new, List.nil_append]

/-- Below `2^31` the offered length is the free part's. -/
theorem iovLen_eq (h : b.writableBytes < 2 ^ 31) : b.iovLen = b.writableBytes := by
  rw [iovLen_def, toInt32_of_lt (by omega) (by omega)]
  omega

/-- A free part longer than `extBuffer` is offered alone. -/
theorem offered_of_le (h : 2 ^ 31 ≤ b.writableBytes) : b.offered = b.iovLen := by
  have hext : ¬ b.writableBytes < extBufferSize := by
    have : extBufferSize ≤ 2 ^ 31 := by decide
    omega
  rw [offered_def, if_neg hext, Nat.add_zero]

/-- **`ReadFd` appends what `readv` delivers**, into the vector's free part or, past
it, through `extBuffer`. A count below `2^31` never leaves the vector, although the
offered length goes through `int`. -/
theorem readFd_spec (h : b.InvOf K) {data : Bytes} (hoff : data.length ≤ b.offered)
    (hcount : data.length < 2 ^ 31) :
    ∃ b', b.readFd data = some b' ∧ b'.InvOf K ∧ b'.readable = b.readable ++ data := by
  have hiov : data.length ≤ b.iovLen ∧ data.length ≤ b.writableBytes ∨
      b.iovLen = b.writableBytes := by
    by_cases hw : b.writableBytes < 2 ^ 31
    · exact .inr (iovLen_eq hw)
    · rw [offered_of_le (not_lt.1 hw)] at hoff
      exact .inl ⟨hoff, by omega⟩
  have htake : (data.take b.iovLen).length ≤ b.writableBytes := by
    rw [List.length_take]; omega
  obtain ⟨v, hv, hvl, hinv, hread⟩ := write_tail h htake
  rw [readFd_def]
  by_cases hle : data.length ≤ b.writableBytes
  · rw [List.take_of_length_le (by omega)] at hv hinv hread
    refine ⟨_, ?_, hinv, hread⟩
    rw [List.take_of_length_le (by omega), hv]
    simp [hle]
  · -- the vector is full and the rest, in `extBuffer`, is appended
    have htl : b.tail + (data.take b.iovLen).length = v.length := by
      have := h.tail_le
      rw [List.length_take, hvl]
      simp only [writableBytes_def] at *
      omega
    rw [htl] at hinv hread
    obtain ⟨b', hb', hinv', hread'⟩ := append_spec hinv
      ((data.drop b.iovLen).take (data.length - b.writableBytes))
    refine ⟨b', by simpa [hv, hle] using hb', hinv', ?_⟩
    rw [hread', hread, List.append_assoc,
      List.take_of_length_le (l := data.drop b.iovLen) (by rw [List.length_drop]; omega),
      List.take_append_drop]

/-! ## Integers -/

theorem appendInt_eq (A : SizeArith) (e : Endian) (k : ℕ) (b : MsgBuffer) (v : ℕ) :
    A.appendInt e k b v = A.append b (beBytes k v) := by
  rw [SizeArith.appendInt, store_hton]

theorem addInFrontInt_eq (A : SizeArith) (e : Endian) (k : ℕ) (b : MsgBuffer) (v : ℕ) :
    A.addInFrontInt e k b v = A.addInFront b (beBytes k v) := by
  rw [SizeArith.addInFrontInt, store_hton]

/-- One byte has no order. -/
theorem store_one (e : Endian) (v : ℕ) : e.store 1 v = beBytes 1 v := by
  cases e <;> rfl

theorem load_one (e : Endian) {bs : Bytes} (h : bs.length = 1) : e.load bs = ofBE bs := by
  obtain ⟨c, rfl⟩ := List.length_eq_one_iff.1 h
  cases e <;> rfl

/-- The `k` readable bytes that `PeekInt*` reads. -/
theorem slice_head (h : b.InvOf K) {k : ℕ} (hk : k ≤ b.readableBytes) :
    Vec.slice b.buffer b.head (b.head + k) = b.readable.take k := by
  have := h.head_le
  rw [readableBytes_def] at hk
  rw [readable, Vec.take_slice (by omega)]

theorem peekInt_eq (e : Endian) (h : b.InvOf K) {k : ℕ} (hk : k ≤ b.readableBytes) :
    peekInt e k b = ofBE (b.readable.take k) := by
  have hl : (b.readable.take k).length = k := by
    rw [List.length_take, length_readable h]; omega
  have := hton_load e (b.readable.take k)
  rw [hl] at this
  rw [peekInt, peekRaw, slice_head h hk, this]

theorem peekInt8_eq (e : Endian) (h : b.InvOf K) (hk : 1 ≤ b.readableBytes) :
    peekInt8 e b = ofBE (b.readable.take 1) := by
  rw [peekInt8, peekRaw, slice_head h hk]
  exact load_one e (by rw [List.length_take, length_readable h]; omega)

end MsgBuffer
end HttpNest
