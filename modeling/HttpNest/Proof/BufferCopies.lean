import HttpNest.Proof.BufferMemory
import HttpNest.Spec.BufferCopies

/-!
# The copies within a buffer

`EnsureWritableBytes` moves the readable bytes towards the front, to a position before them,
unless `len + 8` wraps around. `AddInFront` moves them towards the end, where the first byte's
target is one of them if less is prepended than is readable. `sound_copies_iff` says exactly
when `std::copy` may be used. A reachable buffer is intact or, behind a call that has cut its
vector or where the constructor's length wraps around, has nothing readable (`Held`).
-/

namespace HttpNest

open ByteOrder EventRun MsgBuffer

namespace MsgBuffer

variable {M : Machine} {b b' : MsgBuffer} {buf data : Bytes} {len n : ℕ}

/-- The ends are behind a vector shorter than the reserved front, which a call has cut to
`initCap_` or a length that wraps around has left. -/
structure Behind (b : MsgBuffer) : Prop where
  head_eq : b.head = kBufferOffset
  tail_eq : b.tail = kBufferOffset
  size_lt : b.buffer.length < kBufferOffset
  cap : b.initCap = b.buffer.length ∨ b.initCap < 2 ^ 64 ∧ 2 ^ 64 ≤ b.initCap + kBufferOffset

/-- What every reachable buffer is. -/
def Held (M : Machine) (b : MsgBuffer) : Prop := b.Intact M ∨ b.Behind

/-- A new buffer has the room it was asked for, or its length wraps around and `WritableBytes()`
does too. -/
theorem sizeT_writableBytes_new (h : n < 2 ^ 64) :
    SizeArith.sizeT.writableBytes (SizeArith.sizeT.new n) = n := by
  have hoffset : kBufferOffset = 8 := rfl
  have hsize : (SizeArith.sizeT.new n).buffer.length = (n + kBufferOffset) % 2 ^ 64 :=
    List.length_replicate
  rw [SizeArith.writableBytes, hsize]
  show ((n + kBufferOffset) % 2 ^ 64 + (2 ^ 64 - kBufferOffset)) % 2 ^ 64 = n
  omega

theorem held_new {len : ℕ} (hlen : len < 2 ^ 64)
    (hfits : SizeArith.sizeT.add len kBufferOffset ≤ M.limit) :
    (SizeArith.sizeT.new len).Held M := by
  have hoffset : kBufferOffset = 8 := rfl
  rcases lt_or_ge (len + kBufferOffset) (2 ^ 64) with hlt | hwrap
  · rw [sizeT_add hlt] at hfits
    rw [sizeT_new hlt]
    exact .inl ⟨bounded_new _, fitted_new _, (fitted_new _).le.trans hfits⟩
  · have hsize : (SizeArith.sizeT.new len).buffer.length = (len + kBufferOffset) % 2 ^ 64 :=
      List.length_replicate
    exact .inr ⟨rfl, rfl, by omega, .inr ⟨hlen, hwrap⟩⟩

namespace Behind

variable (h : b.Behind)
include h

theorem readable_eq : b.readable = [] := by
  rw [readable, h.head_eq, h.tail_eq, Vec.slice_self]

theorem readableBytes_eq : SizeArith.sizeT.readableBytes b = 0 := by
  rw [SizeArith.readableBytes, h.head_eq, h.tail_eq]
  rfl

/-- `WritableBytes()` wraps around. -/
theorem writableBytes_eq :
    SizeArith.sizeT.writableBytes b = b.buffer.length + (2 ^ 64 - kBufferOffset) := by
  have hoffset : kBufferOffset = 8 := rfl
  have hlt := h.size_lt
  rw [SizeArith.writableBytes, h.tail_eq]
  show (b.buffer.length + (2 ^ 64 - kBufferOffset)) % 2 ^ 64 = _
  omega

/-- Nothing can be written at the tail or behind it. -/
theorem write_eq_none {pos : ℕ} (hpos : kBufferOffset ≤ pos) (v : Bytes) :
    Vec.write b.buffer pos v = none := by
  have hlt := h.size_lt
  exact if_neg (by omega)

theorem append_eq_none (hlen : buf.length < 2 ^ 63) : SizeArith.sizeT.append b buf = none := by
  have hoffset : kBufferOffset = 8 := rfl
  have hw := h.writableBytes_eq
  rw [SizeArith.append, SizeArith.appendWith, SizeArith.ensureWritableBytes,
    SizeArith.ensureWritableBytesTo, if_pos (by omega)]
  simp only [Option.bind_eq_bind, Option.bind_some, h.write_eq_none h.tail_eq.ge, Option.bind_none]

theorem addInFront_eq_none (hlen : buf.length < 2 ^ 63) :
    SizeArith.sizeT.addInFront b buf = none := by
  have hoffset : kBufferOffset = 8 := rfl
  have hw := h.writableBytes_eq
  have hlt := h.size_lt
  rw [SizeArith.addInFront, h.head_eq]
  split_ifs with hfront
  · have hv : Vec.write b.buffer (kBufferOffset - buf.length) buf = none := if_neg (by omega)
    simp only [hv, Option.bind_eq_bind, Option.bind_none]
  · simp only [h.write_eq_none (Nat.le_add_right _ _), Option.bind_eq_bind, Option.bind_none]
  · omega

theorem readFd_eq_none : SizeArith.sizeT.readFd b data = none := by
  rw [SizeArith.readFd]
  simp only [h.write_eq_none h.tail_eq.ge, Option.bind_eq_bind, Option.bind_none]

theorem retrieveAll : (SizeArith.sizeT.retrieveAll b).Behind := by
  have hoffset : kBufferOffset = 8 := rfl
  have hlt := h.size_lt
  have hcap := h.cap
  have hkeep : ¬ b.buffer.length > SizeArith.sizeT.mul b.initCap 2 := by
    show ¬ b.buffer.length > b.initCap * 2 % 2 ^ 64
    omega
  rw [SizeArith.retrieveAll, if_neg hkeep]
  exact ⟨rfl, rfl, hlt, hcap⟩

theorem retrieve (len : ℕ) : (SizeArith.sizeT.retrieve b len).Behind := by
  rw [SizeArith.retrieve, if_pos (h.readableBytes_eq.trans_le (Nat.zero_le len))]
  exact h.retrieveAll

end Behind

/-- Asked for more than `WritableBytes()` says, such a buffer takes a new one. -/
theorem Behind.ensureWritableBytes (h : b.Behind) (hlen : len < 2 ^ 64)
    (hshort : ¬ M.TooLong b len)
    (hb' : SizeArith.sizeT.ensureWritableBytes b len = some b') : b'.Held M := by
  have hoffset : kBufferOffset = 8 := rfl
  have hlt := h.size_lt
  have hw := h.writableBytes_eq
  have hend : SizeArith.sizeT.add b.head (SizeArith.sizeT.writableBytes b) = b.buffer.length := by
    rw [h.head_eq, hw]
    show (kBufferOffset + (b.buffer.length + (2 ^ 64 - kBufferOffset))) % 2 ^ 64 = _
    omega
  have hsum : SizeArith.sizeT.add len kBufferOffset = (len + kBufferOffset) % 2 ^ 64 := rfl
  unfold SizeArith.ensureWritableBytes at hb'
  rw [SizeArith.ensureWritableBytesTo] at hb'
  split_ifs at hb' with hroom hmove
  · cases hb'
    exact .inr h
  · omega
  · obtain ⟨c, hc, hb'⟩ := Option.bind_eq_some_iff.1 hb'
    cases hb'
    have hg : SizeArith.sizeT.Grows b len := ⟨not_le.1 hroom, not_le.1 hmove⟩
    have hn : SizeArith.sizeT.grownLen b len + kBufferOffset < 2 ^ 64 := by
      have hmul : SizeArith.sizeT.mul b.buffer.length 2 = b.buffer.length * 2 :=
        sizeT_mul (by omega)
      have hnew : SizeArith.sizeT.add (SizeArith.sizeT.add kBufferOffset 0) len =
          (kBufferOffset + len) % 2 ^ 64 := rfl
      rw [SizeArith.grownLen, h.readableBytes_eq, hmul, hnew]
      split_ifs <;> omega
    have hfits : SizeArith.sizeT.add (SizeArith.sizeT.grownLen b len) kBufferOffset ≤ M.limit :=
      not_lt.1 fun hlong => hshort ⟨hg, hlong⟩
    rw [sizeT_add hn] at hfits
    rw [h.readable_eq, sizeT_appendWith_new 0 hn (Nat.zero_le _)] at hc
    obtain ⟨v, hv, rfl⟩ := appendWith_of_room 0 (Nat.zero_le _) hc
    have hvl : v.length = SizeArith.sizeT.grownLen b len + kBufferOffset :=
      (Vec.length_write hv).trans (fitted_new _)
    exact .inl ⟨(bounded_new _).write_tail hv, hvl, hvl.le.trans hfits⟩

namespace Held

theorem append (h : b.Held M) (hlen : buf.length < 2 ^ 63) (hshort : ¬ M.TooLong b buf.length)
    (hb' : SizeArith.sizeT.append b buf = some b') : b'.Held M := by
  rcases h with h | h
  · exact .inl (h.append_cases hlen hshort hb').1
  · rw [h.append_eq_none hlen] at hb'
    cases hb'

theorem addInFront (h : b.Held M) (hlen : buf.length < 2 ^ 63)
    (hshort : ¬ M.FrontTooLong b buf.length)
    (hb' : SizeArith.sizeT.addInFront b buf = some b') : b'.Held M := by
  rcases h with h | h
  · exact .inl (h.addInFront_cases hlen hshort hb').1
  · rw [h.addInFront_eq_none hlen] at hb'
    cases hb'

theorem ensureWritableBytes (h : b.Held M) (hlen : len < 2 ^ 64) (hshort : ¬ M.TooLong b len)
    (hb' : SizeArith.sizeT.ensureWritableBytes b len = some b') : b'.Held M := by
  rcases h with h | h
  · exact .inl (h.ensure_cases hshort hb').1
  · exact h.ensureWritableBytes hlen hshort hb'

theorem readFd (h : b.Held M) (hcount : data.length < 2 ^ 31)
    (hshort : ¬ (SizeArith.sizeT.writableBytes b < data.length ∧
      M.TooLong b.filled (SizeArith.sizeT.sub data.length (SizeArith.sizeT.writableBytes b))))
    (hb' : SizeArith.sizeT.readFd b data = some b') : b'.Held M := by
  rcases h with h | h
  · exact .inl (h.readFd_cases hcount hshort hb').1
  · rw [h.readFd_eq_none] at hb'
    cases hb'

/-- Emptying a short buffer leaves it behind its vector. -/
theorem retrieve (h : b.Held M) (len : ℕ) : (SizeArith.sizeT.retrieve b len).Held M := by
  rcases h with h | h
  · by_cases hcut : b.readableBytes ≤ len ∧ b.initCap < kBufferOffset
    · have hfitted := h.fitted
      unfold Fitted at hfitted
      rw [SizeArith.retrieve, if_pos (h.readableBytes_eq.trans_le hcut.1), h.retrieveAll_eq,
        retrieveAll_def, if_pos (by omega)]
      exact .inr ⟨rfl, rfl, (Vec.length_resize ..).trans_lt hcut.2,
        .inl (Vec.length_resize ..).symm⟩
    · exact .inl (h.retrieve fun hall => not_lt.1 fun hlt => hcut ⟨hall, hlt⟩).1
  · exact .inr (h.retrieve len)

theorem retrieveAll (h : b.Held M) : (SizeArith.sizeT.retrieveAll b).Held M := by
  have hall := h.retrieve (SizeArith.sizeT.readableBytes b)
  rwa [SizeArith.retrieve, if_pos le_rfl] at hall

theorem unwrite (h : b.Held M) {offset : ℕ} (hle : offset ≤ SizeArith.sizeT.readableBytes b) :
    (SizeArith.sizeT.unwrite b offset).Held M := by
  rcases h with h | h
  · have hhead := h.bounded.head_le
    have htail := h.bounded.tail_le
    have hsize := h.size_lt
    rw [h.readableBytes_eq, readableBytes_def] at hle
    rw [SizeArith.unwrite, sizeT_sub (by omega) (by omega)]
    exact .inl ⟨⟨by simp only; omega, by simp only; omega⟩, h.fitted, h.size_le⟩
  · rw [h.readableBytes_eq] at hle
    have htail := h.tail_eq
    rw [SizeArith.unwrite, Nat.le_zero.1 hle, sizeT_sub (Nat.zero_le _) (by rw [htail]; decide)]
    exact .inr h

theorem fill (h : b.Held M) (hb' : b.fill buf = some b') :
    (SizeArith.sizeT.hasWritten b' buf.length).Held M := by
  obtain ⟨v, hv, hb'⟩ := Option.bind_eq_some_iff.1 hb'
  cases hb'
  rcases h with h | h
  · have hle := (Vec.write_eq_some.1 hv).1
    have hsize := h.size_lt
    have hend := sizeT_add (show b.tail + buf.length < 2 ^ 64 by omega)
    simp only [SizeArith.hasWritten, hend]
    exact .inl ⟨h.bounded.write_tail hv, (Vec.length_write hv).trans h.fitted,
      (Vec.length_write hv).le.trans h.size_le⟩
  · rw [h.write_eq_none h.tail_eq.ge] at hv
    cases hv

theorem readable_length_lt (h : b.Held M) : b.readable.length < 2 ^ 63 := by
  rcases h with h | h
  · exact h.readable_length_lt
  · rw [h.readable_eq]
    decide

end Held

/-! ## The copies of one call -/

/-- A buffer with room makes no copy. -/
theorem ensureCopies_of_room (h : len ≤ SizeArith.sizeT.writableBytes b) :
    SizeArith.sizeT.ensureCopies b len = [] := by
  rw [SizeArith.ensureCopies, SizeArith.ensureCopiesTo, if_pos h]

/-- What `EnsureWritableBytes` copies: nothing in the new buffer. -/
theorem Held.ensureCopies_eq (h : b.Held M) (len : ℕ) : SizeArith.sizeT.ensureCopies b len =
    if SizeArith.sizeT.Moves b len then [(b.buffer, ⟨b.head, b.tail, kBufferOffset⟩)] else [] := by
  have hroom : SizeArith.sizeT.readableBytes b ≤
      SizeArith.sizeT.writableBytes (SizeArith.sizeT.new (SizeArith.sizeT.grownLen b len)) := by
    rw [sizeT_writableBytes_new (sizeT_grownLen_lt b len)]
    rcases h with h | h
    · have hdouble := h.double_le_grownLen len
      have htail := h.bounded.tail_le
      rw [h.readableBytes_eq, readableBytes_def]
      omega
    · rw [h.readableBytes_eq]
      exact Nat.zero_le _
  rw [SizeArith.ensureCopies, SizeArith.ensureCopiesTo, SizeArith.ensureCopiesTo, if_pos hroom]
  by_cases h1 : SizeArith.sizeT.writableBytes b ≥ len
  · rw [if_pos h1, if_neg (fun hc => absurd hc.1 (not_lt.2 h1))]
  · rw [if_neg h1]
    by_cases h2 : SizeArith.sizeT.add b.head (SizeArith.sizeT.writableBytes b) ≥
        SizeArith.sizeT.add len kBufferOffset
    · rw [if_pos h2, if_pos ⟨not_le.1 h1, h2⟩]
    · rw [if_neg h2, if_neg (fun hc => h2 hc.2)]

/-- What `AddInFront` copies: nothing in the new buffer. -/
theorem Held.addInFrontCopies_eq (h : b.Held M) (hlen : buf.length < 2 ^ 62) :
    SizeArith.sizeT.addInFrontCopies b buf =
      if b.head < buf.length ∧ buf.length ≤ SizeArith.sizeT.writableBytes b then
        [(b.buffer, ⟨b.head, b.tail, b.head + buf.length⟩)]
      else [] := by
  have hoffset : kBufferOffset = 8 := rfl
  unfold SizeArith.addInFrontCopies
  by_cases h1 : b.head ≥ buf.length
  · rw [if_pos h1, if_neg (fun hc => absurd hc.1 (not_lt.2 h1))]
  rw [if_neg h1]
  by_cases h2 : buf.length ≤ SizeArith.sizeT.writableBytes b
  · rw [if_pos h2, if_pos ⟨not_le.1 h1, h2⟩]
  rw [if_neg h2, if_neg (fun hc => h2 hc.2)]
  rcases h with h | h
  · -- the new buffer has room for both parts, so it does not grow
    have hsize := h.size_lt
    have htail := h.bounded.tail_le
    have hfitted := h.fitted
    unfold Fitted at hfitted
    have hread : b.readableBytes ≤ b.buffer.length := by
      rw [readableBytes_def]
      omega
    rw [h.frontLen_eq (by omega)]
    have hn : b.frontLen buf.length + kBufferOffset < 2 ^ 64 ∧
        buf.length + b.readableBytes ≤ b.frontLen buf.length := by
      rw [frontLen_def]
      split_ifs <;> omega
    set n := b.frontLen buf.length
    have hfirst : SizeArith.sizeT.ensureCopies (SizeArith.sizeT.new n) buf.length = [] :=
      ensureCopies_of_room (by rw [sizeT_writableBytes_new (by omega)]; omega)
    have hsecond : (SizeArith.sizeT.append (SizeArith.sizeT.new n) buf).elim []
        (fun c => SizeArith.sizeT.ensureCopies c (SizeArith.sizeT.readableBytes b)) = [] := by
      have happend : SizeArith.sizeT.append (SizeArith.sizeT.new n) buf = (new n).append buf :=
        sizeT_appendWith_new 1 hn.1 (by omega)
      rw [happend]
      rcases hc : (new n).append buf with _ | c
      · rfl
      · obtain ⟨v, hv, rfl⟩ := appendWith_of_room 1 (by rw [writableBytes_new]; omega) hc
        have hvl : v.length = n + kBufferOffset := (Vec.length_write hv).trans (fitted_new n)
        have hw : SizeArith.sizeT.sub v.length (kBufferOffset + buf.length) = n - buf.length := by
          rw [hvl, sizeT_sub (by omega) hn.1]
          omega
        refine ensureCopies_of_room ?_
        rw [h.readableBytes_eq]
        exact (show b.readableBytes ≤ n - buf.length by omega).trans hw.ge
    simp only [hfirst, hsecond, List.append_nil]
  · -- such a buffer has all the room of a `size_t`
    have hw := h.writableBytes_eq
    omega

/-- The readable bytes, if there are any, are in the vector. -/
structure Ordered (b : MsgBuffer) : Prop where
  head_le : b.head ≤ b.tail
  tail_le : b.head < b.tail → b.tail ≤ b.buffer.length

theorem Held.ordered (h : b.Held M) : b.Ordered := by
  rcases h with h | h
  · exact ⟨h.bounded.head_le, fun _ => h.bounded.tail_le⟩
  · refine ⟨(h.head_eq.trans h.tail_eq.symm).le, fun hlt => ?_⟩
    rw [h.head_eq, h.tail_eq] at hlt
    exact absurd hlt (lt_irrefl _)

/-- The readable bytes move unchanged exactly if the first one's target is not among them, and
there is room for them. -/
theorem Ordered.sound_iff (h : b.Ordered) (result : ℕ) :
    Copy.Sound b.buffer ⟨b.head, b.tail, result⟩ ↔ b.readableBytes = 0 ∨
      Vec.Apart b.head b.tail result ∧ result + b.readableBytes ≤ b.buffer.length := by
  rcases Nat.eq_or_lt_of_le h.head_le with heq | hlt
  · -- nothing is copied
    refine iff_of_true ⟨?_, b.buffer, ?_, ?_⟩
      (.inl (by rw [readableBytes_def, heq, Nat.sub_self]))
    · unfold Vec.Apart
      simp only
      omega
    · simp only [heq, Nat.sub_self]
      rfl
    · simp [heq]
  · constructor
    · rintro ⟨hapart, w, hw, -⟩
      exact .inr ⟨hapart, Vec.room_of_copyForward hw (Nat.sub_pos_of_lt hlt)⟩
    · rintro (hzero | ⟨hapart, hroom⟩)
      · exact absurd (Nat.sub_eq_zero_iff_le.1 hzero) (not_le.2 hlt)
      · exact ⟨hapart, Vec.exists_copyForward hapart h.head_le (h.tail_le hlt) hroom⟩

end MsgBuffer

/-- The bytes to prepend are in the memory. -/
def RoomCall.Takes (M : Machine) : RoomCall → Prop
  | ensureWritableBytes _ => True
  | addInFront buf => buf.length ≤ M.limit

instance (M : Machine) : DecidablePred (RoomCall.Takes M)
  | .ensureWritableBytes _ => inferInstanceAs (Decidable True)
  | .addInFront _ => inferInstanceAs (Decidable (_ ≤ _))

/-- For `EnsureWritableBytes`: `len + 8` does not wrap around, or nothing is moved, or the readable
bytes are behind the reserved front, or all in it with room for them behind it. For `AddInFront`:
the bytes fit in front of `head_`, or do not fit behind `tail_`, or at least as many are prepended
as are readable. -/
def RoomCall.Clear (b : MsgBuffer) : RoomCall → Prop
  | ensureWritableBytes len => len.toNat < 2 ^ 64 - kBufferOffset ∨
    ¬ SizeArith.sizeT.Moves b len.toNat ∨ SizeArith.sizeT.readableBytes b = 0 ∨
      kBufferOffset < b.head ∨ b.tail ≤ kBufferOffset ∧
        kBufferOffset + SizeArith.sizeT.readableBytes b ≤ b.buffer.length
  | addInFront buf => buf.length ≤ b.head ∨ SizeArith.sizeT.writableBytes b < buf.length ∨
    SizeArith.sizeT.readableBytes b ≤ buf.length

namespace MsgBuffer

variable {M : Machine} {b : MsgBuffer}

theorem Held.ensure_sound_iff (h : b.Held M) (len : BitVec 64) :
    (∀ c ∈ (RoomCall.ensureWritableBytes len).copies b, c.2.Sound c.1) ↔
      (RoomCall.ensureWritableBytes len).Clear b := by
  simp only [RoomCall.copies, h.ensureCopies_eq, RoomCall.Clear]
  by_cases hc : SizeArith.sizeT.Moves b len.toNat
  · rw [if_pos hc]
    simp only [List.mem_singleton, forall_eq]
    rw [h.ordered.sound_iff]
    simp only [hc, not_true_eq_false, false_or]
    rcases h with h | h
    · have hlen : len.toNat < 2 ^ 64 := len.isLt
      have hhead := h.bounded.head_le
      have htail := h.bounded.tail_le
      have hsize := h.size_lt
      have hoffset : kBufferOffset = 8 := rfl
      obtain ⟨hlt, hle⟩ := hc
      rw [h.writableBytes_eq, writableBytes_def] at hlt hle
      rw [sizeT_add (m := b.head) (by omega)] at hle
      have hsum : (len.toNat + kBufferOffset) % 2 ^ 64 ≤
          b.head + (b.buffer.length - b.tail) := hle
      rw [h.readableBytes_eq, readableBytes_def]
      unfold Vec.Apart
      omega
    · have hzero : b.readableBytes = 0 := by
        rw [readableBytes_def, h.head_eq, h.tail_eq, Nat.sub_self]
      exact iff_of_true (.inl hzero) (.inr (.inl h.readableBytes_eq))
  · rw [if_neg hc]
    exact iff_of_true (fun c hc => by cases hc) (.inr (.inl hc))

theorem Held.addInFront_sound_iff (h : b.Held M) {buf : Bytes} (hlen : buf.length ≤ M.limit) :
    (∀ c ∈ (RoomCall.addInFront buf).copies b, c.2.Sound c.1) ↔
      (RoomCall.addInFront buf).Clear b := by
  have hlimit := M.limit_lt
  have hordered := h.ordered
  simp only [RoomCall.copies, h.addInFrontCopies_eq (hlen.trans_lt hlimit), RoomCall.Clear]
  by_cases hc : b.head < buf.length ∧ buf.length ≤ SizeArith.sizeT.writableBytes b
  · rw [if_pos hc]
    simp only [List.mem_singleton, forall_eq]
    rw [hordered.sound_iff]
    rcases h with h | h
    · have hhead := h.bounded.head_le
      have htail := h.bounded.tail_le
      rw [h.writableBytes_eq, writableBytes_def] at hc
      rw [h.writableBytes_eq, h.readableBytes_eq, writableBytes_def, readableBytes_def]
      unfold Vec.Apart
      omega
    · have hzero : b.readableBytes = 0 := by
        rw [readableBytes_def, h.head_eq, h.tail_eq, Nat.sub_self]
      refine iff_of_true (.inl hzero) (.inr (.inr ?_))
      rw [h.readableBytes_eq]
      exact Nat.zero_le _
  · rw [if_neg hc]
    exact iff_of_true (fun c hc => by cases hc) (by omega)

end MsgBuffer

/-! ## Reachable buffers -/

variable {ι : Type} [DecidableEq ι] {e : Endian} {M : Machine} {L : ι → ℕ} {ops : List (Op ι)}
  {s t : Pool ι} {op : Op ι}

theorem held_set (h : ∀ j, (s.buf j).Held M) (i : ι) {b : MsgBuffer} (hb : b.Held M) :
    ∀ j, ((s.set i b).buf j).Held M :=
  Pool.forall_set (P := fun _ => Held M) h i hb

theorem held_map_set (h : ∀ j, (s.buf j).Held M) (i : ι) {r : Option MsgBuffer}
    (hr : ∀ b, r = some b → b.Held M) (ht : r.map (s.set i) = some t) :
    ∀ j, (t.buf j).Held M :=
  Pool.forall_map_set (P := fun _ => Held M) h i hr ht

theorem held_thrown (h : ∀ j, (s.buf j).Held M) (ht : Machine.thrown s op = some t) :
    ∀ j, (t.buf j).Held M := by
  cases op with
  | readFd i data =>
    simp only [Machine.thrown] at ht
    obtain ⟨v, hv, rfl⟩ := Option.map_eq_some_iff.1 ht
    have hlen := Vec.length_write hv
    refine held_set h i ?_
    rcases h i with hi | hi
    · refine .inl ⟨⟨?_, le_rfl⟩, hlen.trans hi.fitted, hlen.le.trans hi.size_le⟩
      rw [hlen]
      exact hi.bounded.head_le.trans hi.bounded.tail_le
    · rw [hi.write_eq_none hi.tail_eq.ge] at hv
      cases hv
  | _ =>
    cases ht
    exact h

/-- **A call keeps every buffer held.** -/
theorem held_step (h : ∀ j, (s.buf j).Held M) (ha : M.Allowed s op)
    (ht : M.step e s op = some t) : ∀ j, (t.buf j).Held M := by
  unfold Machine.step at ht
  split_ifs at ht with hthrows
  · exact held_thrown h ht
  cases op with
  | append i buf =>
    have hlen := length_lt_of_le (show buf.length ≤ M.limit from ha.2)
    exact held_map_set h i (fun b hb => (h i).append hlen hthrows hb) ht
  | appendBuffer i k =>
    have hlen := (h k).readable_length_lt
    exact held_map_set h i (fun b hb => (h i).append hlen hthrows hb) ht
  | appendInt w i v =>
    simp only [SizeArith.step, appendWidth_eq] at ht
    rw [Machine.Throws, ← length_beBytes w.bytes v] at hthrows
    exact held_map_set h i (fun b hb => (h i).append (length_beBytes_lt w v) hthrows hb) ht
  | addInFront i buf =>
    have hlen := length_lt_of_le (show buf.length ≤ M.limit from ha.2)
    exact held_map_set h i (fun b hb => (h i).addInFront hlen hthrows hb) ht
  | addInFrontInt w i v =>
    simp only [SizeArith.step, addInFrontWidth_eq] at ht
    rw [Machine.Throws, ← length_beBytes w.bytes v] at hthrows
    exact held_map_set h i (fun b hb => (h i).addInFront (length_beBytes_lt w v) hthrows hb) ht
  | retrieve i len =>
    cases ht
    exact held_set h i ((h i).retrieve len)
  | retrieveUntil i offset =>
    cases ht
    exact held_set h i ((h i).retrieve _)
  | retrieveAll i =>
    cases ht
    exact held_set h i (h i).retrieveAll
  | read i len =>
    cases ht
    exact held_set (s := s.put _) h i ((h i).retrieve _)
  | readInt w i =>
    cases ht
    rw [snd_readWidth]
    exact held_set (s := s.put _) h i ((h i).retrieve _)
  | ensureWritableBytes i len =>
    exact held_map_set h i (fun b hb => (h i).ensureWritableBytes ha.2 hthrows hb) ht
  | hasWritten i buf =>
    obtain ⟨b, hb, rfl⟩ := Option.map_eq_some_iff.1 ht
    exact held_set h i ((h i).fill hb)
  | unwrite i offset =>
    cases ht
    exact held_set h i ((h i).unwrite ha.1)
  | swap i k =>
    cases ht
    exact held_set (held_set h i (h k)) k (h i)
  | readFd i data =>
    obtain ⟨-, hcount⟩ := (show _ ∧ _ from ha.1)
    simp only [SizeArith.step] at ht
    exact held_map_set h i (fun b hb => (h i).readFd hcount hthrows hb) ht
  | readFdError i =>
    cases ht
    exact h

theorem held_run (hL : M.Constructs L)
    (ha : Meets (M.step e) M.Allowed (SizeArith.sizeT.init L) ops)
    (hs : run (M.step e) (SizeArith.sizeT.init L) ops = some s) : ∀ j, (s.buf j).Held M := by
  refine run_inv_of_meets (C := fun s op => M.Allowed s op) (fun s => ∀ j, (s.buf j).Held M) ?_
    (fun j => held_new (hL j).1 (hL j).2) ha hs
  intro s op t h hop ht
  exact held_step h hop ht

/-- **When `std::copy` may be used.** On every buffer that allowed calls reach, every copy of
`EnsureWritableBytes` and `AddInFront` meets the precondition of `std::copy`, and moves the
readable bytes unchanged element by element, exactly if the call is clear. -/
theorem sound_copies_iff (hL : M.Constructs L)
    (ha : Meets (M.step e) M.Allowed (SizeArith.sizeT.init L) ops)
    (hs : run (M.step e) (SizeArith.sizeT.init L) ops = some s) (i : ι) {call : RoomCall}
    (hcall : call.Takes M) :
    (∀ c ∈ call.copies (s.buf i), c.2.Sound c.1) ↔ call.Clear (s.buf i) := by
  have hheld := held_run hL ha hs i
  cases call with
  | ensureWritableBytes len => exact hheld.ensure_sound_iff len
  | addInFront buf => exact hheld.addInFront_sound_iff hcall

/-- Nine bytes in front of nine others, which move out of their way. -/
theorem sound_copies_iff_nine : ∃ s, run (Machine.userSpace.step .little)
      (SizeArith.sizeT.init fun _ : Unit => 32)
      [.append () [1, 2, 3, 4, 5, 6, 7, 8, 9]] = some s ∧
      ∀ c ∈ (RoomCall.addInFront [1, 2, 3, 4, 5, 6, 7, 8, 9]).copies (s.buf ()),
        c.2.Sound c.1 := by
  have hrun : run (Machine.userSpace.step .little) (SizeArith.sizeT.init fun _ : Unit => 32)
      [.append () [1, 2, 3, 4, 5, 6, 7, 8, 9]] = some _ := rfl
  have hallowed : Meets (Machine.userSpace.step .little) Machine.userSpace.Allowed
      (SizeArith.sizeT.init fun _ : Unit => 32) [.append () [1, 2, 3, 4, 5, 6, 7, 8, 9]] :=
    ⟨⟨trivial, by decide⟩, fun _ _ => trivial⟩
  exact ⟨_, hrun, (sound_copies_iff (by decide) hallowed hrun () (by decide)).2
    (.inr (.inr (by decide)))⟩

/-- Ten readable bytes: the first of them would be copied over the last. -/
theorem addInFront_overlaps : ¬ ∀ (M : Machine) (L : Unit → ℕ) (ops : List (Op Unit))
    (s : Pool Unit), M.Constructs L →
      Meets (M.step .little) M.Allowed (SizeArith.sizeT.init L) ops →
      run (M.step .little) (SizeArith.sizeT.init L) ops = some s →
      ∀ call : RoomCall, call.Takes M → ∀ c ∈ call.copies (s.buf ()), c.2.Sound c.1 := by
  intro h
  have hsound := h .userSpace (fun _ => 32) [.append () [1, 2, 3, 4, 5, 6, 7, 8, 9, 10]] _
    (by decide) ⟨⟨trivial, by decide⟩, fun _ _ => trivial⟩ rfl
    (.addInFront [1, 2, 3, 4, 5, 6, 7, 8, 9]) (by decide) _ (List.mem_singleton_self _)
  have hapart := hsound.1
  revert hapart
  decide

end HttpNest
