import HttpNest.Proof.BufferRefine
import HttpNest.Spec.Machine

/-!
# The vector of a buffer

A buffer keeps its vector and its `initCap_`, or takes both from a new buffer
(`Intact.ensure_cases`, `Intact.addInFront_cases`, `Intact.readFd_cases`). A vector is therefore
always eight bytes longer than `initCap_`, whatever it has grown to, and `RetrieveAll`, which
compares it with twice `initCap_`, never cuts one of at least sixteen bytes
(`Intact.retrieveAll`); a shorter one it always cuts, below the reserved front.

On a buffer within its vector (`Intact`) the sums of `size_t` are exact, but for those of
`EnsureWritableBytes` with a length near `2^64` (`Intact.ensure_eq_none_iff`).
-/

namespace HttpNest

open ByteOrder EventRun

namespace MsgBuffer

variable {b b' c : MsgBuffer} {buf data : Bytes} {len n K : ℕ}

/-- `head_ <= tail_ <= buffer_.size()`. -/
structure Bounded (b : MsgBuffer) : Prop where
  head_le : b.head ≤ b.tail
  tail_le : b.tail ≤ b.buffer.length

theorem InvOf.bounded (h : b.InvOf K) : b.Bounded := ⟨h.head_le, h.tail_le⟩

theorem Bounded.inv (h : b.Bounded) : b.InvOf 0 :=
  ⟨h.head_le, h.tail_le, Nat.zero_le _, Nat.zero_le _⟩

theorem bounded_new (len : ℕ) : (new len).Bounded := ⟨le_rfl, by simp [new_def]⟩

/-- A vector of eight bytes more than `initCap_`. -/
def Fitted (b : MsgBuffer) : Prop := b.buffer.length = b.initCap + kBufferOffset

theorem fitted_new (len : ℕ) : (new len).Fitted := by simp [Fitted, new_def]

/-- The vector keeps its length and the buffer its `initCap_`. -/
def SameVector (b b' : MsgBuffer) : Prop :=
  b'.buffer.length = b.buffer.length ∧ b'.initCap = b.initCap

/-- The vector and `initCap_` are those of a buffer constructed with length `n`. -/
def NewVector (n : ℕ) (b' : MsgBuffer) : Prop :=
  b'.buffer.length = n + kBufferOffset ∧ b'.initCap = n

theorem SameVector.fitted (h : SameVector b b') (hb : b.Fitted) : b'.Fitted := by
  unfold Fitted at *
  rw [h.1, h.2, hb]

theorem NewVector.fitted (h : NewVector n b') : b'.Fitted := by
  unfold Fitted
  rw [h.1, h.2]

/-- A call that may grow the buffer for `len` bytes: what becomes of the vector. -/
def GrownFor (A : SizeArith) (b : MsgBuffer) (len : ℕ) (b' : MsgBuffer) : Prop :=
  ¬ A.Grows b len ∧ SameVector b b' ∨ A.Grows b len ∧ NewVector (A.grownLen b len) b'

/-- Only the length of the vector, the two ends and `initCap_` tell. -/
theorem GrownFor.congr {A : SizeArith} (h : GrownFor A c len b')
    (hlen : b.buffer.length = c.buffer.length) (hhead : b.head = c.head) (htail : b.tail = c.tail)
    (hcap : b.initCap = c.initCap) : GrownFor A b len b' := by
  have hwritable : A.writableBytes b = A.writableBytes c := by
    rw [SizeArith.writableBytes, SizeArith.writableBytes, hlen, htail]
  have hgrown : A.grownLen b len = A.grownLen c len := by
    unfold SizeArith.grownLen SizeArith.readableBytes
    rw [hlen, htail, hhead]
  unfold GrownFor SizeArith.Grows SameVector at *
  rw [hwritable, hgrown, hhead, hlen, hcap]
  exact h

/-! ## The operations -/

/-- With room, `Append` only writes. -/
theorem appendWith_of_room (depth : ℕ) (hroom : buf.length ≤ b.writableBytes)
    (hb' : appendWith (ensureWritableBytesTo (depth + 1)) b buf = some b') :
    ∃ v, Vec.write b.buffer b.tail buf = some v ∧
      b' = { b with buffer := v, tail := b.tail + buf.length } := by
  rw [appendWith_def, ensureWritableBytesTo_of_room depth hroom] at hb'
  obtain ⟨v, hv, hb'⟩ := Option.bind_eq_some_iff.1 ((Option.bind_some ..).symm.trans hb')
  cases hb'
  exact ⟨v, hv, rfl⟩

/-- A write behind the readable bytes that succeeds ends within the vector. -/
theorem Bounded.write_tail (h : b.Bounded) {v : Bytes}
    (hv : Vec.write b.buffer b.tail buf = some v) :
    Bounded { b with buffer := v, tail := b.tail + buf.length } := by
  have hhead := h.head_le
  obtain ⟨hle, -⟩ := Vec.write_eq_some.1 hv
  refine ⟨?_, ?_⟩
  · simp only
    omega
  · rw [Vec.length_write hv]
    exact hle

/-- The new buffer has room for what is in the old one. -/
theorem Bounded.readable_le_grownLen (h : b.Bounded) (len : ℕ) :
    b.readable.length ≤ b.grownLen len := by
  rw [readable, Vec.length_slice_of_le h.tail_le, grownLen_def, readableBytes_def]
  split_ifs <;> omega

theorem Bounded.readable_le_frontLen (h : b.Bounded) (len : ℕ) :
    len + b.readable.length ≤ b.frontLen len := by
  rw [readable, Vec.length_slice_of_le h.tail_le, frontLen_def, readableBytes_def]
  split_ifs <;> omega

theorem ensureWritableBytes_cases (h : b.Bounded) (hb' : b.ensureWritableBytes len = some b') :
    b'.Bounded ∧ GrownFor .exact b len b' := by
  have hhead := h.head_le
  rw [ensureWritableBytes_def, ensureWritableBytesTo_succ] at hb'
  split_ifs at hb' with hroom hmove
  · cases hb'
    exact ⟨h, .inl ⟨fun hg => absurd hg.1 (not_lt.2 hroom), rfl, rfl⟩⟩
  · obtain ⟨v, hv, hb'⟩ := Option.bind_eq_some_iff.1 hb'
    cases hb'
    obtain ⟨hle, -⟩ := Vec.write_eq_some.1 hv
    rw [readable, Vec.length_slice_of_le h.tail_le] at hle
    refine ⟨⟨Nat.le_add_right _ _, ?_⟩, .inl ⟨fun hg => absurd hg.2 (not_lt.2 hmove), ?_, rfl⟩⟩
    · rw [Vec.length_write hv]
      exact hle
    · exact Vec.length_write hv
  · obtain ⟨c, hc, hb'⟩ := Option.bind_eq_some_iff.1 hb'
    cases hb'
    have hread : b.readable.length ≤ (new (b.grownLen len)).writableBytes := by
      rw [writableBytes_new]
      exact h.readable_le_grownLen len
    obtain ⟨v, hv, rfl⟩ := appendWith_of_room 0 hread hc
    refine ⟨(bounded_new _).write_tail hv, .inr ⟨⟨not_le.1 hroom, not_le.1 hmove⟩, ?_, rfl⟩⟩
    rw [swap_fst, Vec.length_write hv]
    exact fitted_new _

theorem append_cases (h : b.Bounded) (hb' : b.append buf = some b') :
    b'.Bounded ∧ GrownFor .exact b buf.length b' := by
  obtain ⟨c, hc, hb'⟩ := Option.bind_eq_some_iff.1 hb'
  obtain ⟨v, hv, hb'⟩ := Option.bind_eq_some_iff.1 hb'
  cases hb'
  obtain ⟨hbounded, hcases⟩ := ensureWritableBytes_cases h hc
  refine ⟨hbounded.write_tail hv, ?_⟩
  have hlen := Vec.length_write hv
  rcases hcases with ⟨hg, hsame⟩ | ⟨hg, hnew⟩
  · exact .inl ⟨hg, hlen.trans hsame.1, hsame.2⟩
  · exact .inr ⟨hg, hlen.trans hnew.1, hnew.2⟩

theorem addInFront_cases (h : b.Bounded) (hb' : b.addInFront buf = some b') :
    b'.Bounded ∧ (¬ SizeArith.exact.FrontGrows b buf.length ∧ SameVector b b' ∨
      SizeArith.exact.FrontGrows b buf.length ∧ NewVector (b.frontLen buf.length) b') := by
  have hhead := h.head_le
  have htail := h.tail_le
  rw [addInFront_def] at hb'
  split_ifs at hb' with hfront hroom
  · obtain ⟨v, hv, hb'⟩ := Option.bind_eq_some_iff.1 hb'
    cases hb'
    have hlen := Vec.length_write hv
    refine ⟨⟨?_, htail.trans hlen.ge⟩, .inl ⟨fun hg => absurd hg.1 (not_lt.2 hfront), hlen, rfl⟩⟩
    simp only
    omega
  · obtain ⟨v, hv, hb'⟩ := Option.bind_eq_some_iff.1 hb'
    obtain ⟨w, hw, hb'⟩ := Option.bind_eq_some_iff.1 hb'
    cases hb'
    have hlen : w.length = b.buffer.length := (Vec.length_write hw).trans (Vec.length_write hv)
    rw [writableBytes_def] at hroom
    refine ⟨⟨?_, ?_⟩, .inl ⟨fun hg => absurd hg.2 (not_lt.2 hroom), hlen, rfl⟩⟩
    · simp only
      omega
    · simp only [hlen]
      omega
  · -- the new buffer has room for both parts
    obtain ⟨c, hc, hb'⟩ := Option.bind_eq_some_iff.1 hb'
    obtain ⟨d, hd, hb'⟩ := Option.bind_eq_some_iff.1 hb'
    cases hb'
    have hsum := h.readable_le_frontLen buf.length
    obtain ⟨v, hv, rfl⟩ := appendWith_of_room 1 (by rw [writableBytes_new]; omega) hc
    have hlen : v.length = b.frontLen buf.length + kBufferOffset :=
      (Vec.length_write hv).trans (fitted_new _)
    have hrest : b.readable.length ≤ MsgBuffer.writableBytes
        { new (b.frontLen buf.length) with
          buffer := v, tail := (new (b.frontLen buf.length)).tail + buf.length } := by
      simp only [writableBytes_def, hlen, new_def]
      omega
    obtain ⟨w, hw, rfl⟩ := appendWith_of_room 1 hrest hd
    refine ⟨((bounded_new _).write_tail hv).write_tail hw,
      .inr ⟨⟨not_le.1 hfront, not_le.1 hroom⟩, ?_, rfl⟩⟩
    rw [swap_fst, Vec.length_write hw]
    exact hlen

theorem readFd_cases (h : b.Bounded) (hcount : data.length < 2 ^ 31)
    (hb' : b.readFd data = some b') : b'.Bounded ∧
      (data.length ≤ b.writableBytes ∧ SameVector b b' ∨
        b.writableBytes < data.length ∧
          GrownFor .exact b.filled (data.length - b.writableBytes) b') := by
  have hhead := h.head_le
  have htail := h.tail_le
  rw [readFd_def] at hb'
  obtain ⟨v, hv, hb'⟩ := Option.bind_eq_some_iff.1 hb'
  have hlen := Vec.length_write hv
  split_ifs at hb' with hfits
  · cases hb'
    rw [writableBytes_def] at hfits
    refine ⟨⟨?_, ?_⟩, .inl ⟨hfits, hlen, rfl⟩⟩
    · simp only
      omega
    · simp only [hlen]
      omega
  · -- the offered length was the free part's, so the rest is what did not fit
    have hiov := iovLen_eq (b := b) (by omega)
    have hrest : ((data.drop b.iovLen).take (data.length - b.writableBytes)).length =
        data.length - b.writableBytes := by
      rw [List.length_take, List.length_drop, hiov]
      omega
    have hfull : Bounded { b with buffer := v, tail := v.length } :=
      ⟨by simp only [hlen]; omega, le_rfl⟩
    obtain ⟨hbounded, hcases⟩ := append_cases hfull hb'
    rw [hrest] at hcases
    refine ⟨hbounded, .inr ⟨not_le.1 hfits, ?_⟩⟩
    exact hcases.congr hlen.symm rfl hlen.symm rfl

/-! ## The sums of `size_t` -/

variable {M : Machine} {m n : ℕ}

theorem sizeT_add (h : m + n < 2 ^ 64) : SizeArith.sizeT.add m n = m + n := Nat.mod_eq_of_lt h

theorem sizeT_sub (hle : n ≤ m) (h : m < 2 ^ 64) : SizeArith.sizeT.sub m n = m - n := by
  have hsum : m + (2 ^ 64 - n) = m - n + 2 ^ 64 := by omega
  show (m + (2 ^ 64 - n)) % 2 ^ 64 = m - n
  rw [hsum, Nat.add_mod_right, Nat.mod_eq_of_lt (by omega)]

theorem sizeT_mul (h : m * n < 2 ^ 64) : SizeArith.sizeT.mul m n = m * n := Nat.mod_eq_of_lt h

theorem sizeT_new (h : len + kBufferOffset < 2 ^ 64) : SizeArith.sizeT.new len = new len := by
  rw [SizeArith.new, sizeT_add h, new_def]

theorem length_lt_of_le (h : n ≤ M.limit) : n < 2 ^ 63 :=
  h.trans_lt (M.limit_lt.trans (by decide))

theorem length_beBytes_lt (w : Width) (v : ℕ) : (beBytes w.bytes v).length < 2 ^ 63 := by
  rw [length_beBytes]
  cases w <;> decide

/-- Within its vector, which could be allocated and is as long as `initCap_` says. -/
structure Intact (M : Machine) (b : MsgBuffer) : Prop where
  bounded : b.Bounded
  fitted : b.Fitted
  size_le : b.buffer.length ≤ M.limit

namespace Intact

theorem size_lt (h : b.Intact M) : b.buffer.length < 2 ^ 62 := h.size_le.trans_lt M.limit_lt

theorem readableBytes_eq (h : b.Intact M) : SizeArith.sizeT.readableBytes b = b.readableBytes := by
  have htail := h.bounded.tail_le
  have hsize := h.size_lt
  exact sizeT_sub h.bounded.head_le (by omega)

theorem writableBytes_eq (h : b.Intact M) : SizeArith.sizeT.writableBytes b = b.writableBytes := by
  have hsize := h.size_lt
  exact sizeT_sub h.bounded.tail_le (by omega)

theorem readableBytes_le (h : b.Intact M) : b.readableBytes ≤ b.buffer.length :=
  (Nat.sub_le _ _).trans h.bounded.tail_le

theorem readable_length_lt (h : b.Intact M) : b.readable.length < 2 ^ 63 := by
  have hsize := h.size_lt
  rw [readable, Vec.length_slice]
  omega

/-- With any bytes that are in the memory the sums of a call do not wrap around. -/
theorem sum_lt (h : b.Intact M) (hlen : len < 2 ^ 63) :
    kBufferOffset + b.readableBytes + len + kBufferOffset < 2 ^ 64 := by
  have hoffset : kBufferOffset = 8 := rfl
  have hread := h.readableBytes_le
  have hsize := h.size_lt
  omega

theorem end_lt (h : b.Intact M) : b.head + b.writableBytes < 2 ^ 64 := by
  have hhead := h.bounded.head_le
  have htail := h.bounded.tail_le
  have hsize := h.size_lt
  rw [writableBytes_def]
  omega

theorem grownLen_lt (h : b.Intact M)
    (hsum : kBufferOffset + b.readableBytes + len + kBufferOffset < 2 ^ 64) :
    b.grownLen len + kBufferOffset < 2 ^ 64 := by
  have hoffset : kBufferOffset = 8 := rfl
  have hsize := h.size_lt
  rw [grownLen_def]
  split_ifs <;> omega

theorem frontLen_lt (h : b.Intact M) (hsum : len + b.readableBytes + kBufferOffset < 2 ^ 64) :
    b.frontLen len + kBufferOffset < 2 ^ 64 := by
  have hfitted := h.fitted
  have hsize := h.size_lt
  unfold Fitted at hfitted
  rw [frontLen_def]
  split_ifs <;> omega

theorem grownLen_eq (h : b.Intact M)
    (hsum : kBufferOffset + b.readableBytes + len < 2 ^ 64) :
    SizeArith.sizeT.grownLen b len = b.grownLen len := by
  have hsize := h.size_lt
  rw [SizeArith.grownLen, h.readableBytes_eq, sizeT_mul (by omega),
    sizeT_add (m := kBufferOffset) (by omega), sizeT_add hsum]
  rfl

theorem grows_iff (h : b.Intact M) (hsum : len + kBufferOffset < 2 ^ 64) :
    SizeArith.sizeT.Grows b len ↔ SizeArith.exact.Grows b len := by
  rw [SizeArith.Grows, h.writableBytes_eq, sizeT_add h.end_lt, sizeT_add hsum]
  exact Iff.rfl

end Intact

/-- An append to a buffer that has room. -/
theorem sizeT_appendWith_of_room (depth : ℕ) (hsize : c.buffer.length < 2 ^ 64)
    (hw : SizeArith.sizeT.writableBytes c = c.writableBytes)
    (hroom : buf.length ≤ c.writableBytes) :
    SizeArith.sizeT.appendWith (SizeArith.sizeT.ensureWritableBytesTo (depth + 1)) c buf =
      appendWith (ensureWritableBytesTo (depth + 1)) c buf := by
  have hleft : SizeArith.sizeT.ensureWritableBytesTo (depth + 1) c buf.length = some c := by
    rw [SizeArith.ensureWritableBytesTo, if_pos (hw.symm ▸ hroom)]
  rw [SizeArith.appendWith, hleft, appendWith_def, ensureWritableBytesTo_of_room depth hroom]
  rcases hv : Vec.write c.buffer c.tail buf with _ | v
  · simp [hv]
  · have hle := (Vec.write_eq_some.1 hv).1
    simp [hv, sizeT_add (show c.tail + buf.length < 2 ^ 64 by omega)]

theorem sizeT_appendWith_new (depth : ℕ) (h : n + kBufferOffset < 2 ^ 64)
    (hroom : buf.length ≤ n) :
    SizeArith.sizeT.appendWith (SizeArith.sizeT.ensureWritableBytesTo (depth + 1))
        (SizeArith.sizeT.new n) buf =
      appendWith (ensureWritableBytesTo (depth + 1)) (new n) buf := by
  have hlen : (new n).buffer.length = n + kBufferOffset := fitted_new n
  have hlt : (new n).buffer.length < 2 ^ 64 := by
    rw [hlen]
    exact h
  have hw : SizeArith.sizeT.writableBytes (new n) = (new n).writableBytes := by
    rw [SizeArith.writableBytes, sizeT_sub (bounded_new n).tail_le hlt, writableBytes_def]
  rw [sizeT_new h]
  exact sizeT_appendWith_of_room depth hlt hw (by rwa [writableBytes_new])

theorem Intact.ensureWritableBytes_eq (h : b.Intact M)
    (hsum : kBufferOffset + b.readableBytes + len + kBufferOffset < 2 ^ 64) :
    SizeArith.sizeT.ensureWritableBytes b len = b.ensureWritableBytes len := by
  have hhead := h.bounded.head_le
  have htail := h.bounded.tail_le
  have hsize := h.size_lt
  have hread : b.tail - b.head + kBufferOffset < 2 ^ 64 := by
    rw [readableBytes_def] at hsum
    omega
  rw [SizeArith.ensureWritableBytes, SizeArith.ensureWritableBytesTo, h.writableBytes_eq,
    sizeT_add h.end_lt, sizeT_add (m := len) (by omega), sizeT_sub hhead (by omega),
    sizeT_add (m := kBufferOffset) (by omega), h.grownLen_eq (by omega),
    sizeT_appendWith_new 0 (h.grownLen_lt hsum) (h.bounded.readable_le_grownLen len),
    ensureWritableBytes_def, ensureWritableBytesTo_succ]
  simp only [Option.bind_eq_bind, swap_fst]

/-- Behind a write that stays in the vector the end does not wrap around. -/
theorem sizeT_write_tail (hsize : b.buffer.length < 2 ^ 64) (buf : Bytes) :
    ((Vec.write b.buffer b.tail buf).bind fun v =>
        some { b with buffer := v, tail := SizeArith.sizeT.add b.tail buf.length }) =
      (Vec.write b.buffer b.tail buf).bind fun v =>
        some { b with buffer := v, tail := b.tail + buf.length } := by
  rcases hv : Vec.write b.buffer b.tail buf with _ | v
  · rfl
  · have hle := (Vec.write_eq_some.1 hv).1
    rw [sizeT_add (by omega)]

theorem Intact.append_eq (h : b.Intact M)
    (hsum : kBufferOffset + b.readableBytes + buf.length + kBufferOffset < 2 ^ 64) :
    SizeArith.sizeT.append b buf = b.append buf := by
  have hsize := h.size_lt
  rw [SizeArith.append, SizeArith.appendWith, h.ensureWritableBytes_eq hsum, append_def,
    appendWith_def]
  rcases hc : b.ensureWritableBytes buf.length with _ | c
  · rfl
  · have hlen : c.buffer.length < 2 ^ 64 := by
      rcases (ensureWritableBytes_cases h.bounded hc).2 with ⟨-, hsame⟩ | ⟨-, hnew⟩
      · rw [hsame.1]
        omega
      · rw [hnew.1]
        exact h.grownLen_lt hsum
    exact sizeT_write_tail hlen buf

theorem Intact.frontLen_eq (h : b.Intact M) (hsum : len + b.readableBytes < 2 ^ 64) :
    SizeArith.sizeT.frontLen b len = b.frontLen len := by
  rw [SizeArith.frontLen, h.readableBytes_eq, sizeT_add hsum]
  rfl

theorem Intact.frontGrows_iff (h : b.Intact M) :
    SizeArith.sizeT.FrontGrows b len ↔ SizeArith.exact.FrontGrows b len := by
  rw [SizeArith.FrontGrows, h.writableBytes_eq]
  exact Iff.rfl

theorem Intact.addInFront_eq (h : b.Intact M)
    (hsum : buf.length + b.readableBytes + kBufferOffset < 2 ^ 64) :
    SizeArith.sizeT.addInFront b buf = b.addInFront buf := by
  have hhead := h.bounded.head_le
  have htail := h.bounded.tail_le
  have hsize := h.size_lt
  have hfitted := h.fitted
  unfold Fitted at hfitted
  rw [SizeArith.addInFront, h.writableBytes_eq, addInFront_def]
  split_ifs with hfront hroom
  · rw [sizeT_sub hfront (by omega)]
    rfl
  · rw [writableBytes_def] at hroom
    rw [sizeT_add (by omega)]
    rfl
  · -- the new buffer has room for both parts
    have hlen := h.frontLen_lt hsum
    have hboth := h.bounded.readable_le_frontLen buf.length
    set n := b.frontLen buf.length with hn
    rw [h.frontLen_eq (by omega), ← hn]
    have hfirst : SizeArith.sizeT.append (SizeArith.sizeT.new n) buf = (new n).append buf :=
      sizeT_appendWith_new 1 hlen (by omega)
    rw [hfirst]
    rcases hc : (new n).append buf with _ | c
    · rfl
    · obtain ⟨v, hv, rfl⟩ := appendWith_of_room 1 (by rw [writableBytes_new]; omega) hc
      have hv' : v.length = n + kBufferOffset := (Vec.length_write hv).trans (fitted_new n)
      have hbounded := (bounded_new n).write_tail hv
      refine congrArg (Option.bind · fun newBuf => some (b.swap newBuf).1) ?_
      refine sizeT_appendWith_of_room 1 (hv'.symm ▸ hlen) ?_ ?_
      · rw [SizeArith.writableBytes, sizeT_sub hbounded.tail_le (hv'.symm ▸ hlen),
          writableBytes_def]
      · rw [writableBytes_def, hv', new_def]
        simp only
        omega

theorem Intact.retrieveAll_eq (h : b.Intact M) :
    SizeArith.sizeT.retrieveAll b = b.retrieveAll := by
  have hsize := h.size_lt
  have hfitted := h.fitted
  unfold Fitted at hfitted
  rw [SizeArith.retrieveAll, sizeT_mul (by omega)]
  rfl

theorem Intact.retrieve_eq (h : b.Intact M) (len : ℕ) :
    SizeArith.sizeT.retrieve b len = b.retrieve len := by
  have htail := h.bounded.tail_le
  have hsize := h.size_lt
  rw [SizeArith.retrieve, h.readableBytes_eq, h.retrieveAll_eq, retrieve_def]
  split_ifs with hall
  · rfl
  · rw [readableBytes_def] at hall
    rw [sizeT_add (by omega)]

theorem Intact.iovLen_eq (h : b.Intact M) : SizeArith.sizeT.iovLen b = b.iovLen := by
  rw [SizeArith.iovLen, h.writableBytes_eq, iovLen_def]

theorem Intact.filled (h : b.Intact M) : b.filled.Intact M :=
  ⟨⟨h.bounded.head_le.trans h.bounded.tail_le, le_rfl⟩, h.fitted, h.size_le⟩

theorem Intact.readFd_eq (h : b.Intact M) (hcount : data.length < 2 ^ 31) :
    SizeArith.sizeT.readFd b data = b.readFd data := by
  have hhead := h.bounded.head_le
  have hsize := h.size_lt
  rw [SizeArith.readFd, h.iovLen_eq, h.writableBytes_eq, readFd_def]
  rcases hv : Vec.write b.buffer b.tail (data.take b.iovLen) with _ | v
  · rfl
  · have hlen := Vec.length_write hv
    simp only [Option.bind_eq_bind, Option.bind_some]
    split_ifs with hfits
    · rw [writableBytes_def] at hfits
      have htail := h.bounded.tail_le
      rw [sizeT_add (by omega)]
    · have hfull : Intact M { b with buffer := v, tail := v.length } :=
        ⟨⟨by rw [hlen]; exact hhead.trans h.bounded.tail_le, le_rfl⟩, hlen.trans h.fitted,
          hlen.le.trans h.size_le⟩
      rw [sizeT_sub (by omega) (by omega)]
      refine hfull.append_eq ?_
      rw [readableBytes_def, List.length_take]
      simp only [hlen]
      have hoffset : kBufferOffset = 8 := rfl
      omega

theorem Intact.read_eq (h : b.Intact M) (len : ℕ) : SizeArith.sizeT.read b len = b.read len := by
  rw [SizeArith.read, h.readableBytes_eq, h.retrieve_eq]
  rfl

theorem Intact.readWidth_eq (h : b.Intact M) (e : Endian) (w : Width) :
    SizeArith.sizeT.readWidth e w b = readWidth e w b := by
  cases w with
  | int8 => exact congrArg (peekInt8 e b, ·) (h.retrieve_eq 1)
  | int16 => exact congrArg (peekInt16 e b, ·) (h.retrieve_eq 2)
  | int32 => exact congrArg (peekInt32 e b, ·) (h.retrieve_eq 4)
  | int64 => exact congrArg (peekInt64 e b, ·) (h.retrieve_eq 8)

/-! ### What a call makes of the vector -/

/-- A new buffer whose length wraps around has no room for its reserved front. -/
theorem sizeT_appendWith_wrapped (depth : ℕ) (hn : n < 2 ^ 64)
    (hwrap : 2 ^ 64 ≤ n + kBufferOffset) (hlen : buf.length < 2 ^ 62) :
    SizeArith.sizeT.appendWith (SizeArith.sizeT.ensureWritableBytesTo (depth + 1))
      (SizeArith.sizeT.new n) buf = none := by
  have hoffset : kBufferOffset = 8 := rfl
  have hsize : (SizeArith.sizeT.new n).buffer.length = n + kBufferOffset - 2 ^ 64 := by
    rw [SizeArith.new, List.length_replicate]
    show (n + kBufferOffset) % 2 ^ 64 = n + kBufferOffset - 2 ^ 64
    omega
  have hwritable : buf.length ≤ SizeArith.sizeT.writableBytes (SizeArith.sizeT.new n) := by
    rw [SizeArith.writableBytes, hsize]
    show buf.length ≤ (n + kBufferOffset - 2 ^ 64 + (2 ^ 64 - kBufferOffset)) % 2 ^ 64
    omega
  have hwrite : Vec.write (SizeArith.sizeT.new n).buffer (SizeArith.sizeT.new n).tail buf =
      none := by
    refine if_neg ?_
    show ¬ kBufferOffset + buf.length ≤ _
    omega
  rw [SizeArith.appendWith, SizeArith.ensureWritableBytesTo, if_pos hwritable]
  simp only [Option.bind_eq_bind, Option.bind_some, hwrite, Option.bind_none]

theorem Intact.double_le_grownLen (h : b.Intact M) (len : ℕ) :
    b.buffer.length * 2 ≤ SizeArith.sizeT.grownLen b len := by
  have hsize := h.size_lt
  rw [SizeArith.grownLen, sizeT_mul (by omega)]
  split_ifs with hlt
  · exact le_rfl
  · exact not_lt.1 hlt

theorem sizeT_grownLen_lt (b : MsgBuffer) (len : ℕ) :
    SizeArith.sizeT.grownLen b len < 2 ^ 64 := by
  unfold SizeArith.grownLen
  split_ifs
  · exact Nat.mod_lt _ (by decide)
  · exact Nat.mod_lt _ (by decide)

theorem Intact.ensure_cases (h : b.Intact M) (hshort : ¬ M.TooLong b len)
    (hb' : SizeArith.sizeT.ensureWritableBytes b len = some b') :
    b'.Intact M ∧ GrownFor .sizeT b len b' := by
  have hhead := h.bounded.head_le
  have htail := h.bounded.tail_le
  have hsize := h.size_lt
  unfold SizeArith.ensureWritableBytes at hb'
  rw [SizeArith.ensureWritableBytesTo] at hb'
  split_ifs at hb' with hroom hmove
  · cases hb'
    exact ⟨h, .inl ⟨fun hg => absurd hg.1 (not_lt.2 hroom), rfl, rfl⟩⟩
  · obtain ⟨v, hv, hb'⟩ := Option.bind_eq_some_iff.1 hb'
    cases hb'
    have hvl := Vec.length_write hv
    obtain ⟨hle, -⟩ := Vec.write_eq_some.1 hv
    rw [readable, Vec.length_slice_of_le htail] at hle
    rw [sizeT_sub hhead (by omega), sizeT_add (by omega)]
    refine ⟨⟨⟨Nat.le_add_right _ _, hvl.symm ▸ hle⟩, hvl.trans h.fitted, hvl.le.trans h.size_le⟩,
      .inl ⟨fun hg => absurd hg.2 (not_lt.2 hmove), hvl, rfl⟩⟩
  · obtain ⟨c, hc, hb'⟩ := Option.bind_eq_some_iff.1 hb'
    cases hb'
    have hg : SizeArith.sizeT.Grows b len := ⟨not_le.1 hroom, not_le.1 hmove⟩
    have hdouble := h.double_le_grownLen len
    have hread : b.readable.length = b.tail - b.head := Vec.length_slice_of_le htail
    set n := SizeArith.sizeT.grownLen b len with hn
    rcases lt_or_ge (n + kBufferOffset) (2 ^ 64) with hlt | hwrap
    · rw [sizeT_appendWith_new 0 hlt (by omega)] at hc
      obtain ⟨v, hv, rfl⟩ := appendWith_of_room 0 (by rw [writableBytes_new]; omega) hc
      have hvl : v.length = n + kBufferOffset := (Vec.length_write hv).trans (fitted_new n)
      have hfits : SizeArith.sizeT.add n kBufferOffset ≤ M.limit :=
        not_lt.1 fun hlong => hshort ⟨hg, hlong⟩
      rw [sizeT_add hlt, ← hvl] at hfits
      exact ⟨⟨(bounded_new n).write_tail hv, hvl, hfits⟩, .inr ⟨hg, hvl, rfl⟩⟩
    · rw [sizeT_appendWith_wrapped 0 (sizeT_grownLen_lt b len) hwrap (by omega)] at hc
      cases hc

theorem Intact.sameVector (h : b.Intact M) (hb' : b'.Bounded) (hsame : SameVector b b') :
    b'.Intact M :=
  ⟨hb', hsame.fitted h.fitted, hsame.1.le.trans h.size_le⟩

theorem NewVector.intact (hnew : NewVector n b') (hb' : b'.Bounded)
    (hlen : n + kBufferOffset ≤ M.limit) : b'.Intact M :=
  ⟨hb', hnew.fitted, hnew.1.le.trans hlen⟩

/-- A call on exact sizes, where none of them wraps around. -/
theorem Intact.grownFor (h : b.Intact M) (hb' : b'.Bounded) (hgrown : GrownFor .exact b len b')
    (hsum : kBufferOffset + b.readableBytes + len + kBufferOffset < 2 ^ 64)
    (hshort : ¬ M.TooLong b len) : b'.Intact M ∧ GrownFor .sizeT b len b' := by
  have hoffset : kBufferOffset = 8 := rfl
  have hgrows : SizeArith.sizeT.Grows b len ↔ SizeArith.exact.Grows b len :=
    h.grows_iff (by omega)
  have hlen : SizeArith.sizeT.grownLen b len = b.grownLen len := h.grownLen_eq (by omega)
  rcases hgrown with ⟨hg, hsame⟩ | ⟨hg, hnew⟩
  · exact ⟨h.sameVector hb' hsame, .inl ⟨fun hg' => hg (hgrows.1 hg'), hsame⟩⟩
  · have hfits : SizeArith.sizeT.add (SizeArith.sizeT.grownLen b len) kBufferOffset ≤ M.limit :=
      not_lt.1 fun hlong => hshort ⟨hgrows.2 hg, hlong⟩
    rw [hlen, sizeT_add (h.grownLen_lt hsum)] at hfits
    exact ⟨NewVector.intact hnew hb' hfits, .inr ⟨hgrows.2 hg, hlen.symm ▸ hnew⟩⟩

theorem Intact.append_cases (h : b.Intact M) (hlen : buf.length < 2 ^ 63)
    (hshort : ¬ M.TooLong b buf.length) (hb' : SizeArith.sizeT.append b buf = some b') :
    b'.Intact M ∧ GrownFor .sizeT b buf.length b' := by
  have hsum := h.sum_lt hlen
  rw [h.append_eq hsum] at hb'
  obtain ⟨hbounded, hgrown⟩ := MsgBuffer.append_cases h.bounded hb'
  exact h.grownFor hbounded hgrown hsum hshort

theorem Intact.addInFront_cases (h : b.Intact M) (hlen : buf.length < 2 ^ 63)
    (hshort : ¬ M.FrontTooLong b buf.length) (hb' : SizeArith.sizeT.addInFront b buf = some b') :
    b'.Intact M ∧ (¬ SizeArith.sizeT.FrontGrows b buf.length ∧ SameVector b b' ∨
      SizeArith.sizeT.FrontGrows b buf.length ∧
        NewVector (SizeArith.sizeT.frontLen b buf.length) b') := by
  have hsum : buf.length + b.readableBytes + kBufferOffset < 2 ^ 64 := by
    have := h.sum_lt hlen
    omega
  rw [h.addInFront_eq hsum] at hb'
  have hgrows : SizeArith.sizeT.FrontGrows b buf.length ↔
      SizeArith.exact.FrontGrows b buf.length := h.frontGrows_iff
  have hfront : SizeArith.sizeT.frontLen b buf.length = b.frontLen buf.length :=
    h.frontLen_eq (by omega)
  obtain ⟨hbounded, ⟨hg, hsame⟩ | ⟨hg, hnew⟩⟩ := MsgBuffer.addInFront_cases h.bounded hb'
  · exact ⟨h.sameVector hbounded hsame, .inl ⟨fun hg' => hg (hgrows.1 hg'), hsame⟩⟩
  · have hfits : SizeArith.sizeT.add (SizeArith.sizeT.frontLen b buf.length) kBufferOffset ≤
        M.limit := not_lt.1 fun hlong => hshort ⟨hgrows.2 hg, hlong⟩
    rw [hfront, sizeT_add (h.frontLen_lt hsum)] at hfits
    exact ⟨NewVector.intact hnew hbounded hfits, .inr ⟨hgrows.2 hg, hfront.symm ▸ hnew⟩⟩

theorem Intact.readFd_cases (h : b.Intact M) (hcount : data.length < 2 ^ 31)
    (hshort : ¬ (SizeArith.sizeT.writableBytes b < data.length ∧
      M.TooLong b.filled (SizeArith.sizeT.sub data.length (SizeArith.sizeT.writableBytes b))))
    (hb' : SizeArith.sizeT.readFd b data = some b') : b'.Intact M ∧
      (data.length ≤ b.writableBytes ∧ SameVector b b' ∨ b.writableBytes < data.length ∧
        GrownFor .sizeT b.filled (data.length - b.writableBytes) b') := by
  rw [h.readFd_eq hcount] at hb'
  rw [h.writableBytes_eq] at hshort
  obtain ⟨hbounded, ⟨hfits, hsame⟩ | ⟨hlt, hgrown⟩⟩ := MsgBuffer.readFd_cases h.bounded hcount hb'
  · exact ⟨h.sameVector hbounded hsame, .inl ⟨hfits, hsame⟩⟩
  · rw [sizeT_sub hlt.le (by omega)] at hshort
    obtain ⟨hintact, hgrown'⟩ := h.filled.grownFor hbounded hgrown (h.filled.sum_lt (by omega))
      fun hlong => hshort ⟨hlt, hlong⟩
    exact ⟨hintact, .inr ⟨hlt, hgrown'⟩⟩

/-- **A vector of at least sixteen bytes is not cut.** -/
theorem Intact.retrieveAll (h : b.Intact M) (hcap : kBufferOffset ≤ b.initCap) :
    (SizeArith.sizeT.retrieveAll b).Intact M ∧ SameVector b (SizeArith.sizeT.retrieveAll b) := by
  have hsize := h.fitted
  unfold Fitted at hsize
  have hsame : SameVector b b.retrieveAll := by
    refine ⟨?_, rfl⟩
    rw [retrieveAll_def, if_neg (by omega)]
  rw [h.retrieveAll_eq]
  refine ⟨h.sameVector ⟨le_rfl, ?_⟩ hsame, hsame⟩
  rw [hsame.1, hsize]
  exact Nat.le_add_left _ _

theorem Intact.retrieve (h : b.Intact M)
    (hcap : b.readableBytes ≤ len → kBufferOffset ≤ b.initCap) :
    (SizeArith.sizeT.retrieve b len).Intact M ∧ SameVector b (SizeArith.sizeT.retrieve b len) := by
  have hhead := h.bounded.head_le
  rw [SizeArith.retrieve, h.readableBytes_eq]
  split_ifs with hall
  · exact h.retrieveAll (hcap hall)
  · have htail := h.bounded.tail_le
    have hsize := h.size_lt
    rw [readableBytes_def] at hall
    rw [sizeT_add (by omega)]
    exact ⟨⟨⟨by simp only; omega, htail⟩, h.fitted, h.size_le⟩, rfl, rfl⟩

/-! ### Which calls return -/

/-- The sums of `EnsureWritableBytes(len)` wrap around: it moves the content where there is no
room for it, or takes a vector that is shorter than the reserved front. -/
def WrapsFor (b : MsgBuffer) (len : ℕ) : Prop :=
  SizeArith.sizeT.Moves b len ∧
      b.buffer.length < kBufferOffset + SizeArith.sizeT.readableBytes b ∨
    SizeArith.sizeT.Grows b len ∧ 2 ^ 64 ≤ SizeArith.sizeT.grownLen b len + kBufferOffset

/-- **`EnsureWritableBytes` writes outside the vector exactly if its sums wrap around.** -/
theorem Intact.ensure_eq_none_iff (h : b.Intact M) (len : ℕ) :
    SizeArith.sizeT.ensureWritableBytes b len = none ↔ b.WrapsFor len := by
  have hhead := h.bounded.head_le
  have htail := h.bounded.tail_le
  have hsize := h.size_lt
  have hread : b.readable.length = b.readableBytes := Vec.length_slice_of_le htail
  have hle := h.readableBytes_le
  unfold WrapsFor SizeArith.ensureWritableBytes
  rw [SizeArith.ensureWritableBytesTo, h.readableBytes_eq]
  split_ifs with hroom hmove
  · refine iff_of_false (fun hn => (by cases hn)) ?_
    rintro (⟨hm, -⟩ | ⟨hg, -⟩)
    · exact absurd hm.1 (not_lt.2 hroom)
    · exact absurd hg.1 (not_lt.2 hroom)
  · constructor
    · intro hn
      refine .inl ⟨⟨not_le.1 hroom, hmove⟩, ?_⟩
      by_contra hle'
      obtain ⟨v, hv⟩ : ∃ v, Vec.write b.buffer kBufferOffset b.readable = some v :=
        Vec.write_isSome (by omega)
      simp [hv] at hn
    · rintro (⟨-, hlt⟩ | ⟨hg, -⟩)
      · have hv : Vec.write b.buffer kBufferOffset b.readable = none := if_neg (by omega)
        simp [hv]
      · exact absurd hg.2 (not_lt.2 hmove)
  · have hdouble := h.double_le_grownLen len
    set n := SizeArith.sizeT.grownLen b len
    constructor
    · intro hn
      refine .inr ⟨⟨not_le.1 hroom, not_le.1 hmove⟩, ?_⟩
      by_contra hlt
      have hroom : b.readable.length ≤ (new n).writableBytes := by
        rw [writableBytes_new]
        omega
      obtain ⟨c, hc, -⟩ : ∃ c, appendWith (ensureWritableBytesTo 1) (new n) b.readable = some c ∧
          c.InvOf 0 ∧ c.readable = (new n).readable ++ b.readable :=
        appendWith_spec
          ⟨new n, ensureWritableBytesTo_of_room 0 hroom, new_inv (Nat.zero_le _), hroom, rfl⟩
      rw [sizeT_appendWith_new 0 (not_le.1 hlt) (by omega), hc] at hn
      cases hn
    · rintro (⟨hm, -⟩ | ⟨-, hwrap⟩)
      · exact absurd hm.2 hmove
      · rw [sizeT_appendWith_wrapped 0 (sizeT_grownLen_lt b len) hwrap (by omega)]
        rfl

theorem Intact.exists_append (h : b.Intact M) (hlen : buf.length < 2 ^ 63) :
    ∃ b', SizeArith.sizeT.append b buf = some b' := by
  obtain ⟨b', hb', -⟩ := append_spec h.bounded.inv buf
  exact ⟨b', (h.append_eq (h.sum_lt hlen)).trans hb'⟩

theorem Intact.exists_addInFront (h : b.Intact M) (hlen : buf.length < 2 ^ 63) :
    ∃ b', SizeArith.sizeT.addInFront b buf = some b' := by
  have hsum := h.sum_lt hlen
  obtain ⟨b', hb', -⟩ := addInFront_spec h.bounded.inv buf
  exact ⟨b', (h.addInFront_eq (by omega)).trans hb'⟩

theorem Intact.exists_readFd (h : b.Intact M) (hoff : data.length ≤ SizeArith.sizeT.offered b)
    (hcount : data.length < 2 ^ 31) : ∃ b', SizeArith.sizeT.readFd b data = some b' := by
  rw [SizeArith.offered, h.iovLen_eq, h.writableBytes_eq] at hoff
  obtain ⟨b', hb', -⟩ := readFd_spec h.bounded.inv hoff hcount
  exact ⟨b', (h.readFd_eq hcount).trans hb'⟩

end MsgBuffer

end HttpNest
