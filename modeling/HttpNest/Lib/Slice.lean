import Mathlib

/-!
# Reading and writing parts of a vector

`slice v lo hi` is the part of a vector between two positions, `write v pos src` the
vector after `memcpy(&v[pos], src, n)`: `none` if that leaves the vector, and `resize v n x`
the vector after `v.resize(n)`. A
written part reads back (`slice_write`), and the parts before and after it are
unchanged (`slice_write_before`, `slice_write_after`).
-/

namespace Vec

variable {α : Type*} {v w src : List α} {pos lo mid hi : ℕ}

/-- The elements from position `lo` to position `hi`, the latter excluded. -/
def slice (v : List α) (lo hi : ℕ) : List α := (v.drop lo).take (hi - lo)

/-- Overwrite from position `pos` on; `none` if that would leave the vector. -/
def write (v : List α) (pos : ℕ) (src : List α) : Option (List α) :=
  if pos + src.length ≤ v.length then some (v.take pos ++ src ++ v.drop (pos + src.length))
  else none

/-- The first `n` elements, and as many copies of `x` as are missing. -/
def resize (v : List α) (n : ℕ) (x : α) : List α := v.take n ++ List.replicate (n - v.length) x

@[simp] theorem length_resize (v : List α) (n : ℕ) (x : α) : (resize v n x).length = n := by
  simp only [resize, List.length_append, List.length_take, List.length_replicate]
  omega

@[simp] theorem slice_self (v : List α) (lo : ℕ) : slice v lo lo = [] := by simp [slice]

@[simp] theorem length_slice (v : List α) (lo hi : ℕ) :
    (slice v lo hi).length = min (hi - lo) (v.length - lo) := by
  simp [slice]

theorem length_slice_of_le (h : hi ≤ v.length) : (slice v lo hi).length = hi - lo := by
  rw [length_slice]; omega

/-- Neighbouring slices join. -/
theorem slice_append (h₁ : lo ≤ mid) (h₂ : mid ≤ hi) :
    slice v lo mid ++ slice v mid hi = slice v lo hi := by
  have hd : v.drop mid = (v.drop lo).drop (mid - lo) := by
    rw [List.drop_drop, Nat.add_sub_cancel' h₁]
  have hn : hi - lo = (mid - lo) + (hi - mid) := by omega
  unfold slice
  rw [hd, hn, List.take_add]

theorem drop_slice (n : ℕ) : (slice v lo hi).drop n = slice v (lo + n) hi := by
  unfold slice
  rw [List.drop_take, List.drop_drop, Nat.sub_sub]

theorem take_slice {n : ℕ} (h : lo + n ≤ hi) : (slice v lo hi).take n = slice v lo (lo + n) := by
  unfold slice
  rw [List.take_take, Nat.add_sub_cancel_left, min_eq_left (by omega)]

theorem write_eq_some : write v pos src = some w ↔
    pos + src.length ≤ v.length ∧ w = v.take pos ++ src ++ v.drop (pos + src.length) := by
  unfold write
  split_ifs with h
  · simp [h, eq_comm]
  · simp [h]

/-- A write succeeds where the vector has room. -/
theorem write_isSome (h : pos + src.length ≤ v.length) : ∃ w, write v pos src = some w :=
  ⟨_, write_eq_some.2 ⟨h, rfl⟩⟩

theorem length_write (h : write v pos src = some w) : w.length = v.length := by
  obtain ⟨hle, rfl⟩ := write_eq_some.1 h
  simp; omega

/-- A written part reads back. -/
theorem slice_write (h : write v pos src = some w) : slice w pos (pos + src.length) = src := by
  obtain ⟨hle, rfl⟩ := write_eq_some.1 h
  have hp : (v.take pos).length = pos := by rw [List.length_take]; omega
  unfold slice
  rw [List.append_assoc, List.drop_left' hp, Nat.add_sub_cancel_left, List.take_left]

/-- The part before a write is unchanged. -/
theorem slice_write_before (h : write v pos src = some w) (hh : hi ≤ pos) :
    slice w lo hi = slice v lo hi := by
  obtain ⟨hle, rfl⟩ := write_eq_some.1 h
  unfold slice
  rw [← List.drop_take, ← List.drop_take, List.append_assoc,
    List.take_append_of_le_length (by rw [List.length_take]; omega), List.take_take, min_eq_left hh]

/-- The part after a write is unchanged. -/
theorem slice_write_after (h : write v pos src = some w) (hl : pos + src.length ≤ lo) :
    slice w lo hi = slice v lo hi := by
  obtain ⟨hle, rfl⟩ := write_eq_some.1 h
  have hp : (v.take pos ++ src).length = pos + src.length := by
    rw [List.length_append, List.length_take]; omega
  unfold slice
  rw [List.drop_append, List.drop_eq_nil_of_le (by omega), hp, List.drop_drop, List.nil_append,
    Nat.add_sub_cancel' hl]

end Vec
