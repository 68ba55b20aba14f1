import HttpNest.Lib.Slice

/-!
# Copying forward within a vector

`copyForward n v first result` copies `n` elements one after the other, the first one first,
as the C++ standard says of `std::copy`. Where the target does not begin within the source
(`Apart`), an element is read before it is overwritten, and the copy writes the source as it was
(`copyForward_eq_write`).
-/

namespace Vec

variable {α : Type*} {v w : List α} {n first last result : ℕ}

/-- Element by element; `none` where that leaves the vector. -/
def copyForward : ℕ → List α → ℕ → ℕ → Option (List α)
  | 0, v, _, _ => some v
  | n + 1, v, first, result => do
    let x ← v[first]?
    if result < v.length then copyForward n (v.set result x) (first + 1) (result + 1) else none

/-- The target does not begin within `[first, last)`. -/
def Apart (first last result : ℕ) : Prop := ¬ (first ≤ result ∧ result < last)

instance (first last result : ℕ) : Decidable (Apart first last result) :=
  inferInstanceAs (Decidable (¬ _))

/-- A part that does not hold the position. -/
theorem slice_set (x : α) {i lo hi : ℕ} (h : i < lo ∨ hi ≤ i) :
    slice (v.set i x) lo hi = slice v lo hi := by
  refine List.ext_getElem? fun j => ?_
  simp only [slice, List.getElem?_take, List.getElem?_drop]
  split_ifs with hj
  · exact List.getElem?_set_ne (by omega)
  · rfl

theorem slice_eq_cons {lo hi : ℕ} (hlo : lo < hi) (hlen : lo < v.length) :
    slice v lo hi = v[lo] :: slice v (lo + 1) hi := by
  obtain ⟨k, rfl⟩ := Nat.exists_eq_add_of_lt hlo
  rw [slice, slice, List.drop_eq_getElem_cons hlen, show lo + k + 1 - lo = k + 1 by omega,
    List.take_succ_cons]
  congr 2
  omega

/-- Writing an element, and then the others behind it. -/
theorem write_set {x : α} {src : List α} (h : result < v.length) :
    write (v.set result x) (result + 1) src = write v result (x :: src) := by
  unfold write
  simp only [List.length_set, List.length_cons, Nat.add_right_comm result 1 src.length,
    ← Nat.add_assoc]
  split_ifs with hle
  · have htake : (v.set result x).take (result + 1) = v.take result ++ [x] := by
      rw [List.take_add_one, List.take_set_of_le le_rfl, List.getElem?_set_self h]
      rfl
    have hdrop : (v.set result x).drop (result + src.length + 1) =
        v.drop (result + src.length + 1) := List.drop_set_of_lt (by omega)
    rw [htake, hdrop]
    simp
  · rfl

/-- **Copying forward writes the source**, if the target does not begin within it. -/
theorem copyForward_eq_write : ∀ {n first result : ℕ} {v : List α},
    Apart first (first + n) result → first + n ≤ v.length →
      result + n ≤ v.length →
        copyForward n v first result = write v result (slice v first (first + n))
  | 0, first, result, v, _, _, hr => by
    rw [copyForward, Nat.add_zero, slice_self, write, if_pos (by simpa using hr)]
    simp
  | n + 1, first, result, v, h, hf, hr => by
    have hfirst : first < v.length := by omega
    have hresult : result < v.length := by omega
    have hrest : result < first + 1 ∨ first + 1 + n ≤ result := by
      unfold Apart at h
      omega
    have hapart : Apart (first + 1) (first + 1 + n) (result + 1) := by
      unfold Apart at h ⊢
      omega
    have hlen : (v.set result v[first]).length = v.length := List.length_set
    simp only [copyForward, List.getElem?_eq_getElem hfirst, Option.bind_eq_bind, Option.bind_some,
      if_pos hresult]
    -- the element that is overwritten has been read, or is not in the source
    rw [copyForward_eq_write hapart (by omega) (by omega), slice_set _ hrest,
      write_set hresult, Nat.add_right_comm first 1 n, ← slice_eq_cons (by omega) hfirst]
    rfl

/-- A copy that stays within the vector has room for its target. -/
theorem room_of_copyForward : ∀ {n first result : ℕ} {v : List α},
    copyForward n v first result = some w → 0 < n → result + n ≤ v.length
  | n + 1, first, result, v, h, _ => by
    rw [copyForward] at h
    obtain ⟨x, -, h⟩ := Option.bind_eq_some_iff.1 h
    split_ifs at h with hlt
    rcases Nat.eq_zero_or_pos n with rfl | hn
    · exact hlt
    · have hrest := room_of_copyForward h hn
      rw [List.length_set] at hrest
      omega

/-- What is in the target afterwards. -/
theorem exists_copyForward (h : Apart first last result) (hle : first ≤ last)
    (hlast : last ≤ v.length) (hresult : result + (last - first) ≤ v.length) :
    ∃ w, copyForward (last - first) v first result = some w ∧
      slice w result (result + (last - first)) = slice v first last := by
  have hend : first + (last - first) = last := Nat.add_sub_cancel' hle
  have hlen : (slice v first last).length = last - first := length_slice_of_le hlast
  have hcopy := copyForward_eq_write (n := last - first) (hend.symm ▸ h) (by omega) hresult
  rw [hend] at hcopy
  obtain ⟨w, hw⟩ : ∃ w, write v result (slice v first last) = some w :=
    write_isSome (by rw [hlen]; exact hresult)
  have hread := slice_write hw
  rw [hlen] at hread
  exact ⟨w, hcopy.trans hw, hread⟩

end Vec
