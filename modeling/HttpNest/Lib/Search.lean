import Mathlib

/-!
# First occurrences of a pattern in a list

`find pat xs` is the position of the first occurrence of `pat` in `xs`, as
`std::search` and `std::string::find` compute it. The position does not depend
on what follows the occurrence (`find_append`), and a prefix of a list shows the
list's occurrence exactly when it holds all of it (`find_in_front`): this is what a
reader of a segmented stream needs.
-/

namespace ListSearch

variable {α : Type*} [DecidableEq α]

/-- The position of the first occurrence of `pat`. -/
def find (pat : List α) : List α → Option ℕ
  | [] => if pat = [] then some 0 else none
  | c :: cs => if pat.isPrefixOf (c :: cs) then some 0 else (find pat cs).map (· + 1)

variable {pat xs ys zs : List α}

theorem find_cons_of_starts {c : α} {cs : List α} (h : pat <+: c :: cs) :
    find pat (c :: cs) = some 0 := by
  rw [find, if_pos (List.isPrefixOf_iff_prefix.2 h)]

theorem find_cons_of_not_starts {c : α} {cs : List α} (h : ¬ pat <+: c :: cs) :
    find pat (c :: cs) = (find pat cs).map (· + 1) := by
  rw [find, if_neg (fun hp => h (List.isPrefixOf_iff_prefix.1 hp))]

/-- A pattern at the front is found at the front. -/
theorem find_self_append (pat ys : List α) : find pat (pat ++ ys) = some 0 := by
  cases h : pat ++ ys with
  | nil => simp [find, (List.append_eq_nil_iff.1 h).1]
  | cons c cs => exact find_cons_of_starts (h ▸ List.prefix_append pat ys)

/-- The pattern is where `find` says. -/
theorem find_spec : ∀ {xs : List α} {i : ℕ}, find pat xs = some i → pat <+: xs.drop i
  | [], i, h => by
    simp only [find, Option.ite_none_right_eq_some, Option.some.injEq] at h
    obtain ⟨rfl, rfl⟩ := h
    simp
  | c :: cs, i, h => by
    by_cases hp : pat <+: c :: cs
    · rw [find_cons_of_starts hp, Option.some.injEq] at h
      subst h; simpa using hp
    · rw [find_cons_of_not_starts hp, Option.map_eq_some_iff] at h
      obtain ⟨j, hj, rfl⟩ := h
      simpa using find_spec hj

/-- An occurrence ends within the list. -/
theorem find_le : ∀ {xs : List α} {i : ℕ}, find pat xs = some i → i + pat.length ≤ xs.length
  | [], i, h => by
    simp only [find, Option.ite_none_right_eq_some, Option.some.injEq] at h
    obtain ⟨rfl, rfl⟩ := h
    simp
  | c :: cs, i, h => by
    by_cases hp : pat <+: c :: cs
    · rw [find_cons_of_starts hp, Option.some.injEq] at h
      subst h; simpa using hp.length_le
    · rw [find_cons_of_not_starts hp, Option.map_eq_some_iff] at h
      obtain ⟨j, hj, rfl⟩ := h
      have := find_le hj
      simp only [List.length_cons]; omega

/-- No occurrence starts before the one that is found. -/
theorem find_min : ∀ {xs : List α} {i j : ℕ}, find pat xs = some i → j < i → ¬ pat <+: xs.drop j
  | [], i, j, h, hj => by
    simp only [find, Option.ite_none_right_eq_some, Option.some.injEq] at h
    omega
  | c :: cs, i, j, h, hj => by
    by_cases hp : pat <+: c :: cs
    · rw [find_cons_of_starts hp, Option.some.injEq] at h
      omega
    · rw [find_cons_of_not_starts hp, Option.map_eq_some_iff] at h
      obtain ⟨k, hk, rfl⟩ := h
      cases j with
      | zero => simpa using hp
      | succ j => simpa using find_min hk (by omega : j < k)

/-- If nothing is found, the pattern occurs nowhere. -/
theorem find_none : ∀ {xs : List α} {j : ℕ}, find pat xs = none → j ≤ xs.length →
    ¬ pat <+: xs.drop j
  | [], j, h, _ => by
    simp only [find, ite_eq_right_iff, reduceCtorEq, imp_false] at h
    simpa using h
  | c :: cs, j, h, hj => by
    by_cases hp : pat <+: c :: cs
    · rw [find_cons_of_starts hp] at h; cases h
    · rw [find_cons_of_not_starts hp, Option.map_eq_none_iff] at h
      cases j with
      | zero => simpa using hp
      | succ j => simpa using find_none h (by simpa using hj : j ≤ cs.length)

/-- `find` is determined by being an occurrence with none before it. -/
theorem find_eq_some {i : ℕ} (h : pat <+: xs.drop i) (hi : i ≤ xs.length)
    (hmin : ∀ j < i, ¬ pat <+: xs.drop j) : find pat xs = some i := by
  cases hf : find pat xs with
  | none => exact absurd h (find_none hf hi)
  | some k =>
    rcases lt_trichotomy k i with hk | hk | hk
    · exact absurd (find_spec hf) (hmin k hk)
    · rw [hk]
    · exact absurd h (find_min hf hk)

/-- **What follows an occurrence does not move it.** -/
theorem find_append {i : ℕ} (h : find pat xs = some i) (ys : List α) :
    find pat (xs ++ ys) = some i := by
  have hle := find_le h
  refine find_eq_some ?_ (by simp; omega) ?_
  · rw [List.drop_append_of_le_length (by omega)]
    exact (find_spec h).trans (List.prefix_append _ _)
  · intro j hj hp
    rw [List.drop_append_of_le_length (by omega)] at hp
    -- an earlier occurrence would end before the found one does, hence inside `xs`
    exact find_min h hj (List.prefix_of_prefix_length_le hp (List.prefix_append _ _)
      (by rw [List.length_drop]; omega))

/-- **A prefix shows the occurrence exactly when it holds all of it.** -/
theorem find_in_front {i : ℕ} (hx : xs <+: ys) (h : find pat ys = some i) :
    find pat xs = if i + pat.length ≤ xs.length then some i else none := by
  obtain ⟨zs, rfl⟩ := hx
  cases hf : find pat xs with
  | none =>
    split_ifs with hi
    · have hs := find_spec h
      rw [List.drop_append_of_le_length (by omega)] at hs
      exact absurd (List.prefix_of_prefix_length_le hs (List.prefix_append _ _)
        (by rw [List.length_drop]; omega)) (find_none hf (by omega))
    · rfl
  | some k =>
    have hk := find_append hf zs
    rw [h, Option.some.injEq] at hk
    subst hk
    rw [if_pos (find_le hf)]

/-- Skipping a front in which the pattern does not start moves the position. -/
theorem find_append_of_not_starts {i : ℕ} (h : find pat ys = some i)
    (hno : ∀ j < xs.length, ¬ pat <+: (xs ++ ys).drop j) :
    find pat (xs ++ ys) = some (xs.length + i) := by
  refine find_eq_some ?_ (by have := find_le h; simp; omega) ?_
  · rw [List.drop_append, List.drop_eq_nil_of_le (by omega)]
    simpa using find_spec h
  · intro j hj
    by_cases hlt : j < xs.length
    · exact hno j hlt
    · rw [List.drop_append, List.drop_eq_nil_of_le (by omega), List.nil_append]
      exact find_min h (by omega)

/-- A pattern starting with `c` is found behind a front without `c`. -/
theorem find_append_of_not_mem {c : α} {p : List α} {i : ℕ} (h : find (c :: p) ys = some i)
    (hc : c ∉ xs) : find (c :: p) (xs ++ ys) = some (xs.length + i) := by
  refine find_append_of_not_starts h fun j hj hp => hc ?_
  rw [List.drop_append_of_le_length (by omega)] at hp
  have hx : xs.drop j = xs[j] :: xs.drop (j + 1) := List.drop_eq_getElem_cons hj
  rw [hx, List.cons_append, List.cons_prefix_cons] at hp
  rw [hp.1]
  exact List.getElem_mem hj

/-- A pattern at the end is found, there or before. -/
theorem exists_find (h : pat <:+ xs) : ∃ i, find pat xs = some i := by
  obtain ⟨ys, rfl⟩ := h
  cases hf : find pat (ys ++ pat) with
  | some i => exact ⟨i, rfl⟩
  | none =>
    have hle : ys.length ≤ (ys ++ pat).length := by simp
    have hpat : pat <+: (ys ++ pat).drop ys.length := by rw [List.drop_left]
    exact absurd hpat (find_none hf hle)

/-! ## A single character -/

theorem find_singleton_append {c : α} (h : c ∉ xs) (ys : List α) :
    find [c] (xs ++ c :: ys) = some xs.length := by
  have hstart : find [c] (c :: ys) = some 0 := find_cons_of_starts ⟨ys, rfl⟩
  exact find_append_of_not_mem hstart h

/-- A pattern needs its first character. -/
theorem find_eq_none_of_not_mem {c : α} {p : List α} (h : c ∉ xs) : find (c :: p) xs = none := by
  cases hf : find (c :: p) xs with
  | none => rfl
  | some i =>
    have hmem : c ∈ xs.drop i := (find_spec hf).subset (List.mem_cons_self ..)
    exact absurd (List.mem_of_mem_drop hmem) h

theorem find_singleton_none {c : α} : find [c] xs = none ↔ c ∉ xs := by
  refine ⟨fun hf hc => ?_, find_eq_none_of_not_mem⟩
  obtain ⟨as, bs, rfl, has⟩ := List.eq_append_cons_of_mem hc
  rw [find_singleton_append has] at hf
  cases hf

/-! ## The beginning of a stream -/

omit [DecidableEq α] in
/-- A beginning of a stream that reaches behind its front `xs`. -/
theorem eq_append_drop (h : ys <+: xs ++ zs) (hle : xs.length ≤ ys.length) :
    ys = xs ++ ys.drop xs.length := by
  have hx : xs <+: ys := List.prefix_of_prefix_length_le (List.prefix_append xs zs) h hle
  obtain ⟨ws, rfl⟩ := hx
  simp

end ListSearch
