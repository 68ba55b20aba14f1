import HttpNest.Lib.Search
import HttpNest.Lib.Slice

/-!
# The leftmost non-overlapping occurrences of a pattern

`Scan d s last os`: read from position `last` on, the list `s` has the pattern `d` at the
positions `os`, each the first one that begins where the one before has ended, or later.
There is one such list (`exists_scan`, `Scan.unique`). `pieces` are the parts of `s` between
these occurrences, without an empty one at the end. No piece contains the pattern
(`Scan.not_infix_of_mem_pieces`), and joined by it they are the list again, but for a pattern
at its end (`Scan.intercalate_pieces`).
-/

namespace ListSearch

variable {α : Type*} {d s t : List α} {last o : ℕ} {os os' : List ℕ}

/-- The pattern `d` begins at position `o`. -/
def Occurs (d s : List α) (o : ℕ) : Prop := d <+: s.drop o

/-- The occurrences that a scan from left to right finds. -/
inductive Scan (d s : List α) : ℕ → List ℕ → Prop
  | done {last : ℕ} (h : ∀ j, last ≤ j → ¬ Occurs d s j) : Scan d s last []
  | next {last o : ℕ} {os : List ℕ} (hle : last ≤ o) (hocc : Occurs d s o)
      (hmin : ∀ j, last ≤ j → j < o → ¬ Occurs d s j) (hrest : Scan d s (o + d.length) os) :
      Scan d s last (o :: os)

/-- The parts of `s` from `last` on that the occurrences separate. -/
def pieces (d s : List α) : ℕ → List ℕ → List (List α)
  | last, [] => if last < s.length then [s.drop last] else []
  | last, o :: os => Vec.slice s last o :: pieces d s (o + d.length) os

/-- Where the last occurrence ends. -/
def scanEnd (d : List α) : ℕ → List ℕ → ℕ
  | last, [] => last
  | _, o :: os => scanEnd d (o + d.length) os

theorem Occurs.le (h : Occurs d s o) (hd : d ≠ []) : o + d.length ≤ s.length := by
  have hlen := h.length_le
  rw [List.length_drop] at hlen
  have hpos : 0 < d.length := List.length_pos_iff.2 hd
  omega

/-- An occurrence in a part of the list is one in the list. -/
theorem occurs_of_infix (h : d <:+: t) (ht : t <+: s.drop last) :
    ∃ j, last ≤ j ∧ j + d.length ≤ last + t.length ∧ Occurs d s j := by
  obtain ⟨as, bs, rfl⟩ := h
  refine ⟨last + as.length, Nat.le_add_right _ _, ?_, ?_⟩
  · simp only [List.length_append]
    omega
  · obtain ⟨cs, hs⟩ := ht
    rw [Occurs, ← List.drop_drop, ← hs]
    simp

variable [DecidableEq α]

theorem find_eq_none (h : ∀ j, ¬ d <+: s.drop j) : find d s = none := by
  rcases hf : find d s with _ | i
  · rfl
  · exact absurd (find_spec hf) (h i)

/-- One turn of a scan, as a search in the rest of the list. -/
theorem scan_find (hlast : last ≤ s.length) (hle : last ≤ o) (hd : d ≠ []) (hocc : Occurs d s o)
    (hmin : ∀ j, last ≤ j → j < o → ¬ Occurs d s j) : find d (s.drop last) = some (o - last) := by
  have ho := hocc.le hd
  refine find_eq_some ?_ ?_ ?_
  · rw [List.drop_drop, Nat.add_sub_cancel' hle]
    exact hocc
  · rw [List.length_drop]
    omega
  · intro j hj
    rw [List.drop_drop]
    exact hmin (last + j) (Nat.le_add_right _ _) (by omega)

theorem scan_find_none (h : ∀ j, last ≤ j → ¬ Occurs d s j) : find d (s.drop last) = none := by
  refine find_eq_none fun j => ?_
  rw [List.drop_drop]
  exact h (last + j) (Nat.le_add_right _ _)

/-- **Every list can be scanned.** -/
theorem exists_scan (hd : d ≠ []) : ∀ last ≤ s.length, ∃ os, Scan d s last os := by
  intro last hlast
  induction hn : s.length - last using Nat.strong_induction_on generalizing last with
  | _ n ih =>
    have hpos : 0 < d.length := List.length_pos_iff.2 hd
    rcases hf : find d (s.drop last) with _ | i
    · refine ⟨[], .done fun j hj hocc => ?_⟩
      have hle := hocc.le hd
      refine find_none hf (j := j - last) (by rw [List.length_drop]; omega) ?_
      rwa [List.drop_drop, Nat.add_sub_cancel' hj]
    · have hocc : Occurs d s (last + i) := by
        rw [Occurs, ← List.drop_drop]
        exact find_spec hf
      have hle := hocc.le hd
      obtain ⟨os, hos⟩ := ih (s.length - (last + i + d.length)) (by omega)
        (last + i + d.length) hle rfl
      refine ⟨(last + i) :: os, .next (Nat.le_add_right _ _) hocc ?_ hos⟩
      intro j hj hlt hj'
      refine find_min hf (j := j - last) (by omega) ?_
      rwa [List.drop_drop, Nat.add_sub_cancel' hj]

omit [DecidableEq α] in
theorem Scan.unique (h : Scan d s last os) (h' : Scan d s last os') : os = os' := by
  induction h generalizing os' with
  | done hno =>
    cases h' with
    | done => rfl
    | next hle hocc => exact absurd hocc (hno _ hle)
  | @next last o os hle hocc hmin _ ih =>
    cases h' with
    | done hno => exact absurd hocc (hno _ hle)
    | @next _ o' _ hle' hocc' hmin' hrest' =>
      have ho : o = o' := by
        rcases lt_trichotomy o o' with hlt | heq | hlt
        · exact absurd hocc (hmin' _ hle hlt)
        · exact heq
        · exact absurd hocc' (hmin _ hle' hlt)
      subst ho
      rw [ih hrest']

omit [DecidableEq α] in
/-- **No piece contains the pattern.** -/
theorem Scan.not_infix_of_mem_pieces (h : Scan d s last os) (hd : d ≠ []) {p : List α}
    (hp : p ∈ pieces d s last os) : ¬ d <:+: p := by
  have hpos : 0 < d.length := List.length_pos_iff.2 hd
  induction h with
  | @done last hno =>
    intro hinfix
    unfold pieces at hp
    split_ifs at hp
    · rw [List.mem_singleton.1 hp] at hinfix
      obtain ⟨j, hj, -, hocc⟩ := occurs_of_infix hinfix (List.prefix_refl _)
      exact hno j hj hocc
    · cases hp
  | @next last o os hle hocc hmin _ ih =>
    rw [pieces, List.mem_cons] at hp
    rcases hp with rfl | hp
    · intro hinfix
      obtain ⟨j, hj, hend, hocc'⟩ := occurs_of_infix hinfix (List.take_prefix _ _)
      -- it would begin before the occurrence that ends the piece
      rw [Vec.length_slice] at hend
      exact hmin j hj (by omega) hocc'
    · exact ih hp

omit [DecidableEq α] in
/-- The list from `last` on, as the piece in front of an occurrence, the pattern and the rest. -/
theorem drop_eq_of_occurs (hle : last ≤ o) (hocc : Occurs d s o) :
    s.drop last = Vec.slice s last o ++ d ++ s.drop (o + d.length) := by
  obtain ⟨rest, hrest⟩ := hocc
  have hdrop : s.drop (o + d.length) = rest := by
    rw [← List.drop_drop, ← hrest, List.drop_left]
  have hback : (s.drop last).drop (o - last) = s.drop o := by
    rw [List.drop_drop, Nat.add_sub_cancel' hle]
  rw [hdrop, List.append_assoc, hrest, ← hback, Vec.slice, List.take_append_drop]

omit [DecidableEq α] in
theorem pieces_ne_nil_of_cons : pieces d s last (o :: os) ≠ [] := List.cons_ne_nil _ _

omit [DecidableEq α] in
/-- **Joined by the pattern, the pieces are the list**, without the pattern at its end. -/
theorem Scan.intercalate_pieces (h : Scan d s last os) (hlast : last ≤ s.length) (hd : d ≠ []) :
    if os ≠ [] ∧ scanEnd d last os = s.length then
      d.intercalate (pieces d s last os) ++ d = s.drop last
    else d.intercalate (pieces d s last os) = s.drop last := by
  induction h with
  | @done last hno =>
    rw [if_neg (fun hc => hc.1 rfl), pieces]
    split_ifs with hlt
    · simp
    · rw [List.drop_eq_nil_of_le (not_lt.1 hlt)]
      rfl
  | @next last o os hle hocc hmin hrest ih =>
    have hend := hocc.le hd
    have ih := ih hend
    rw [drop_eq_of_occurs hle hocc, pieces, scanEnd]
    rcases os with _ | ⟨o', os⟩
    · by_cases hfull : o + d.length = s.length
      · rw [if_pos ⟨List.cons_ne_nil _ _, hfull⟩, pieces, if_neg (by omega),
          List.drop_eq_nil_of_le (by omega)]
        simp
      · rw [if_neg (fun hc => hfull hc.2)]
        rw [if_neg (fun hc => hc.1 rfl)] at ih
        rw [← ih, List.intercalate_cons_of_ne_nil]
        rw [pieces, if_pos (by omega)]
        exact List.cons_ne_nil _ _
    · rw [List.intercalate_cons_of_ne_nil pieces_ne_nil_of_cons]
      by_cases hfull : scanEnd d (o + d.length) (o' :: os) = s.length
      · rw [if_pos ⟨List.cons_ne_nil _ _, hfull⟩] at ih ⊢
        rw [List.append_assoc, ih]
      · rw [if_neg (fun hc => hfull hc.2)] at ih ⊢
        rw [ih]

end ListSearch
