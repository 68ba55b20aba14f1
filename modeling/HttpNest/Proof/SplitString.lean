import HttpNest.Lib.Occurrences
import HttpNest.Spec.HttpRequest

/-!
# `SplitString`

`SplitString` cuts at the first delimiter and goes on behind it (`splitString_eq`). So it takes
the pieces between the occurrences that a scan finds (`splitString_eq_pieces`).
-/

namespace HttpNest

open ListSearch

/-! ## One cut -/

theorem splitLoop_eq (d : Bytes) (hd : d ≠ []) : ∀ {n m : ℕ} {s : Bytes}, s.length < n →
    s.length < m → StringUtils.splitLoop d n s = StringUtils.splitLoop d m s
  | 0, _, s, hn, _ | _ + 1, 0, s, _, hn => by omega
  | n + 1, m + 1, s, hn, hm => by
    rw [StringUtils.splitLoop, StringUtils.splitLoop]
    cases hf : find d s with
    | none => rfl
    | some i =>
      have hle := find_le hf
      have hpos : 0 < d.length := List.length_pos_iff.2 hd
      have hlt : (s.drop (i + d.length)).length < n ∧ (s.drop (i + d.length)).length < m := by
        rw [List.length_drop]; omega
      simp only
      rw [splitLoop_eq d hd hlt.1 hlt.2]

/-- **`SplitString` cuts at the first delimiter and goes on behind it.** -/
theorem splitString_eq {d : Bytes} (hd : d ≠ []) (s : Bytes) :
    StringUtils.splitString s d =
      match find d s with
      | some i => s.take i :: StringUtils.splitString (s.drop (i + d.length)) d
      | none => if s = [] then [] else [s] := by
  rw [StringUtils.splitString, if_neg hd, StringUtils.splitLoop]
  cases hf : find d s with
  | none => rfl
  | some i =>
    have hle := find_le hf
    have hpos : 0 < d.length := List.length_pos_iff.2 hd
    simp only [StringUtils.splitString, if_neg hd]
    rw [splitLoop_eq d hd (m := (s.drop (i + d.length)).length + 1)] <;>
      · rw [List.length_drop]; omega

/-! ## Cutting at one character -/

section Character

variable {c : UInt8} {s t : Bytes}

theorem splitString_append_cons (h : c ∉ t) (s : Bytes) :
    StringUtils.splitString (t ++ c :: s) [c] = t :: StringUtils.splitString s [c] := by
  rw [splitString_eq (List.cons_ne_nil _ _), find_singleton_append h]
  simp

theorem splitString_of_not_mem (h : c ∉ s) :
    StringUtils.splitString s [c] = if s = [] then [] else [s] := by
  rw [splitString_eq (List.cons_ne_nil _ _), find_singleton_none.2 h]

end Character

namespace StringUtils

variable {s delimiter : Bytes} {last : ℕ} {os : List ℕ}

/-! ## All cuts -/

/-- The text from `last` on, cut at the occurrences of the scan. -/
theorem splitString_drop_eq_pieces (hd : delimiter ≠ []) (h : Scan delimiter s last os)
    (hlast : last ≤ s.length) :
    splitString (s.drop last) delimiter = pieces delimiter s last os := by
  induction h with
  | @done last hno =>
    rw [splitString_eq hd, scan_find_none hno, pieces]
    simp only [List.drop_eq_nil_iff]
    split_ifs with h1 h2 h2
    · omega
    · rfl
    · rfl
    · omega
  | @next last o os hle hocc hmin hrest ih =>
    have hdrop : (s.drop last).drop (o - last + delimiter.length) =
        s.drop (o + delimiter.length) := by
      rw [List.drop_drop]
      congr 1
      omega
    rw [splitString_eq hd, scan_find hlast hle hd hocc hmin, pieces, Vec.slice]
    simp only [hdrop]
    rw [ih (hocc.le hd)]

/-- **The pieces between the occurrences of the delimiter.** -/
theorem splitString_eq_pieces (hd : delimiter ≠ []) (h : Scan delimiter s 0 os) :
    splitString s delimiter = pieces delimiter s 0 os := by
  rw [← splitString_drop_eq_pieces hd h (Nat.zero_le _), List.drop_zero]

/-- **What `SplitString` returns**: the texts between the leftmost non-overlapping occurrences
of the delimiter, in order and without an empty one at the end. None of them contains the
delimiter, and joined by it they give the text, without its final delimiter where the scan
ends on one. -/
theorem splitString_correct (s : Bytes) (hd : delimiter ≠ []) :
    (∀ p ∈ splitString s delimiter, ¬ delimiter <:+: p) ∧
      ∃ os, Scan delimiter s 0 os ∧ splitString s delimiter = pieces delimiter s 0 os ∧
        if os ≠ [] ∧ scanEnd delimiter 0 os = s.length then
          delimiter.intercalate (splitString s delimiter) ++ delimiter = s
        else delimiter.intercalate (splitString s delimiter) = s := by
  obtain ⟨os, hos⟩ := exists_scan hd 0 (Nat.zero_le s.length)
  have heq := splitString_eq_pieces hd hos
  refine ⟨fun p hp => hos.not_infix_of_mem_pieces hd (heq ▸ hp), os, hos, heq, ?_⟩
  have hjoin := hos.intercalate_pieces (Nat.zero_le _) hd
  rwa [List.drop_zero, ← heq] at hjoin

/-- A delimiter that overlaps itself. -/
theorem splitString_correct_overlap :
    splitString (ascii "xaaaaa") (ascii "aa") = [ascii "x", [], ascii "a"] ∧
      ∀ p ∈ splitString (ascii "xaaaaa") (ascii "aa"), ¬ ascii "aa" <:+: p :=
  ⟨by decide +kernel, (splitString_correct (ascii "xaaaaa") (by decide)).1⟩

end StringUtils

end HttpNest
