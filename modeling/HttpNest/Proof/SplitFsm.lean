import HttpNest.Proof.SplitString
import HttpNest.Spec.SplitFsm

/-!
# The two splitters agree

Between two turns the machine has ended some pieces, has read a part of the next one, and the
rest of the text is in front of it. What `SplitString` gives for the whole text is what it gives
for that part and the rest, behind the pieces (`Fsm.Reading`). The turn that only changes the
state leaves this as it is; it is one of two for a delimiter (`Fsm.turnsLeft`).

The position is an `int`, so the loop is left exactly for texts of less than `2 ^ 31` bytes
(`Fsm.halts_iff`).
-/

namespace HttpNest.StringUtils

variable {s : Bytes} {delimiter : UInt8}

theorem toSize_natCast {k : ℕ} (h : k < 2 ^ 31) : toSize k = k := by
  unfold toSize
  omega

theorem charAt_natCast {k : ℕ} (hk : k < s.length) (hs : s.length < 2 ^ 31) :
    charAt s k = .ok s[k] := by
  rw [charAt, toSize_natCast (by omega), List.getElem?_eq_getElem hk]

theorem increment_natCast {k : ℕ} (h : k + 1 < 2 ^ 31) : increment k = .ok ((k + 1 : ℕ) : ℤ) := by
  rw [increment, if_pos (by omega)]
  rfl

/-- An incremented `int` is an `int`. -/
theorem increment_eq_ok {i j : ℤ} (h : increment i = .ok j) : j = i + 1 ∧ j < 2 ^ 31 := by
  unfold increment at h
  split_ifs at h with hlt
  cases h
  exact ⟨rfl, hlt⟩

namespace Fsm

variable {m m' : Fsm} {result : List Bytes} {state : FsmState} {tmp : Bytes} {k : ℕ}

/-! ## One turn -/

theorem guard_natCast (hk : k < 2 ^ 31) :
    (loop s delimiter).guard ⟨result, state, tmp, k⟩ = true ↔ k < s.length := by
  simp [loop, toSize_natCast hk]

theorem turn_normal_delimiter (hk : k < s.length) (hs : s.length < 2 ^ 31)
    (hc : s[k] = delimiter) :
    turn s delimiter ⟨result, .kStateNormal, tmp, k⟩ =
      .ok ⟨result, .kStateDelimiter, tmp, k⟩ := by
  simp [turn, charAt_natCast hk hs, hc, bind, Except.bind, pure, Except.pure]

theorem turn_normal (hk : k < s.length) (hs : s.length < 2 ^ 31) (hc : s[k] ≠ delimiter) :
    turn s delimiter ⟨result, .kStateNormal, tmp, k⟩ =
      .ok ⟨result, .kStateNormal, tmp ++ [s[k]], (k + 1 : ℕ)⟩ := by
  have hinc := increment_natCast (k := k) (by omega)
  simp only [turn]
  rw [charAt_natCast hk hs, hinc]
  exact if_neg hc

theorem turn_delimiter (delimiter : UInt8) (hk : k < s.length) (hs : s.length < 2 ^ 31) :
    turn s delimiter ⟨result, .kStateDelimiter, tmp, k⟩ =
      .ok ⟨result ++ [tmp], .kStateNormal, [], (k + 1 : ℕ)⟩ := by
  have hinc := increment_natCast (k := k) (by omega)
  simp only [turn]
  rw [hinc]
  rfl

/-- A turn leaves the position or increments it. -/
theorem pos_turn (h : turn s delimiter m = .ok m') :
    m'.pos = m.pos ∨ increment m.pos = .ok m'.pos := by
  obtain ⟨result, state, tmp, pos⟩ := m
  cases state with
  | kStateNormal =>
    simp only [turn, bind, Except.bind] at h
    split at h
    · cases h
    split_ifs at h with hc
    · cases h
      exact .inl rfl
    · split at h
      · cases h
      · rename_i hpos
        cases h
        exact .inr hpos
  | kStateDelimiter =>
    simp only [turn, bind, Except.bind] at h
    split at h
    · cases h
    · rename_i hpos
      cases h
      exact .inr hpos
  | kStateInit | kStateEnd =>
    cases h
    exact .inl rfl

/-! ## The simulation -/

/-- What `SplitString` gives for the text: the pieces that have been ended, and what it gives for
the piece that is read and the rest. -/
inductive Reading (s : Bytes) (delimiter : UInt8) : Fsm → Prop
  | normal {result : List Bytes} {tmp : Bytes} {k : ℕ} (hk : k ≤ s.length)
      (htmp : delimiter ∉ tmp)
      (hsplit : splitString s [delimiter] = result ++ splitString (tmp ++ s.drop k) [delimiter]) :
      Reading s delimiter ⟨result, .kStateNormal, tmp, k⟩
  | delimiter {result : List Bytes} {tmp : Bytes} {k : ℕ} (hk : k < s.length)
      (hc : s[k] = delimiter) (htmp : delimiter ∉ tmp)
      (hsplit : splitString s [delimiter] = result ++ splitString (tmp ++ s.drop k) [delimiter]) :
      Reading s delimiter ⟨result, .kStateDelimiter, tmp, k⟩

theorem reading_start : Reading s delimiter start :=
  .normal (Nat.zero_le _) List.not_mem_nil rfl

/-- At most two turns for each byte that is left; in `kStateDelimiter` the first of them has
been done. -/
def turnsLeft (s : Bytes) (m : Fsm) : ℕ :=
  2 * (s.length - m.pos.toNat) - if m.state = .kStateDelimiter then 1 else 0

/-- **A turn keeps what `SplitString` gives**, and there are fewer turns left. -/
theorem Reading.turn (h : Reading s delimiter m) (hs : s.length < 2 ^ 31)
    (hg : (loop s delimiter).guard m = true) :
    ∃ m', (loop s delimiter).body m = .ok m' ∧ Reading s delimiter m' ∧
      turnsLeft s m' < turnsLeft s m := by
  cases h with
  | @normal result tmp k hle htmp hsplit =>
    have hk : k < s.length := (guard_natCast (by omega)).1 hg
    by_cases hc : s[k] = delimiter
    · refine ⟨_, turn_normal_delimiter hk hs hc, .delimiter hk hc htmp hsplit, ?_⟩
      simp only [turnsLeft, Int.toNat_natCast, if_true, reduceCtorEq, if_false]
      omega
    · refine ⟨_, turn_normal hk hs hc, .normal hk ?_ ?_, ?_⟩
      · rw [List.mem_append, List.mem_singleton]
        rintro (hmem | rfl)
        · exact htmp hmem
        · exact hc rfl
      · rw [hsplit, List.drop_eq_getElem_cons hk, List.append_assoc, List.singleton_append]
      · simp only [turnsLeft, Int.toNat_natCast, reduceCtorEq, if_false]
        omega
  | @delimiter result tmp k hk hc htmp hsplit =>
    refine ⟨_, turn_delimiter delimiter hk hs, .normal hk List.not_mem_nil ?_, ?_⟩
    · rw [hsplit, List.drop_eq_getElem_cons hk, hc, splitString_append_cons htmp,
        List.append_assoc, List.singleton_append, List.nil_append]
    · simp only [turnsLeft, Int.toNat_natCast, if_true, reduceCtorEq, if_false]
      omega

/-- Behind the loop only the last piece is left, which is not returned if it is empty. -/
theorem Reading.returned (h : Reading s delimiter m) (hs : s.length < 2 ^ 31)
    (hg : (loop s delimiter).guard m = false) : m.returned = splitString s [delimiter] := by
  have hstop := Bool.eq_false_iff.1 hg
  cases h with
  | @normal result tmp k hle htmp hsplit =>
    rw [Ne, guard_natCast (by omega)] at hstop
    rw [hsplit, List.drop_eq_nil_of_le (not_lt.1 hstop), List.append_nil,
      splitString_of_not_mem htmp, Fsm.returned]
    split_ifs with htmp
    · rw [List.append_nil]
    · rfl
  | @delimiter result tmp k hk =>
    exact absurd ((guard_natCast (by omega)).2 hk) hstop

/-- The loop is left with what `SplitString` returns. -/
theorem completes (delimiter : UInt8) (hs : s.length < 2 ^ 31) :
    ∃ m, (loop s delimiter).Completes start [] m ∧ m.returned = splitString s [delimiter] := by
  obtain ⟨m, hm, hr⟩ := FeedLoop.completes_of_measure (L := loop s delimiter)
    (fun m _ => Reading s delimiter m) (turnsLeft s)
    (fun _ _ h hg => h.turn hs hg) (fun _ p => p.elim) [] start reading_start
  exact ⟨m, hm, hr.returned hs hm.2⟩

/-- **The loop is left exactly for texts whose length is an `int`.** -/
theorem halts_iff (delimiter : UInt8) :
    (loop s delimiter).Halts start ↔ s.length < 2 ^ 31 := by
  constructor
  · rintro ⟨m, hm, hg⟩
    -- the position is an `int` at every turn, and it has reached the length
    have hpos : 0 ≤ m.pos ∧ m.pos < 2 ^ 31 := by
      refine FeedLoop.reaches_inv (fun m _ => 0 ≤ m.pos ∧ m.pos < 2 ^ 31) ?_
        (fun _ p => p.elim) hm (by decide)
      rintro m _ m' ⟨h0, hlt⟩ - hturn
      rcases pos_turn hturn with heq | hinc
      · rw [heq]
        exact ⟨h0, hlt⟩
      · obtain ⟨heq, hlt'⟩ := increment_eq_ok hinc
        exact ⟨by omega, hlt'⟩
    have hstop : ¬ toSize m.pos < s.length := of_decide_eq_false hg
    unfold toSize at hstop
    omega
  · intro hs
    obtain ⟨m, hm, -⟩ := completes delimiter hs
    exact ⟨m, hm⟩

end Fsm

/-- **The two splitters agree**: for a text of less than `2 ^ 31` bytes and any character, the
loop of `SplitStringWithFSM` is left, and what is returned is what `SplitString` returns. -/
theorem splitStringWithFSM_eq (delimiter : UInt8) (hs : s.length < 2 ^ 31) :
    (Fsm.loop s delimiter).Halts Fsm.start ∧
      ∀ r, SplitStringWithFSM s delimiter r ↔ r = splitString s [delimiter] := by
  obtain ⟨m, hm, hr⟩ := Fsm.completes delimiter hs
  refine ⟨⟨m, hm⟩, fun r => ⟨?_, ?_⟩⟩
  · rintro ⟨m', hm', rfl⟩
    rw [hm'.det hm, hr]
  · rintro rfl
    exact ⟨m, hm, hr⟩

/-- Empty pieces in front and between; the one at the end is not returned. -/
theorem splitStringWithFSM_eq_commas :
    SplitStringWithFSM (ascii ",a,,b,") 44 [[], ascii "a", [], ascii "b"] :=
  ((splitStringWithFSM_eq 44 (by decide)).2 _).2 (by decide +kernel)

end HttpNest.StringUtils
