import HttpNest.Spec.EventLoopThreadPool

/-!
# Which loop is next

`loopIndex_` counts the calls that have made both of their steps (`Counts`). So a call that finds
others between theirs gets a loop that has been given before, and one that is in its turn is left
out: `inTurn_iff`. A single caller gets the loops in turn, but after `2 ^ 32` calls the index
starts again, wherever the loops are (`inTurn_forever_iff`).
-/

namespace HttpNest

open EventRun

/-! ## The index -/

theorem loopPosition_of_lt {size n : ℕ} (h : n < 2 ^ 31) :
    loopPosition size (BitVec.ofNat 32 n) = n % size := by
  have hint : (BitVec.ofNat 32 n).toInt = n := by
    rw [BitVec.toInt_eq_toNat_of_lt] <;> rw [BitVec.toNat_ofNat, Nat.mod_eq_of_lt] <;> omega
  have h64 : n % 2 ^ 64 = n := Nat.mod_eq_of_lt (by omega)
  rw [loopPosition, hint, BitVec.ofInt_natCast, BitVec.toNat_ofNat, h64]

/-- The conversions keep an index modulo a number that divides `2 ^ 32`. -/
theorem loopPosition_of_dvd {size : ℕ} (h : size ∣ 2 ^ 32) (n : ℕ) :
    loopPosition size (BitVec.ofNat 32 n) = n % size := by
  have h32 : (size : ℤ) ∣ ((2 ^ 32 : ℕ) : ℤ) := Int.natCast_dvd_natCast.2 h
  have h64 : (size : ℤ) ∣ ((2 ^ 64 : ℕ) : ℤ) :=
    Int.natCast_dvd_natCast.2 (h.trans (Nat.pow_dvd_pow 2 (by decide)))
  rw [← Nat.cast_inj (R := ℤ), loopPosition, BitVec.toNat_ofInt, BitVec.toInt_ofNat',
    Int.natCast_mod, Int.toNat_of_nonneg (Int.emod_nonneg _ (by decide)),
    Int.emod_emod_of_dvd _ h64, ← Int.emod_emod_of_dvd _ h32, Int.bmod_emod,
    Int.emod_emod_of_dvd _ h32, Int.natCast_mod]

namespace EventLoopThreadPool

variable {τ : Type*} {s s' : EventLoopThreadPool τ} {size : ℕ}

/-! ## Several callers -/

/-- The index counts the calls that are behind both of their steps. -/
structure Counts (size : ℕ) (s : EventLoopThreadPool τ) : Prop where
  size_eq : s.size = size
  index : ∃ done, s.loopIndex = BitVec.ofNat 32 done ∧ s.given.length = done + s.inFlight.length

theorem counts_start : Counts size ({ size := size } : EventLoopThreadPool τ) :=
  ⟨rfl, 0, rfl, rfl⟩

/-- What a call is given while the index has not wrapped round. -/
theorem Counts.position (h : Counts size s) (hlt : s.given.length < 2 ^ 31) :
    loopPosition s.size s.loopIndex = (s.given.length - s.inFlight.length) % s.size := by
  obtain ⟨-, done, hindex, hlen⟩ := h
  have hdone : s.given.length - s.inFlight.length = done := by omega
  rw [hindex, loopPosition_of_lt (by omega), hdone]

theorem Counts.inFlight_le (h : Counts size s) : s.inFlight.length ≤ s.given.length := by
  obtain ⟨-, done, -, hlen⟩ := h
  omega

theorem inTurn_append {given : List ℕ} {n : ℕ} :
    given ++ [n] = (List.range (given ++ [n]).length).map (· % size) ↔
      given = (List.range given.length).map (· % size) ∧ n = given.length % size := by
  rw [List.length_append, List.length_singleton, List.range_succ, List.map_append,
    List.map_singleton]
  constructor
  · intro h
    exact ⟨List.append_inj_left h (by simp), by simpa using List.append_inj_right h (by simp)⟩
  · rintro ⟨h, rfl⟩
    rw [← h]

/-- A loop that is next in turn, although some calls have not been counted. -/
theorem sub_mod_eq_iff {n m : ℕ} (hm : m ≤ n) : (n - m) % size = n % size ↔ size ∣ m := by
  have hmod : n - m ≡ n [MOD size] ↔ size ∣ n - (n - m) := Nat.modEq_iff_dvd' (Nat.sub_le n m)
  rw [show n - (n - m) = m by omega] at hmod
  exact hmod

variable [DecidableEq τ]

theorem Counts.step (h : Counts size s) {e : PoolStep τ} (ht : s.step e = some s') :
    Counts size s' := by
  obtain ⟨hsize, done, hindex, hlen⟩ := h
  cases e with
  | load t =>
    simp only [EventLoopThreadPool.step] at ht
    split_ifs at ht
    cases ht
    refine ⟨hsize, done, hindex, ?_⟩
    rw [List.length_append, List.length_cons, hlen]
    rfl
  | increment t =>
    simp only [EventLoopThreadPool.step] at ht
    split_ifs at ht with hmem
    cases ht
    have hpos := List.length_pos_of_mem hmem
    refine ⟨hsize, done + 1, ?_, ?_⟩
    · rw [hindex, BitVec.ofNat_add]
      rfl
    · rw [List.length_erase_of_mem hmem, hlen]
      omega

/-- Fewer than `2 ^ 31` calls have loaded the index. -/
def Early (s : EventLoopThreadPool τ) : PoolStep τ → Prop
  | .load _ => s.given.length < 2 ^ 31
  | .increment _ => True

instance : ∀ (s : EventLoopThreadPool τ) (e : PoolStep τ), Decidable (s.Early e)
  | s, .load _ => inferInstanceAs (Decidable (s.given.length < 2 ^ 31))
  | _, .increment _ => isTrue trivial

/-- **The loops are returned in turn exactly where calls do not overlap**, or so many of them do
that it does not matter: in every interleaving of calls by any threads, until the index wraps
round. -/
theorem inTurn_iff {threadNum : ℤ} {es : List (PoolStep τ)}
    (hearly : Meets step Early (new threadNum : EventLoopThreadPool τ) es) :
    Passes step InTurn (new threadNum) es ↔ Meets step LoadsInTurn (new threadNum) es := by
  refine passes_iff_meets_of_meets
    (fun s => Counts (new threadNum : EventLoopThreadPool τ).size s ∧ s.InTurn) (fun s h => h.2) ?_
    ?_ ⟨counts_start, rfl⟩ hearly
  · rintro s e s' ⟨hs, hturn⟩ he hc ht
    refine ⟨hs.step ht, ?_⟩
    cases e with
    | load t =>
      simp only [step] at ht
      split_ifs at ht with hmem
      cases ht
      refine inTurn_append.2 ⟨hturn, ?_⟩
      rw [hs.position he]
      exact (sub_mod_eq_iff hs.inFlight_le).2 (hc hmem)
    | increment t =>
      simp only [step] at ht
      split_ifs at ht
      cases ht
      exact hturn
  · rintro s e ⟨hs, -⟩ he hc
    cases e with
    | load t =>
      simp only [LoadsInTurn, Classical.not_imp] at hc
      obtain ⟨hmem, hndvd⟩ := hc
      refine ⟨_, if_neg hmem, fun hturn => hndvd ?_⟩
      have hpos := (inTurn_append.1 hturn).2
      rw [hs.position he] at hpos
      exact (sub_mod_eq_iff hs.inFlight_le).1 hpos
    | increment t => exact absurd trivial hc

/-- The second of two calls is given a loop once more. -/
theorem overlap_not_inTurn :
    ¬ Passes step InTurn (new 2 : EventLoopThreadPool (Fin 2)) [.load 0, .load 1] :=
  fun h => absurd ((inTurn_iff (by decide)).1 h) (by decide)

/-! ## One caller -/

/-- After `n` calls, one after the other. -/
theorem run_calls (t : τ) (n : ℕ) :
    run step ({ size := size } : EventLoopThreadPool τ) (calls t n) = some {
      size := size, loopIndex := BitVec.ofNat 32 n
      given := (List.range n).map fun k => loopPosition size (BitVec.ofNat 32 k) } := by
  induction n with
  | zero => rfl
  | succ n ih =>
    rw [calls, run_append]
    refine ⟨_, ih, ?_⟩
    simp [run_cons, step, List.range_succ, BitVec.ofNat_add]

/-- **A single caller gets the loops in turn for ever if and only if their number divides
`2 ^ 32`.** -/
theorem inTurn_forever_iff (t : τ) (threadNum : ℤ) :
    (∀ n s, run step (new threadNum : EventLoopThreadPool τ) (calls t n) = some s → s.InTurn) ↔
      (new threadNum : EventLoopThreadPool τ).size ∣ 2 ^ 32 := by
  constructor
  · intro h
    have hturn := h (2 ^ 32 + 1) _ (run_calls t _)
    -- the index is zero again at the call after `2 ^ 32` others
    simp only [InTurn, List.length_map, List.length_range] at hturn
    have hlast := List.map_inj_left.1 hturn (2 ^ 32) (List.mem_range.2 (Nat.lt_succ_self _))
    have hzero : BitVec.ofNat 32 (2 ^ 32) = BitVec.ofNat 32 0 := by decide
    rw [hzero, loopPosition_of_lt (by decide), Nat.zero_mod] at hlast
    exact Nat.dvd_of_mod_eq_zero hlast.symm
  · intro h n s hs
    cases (run_calls t n).symm.trans hs
    simp only [InTurn, List.length_map, List.length_range]
    exact List.map_congr_left fun k _ => loopPosition_of_dvd h k

end EventLoopThreadPool

end HttpNest
