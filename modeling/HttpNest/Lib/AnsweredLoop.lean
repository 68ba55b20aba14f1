import Mathlib

/-!
# Loops whose turns get answers from outside

`turn s a` is one turn of a loop in state `s` that is given the answer `a`, say by a system
call: the state behind it and whether the loop goes on, or `none` where the turn has no
meaning. `after turn answers r k` is the loop after at most `k` turns, entered in `r`, and
`Lawful` says that every answer is one that may be given in the state it is asked for.

A loop that decreases a measure is left (`leaves_of_measure`); a loop in which some answers
keep an invariant is not (`goes_on_of_inv`).
-/

namespace AnsweredLoop

variable {σ α : Type*} {turn : σ → α → Option (σ × Bool)} {V : σ → α → Prop} {answers : ℕ → α}

/-- The loop after `k` turns, or after fewer if it has been left before. -/
def after (turn : σ → α → Option (σ × Bool)) (answers : ℕ → α) (r : σ × Bool) :
    ℕ → Option (σ × Bool)
  | 0 => some r
  | k + 1 => (after turn answers r k).bind fun r =>
    if r.2 then turn r.1 (answers k) else some r

/-- Every answer is one that may be given. -/
def Lawful (turn : σ → α → Option (σ × Bool)) (V : σ → α → Prop) (answers : ℕ → α)
    (r : σ × Bool) : Prop :=
  ∀ k s, after turn answers r k = some (s, true) → V s (answers k)

theorem after_zero (r : σ × Bool) : after turn answers r 0 = some r := rfl

theorem after_succ {r : σ × Bool} {s : σ} {k : ℕ} (h : after turn answers r k = some (s, true)) :
    after turn answers r (k + 1) = turn s (answers k) := by
  rw [after, h]
  rfl

theorem after_succ_left {r : σ × Bool} {s : σ} {k : ℕ}
    (h : after turn answers r k = some (s, false)) :
    after turn answers r (k + 1) = some (s, false) := by
  rw [after, h]
  rfl

/-- **What every turn keeps holds whenever the loop is looked at.** -/
theorem after_inv (I : σ → Prop) (hturn : ∀ s a r, I s → V s a → turn s a = some r → I r.1)
    {r : σ × Bool} (hlaw : Lawful turn V answers r) (hr : I r.1) {t : σ × Bool} :
    ∀ {k : ℕ}, after turn answers r k = some t → I t.1 := by
  intro k
  induction k generalizing t with
  | zero =>
    intro h
    cases h
    exact hr
  | succ k ih =>
    intro h
    obtain ⟨⟨s, go⟩, hs, h⟩ := Option.bind_eq_some_iff.1 h
    cases go with
    | true => exact hturn s _ t (ih hs) (hlaw k s hs) h
    | false =>
      cases h
      exact ih hs

/-- **A loop whose turns decrease a measure is left**, and `Q` holds of the state and of the
last answer. -/
theorem leaves_of_measure (μ : σ → ℕ) (I : σ → Prop) (Q : σ → α → Prop)
    (hturn : ∀ s a, I s → V s a → ∃ t, turn s a = some (t, false) ∧ Q t a ∨
      turn s a = some (t, true) ∧ I t ∧ μ t < μ s)
    {s : σ} (hlaw : Lawful turn V answers (s, true)) (hs : I s) :
    ∃ k t, after turn answers (s, true) (k + 1) = some (t, false) ∧ Q t (answers k) := by
  by_contra hno
  -- as long as the loop is not left, every turn takes one from the measure
  have hgo : ∀ k, ∃ t, after turn answers (s, true) k = some (t, true) ∧ I t ∧ μ t + k ≤ μ s := by
    intro k
    induction k with
    | zero => exact ⟨s, rfl, hs, le_rfl⟩
    | succ k ih =>
      obtain ⟨t, ht, hI, hμ⟩ := ih
      obtain ⟨u, ⟨hu, hQ⟩ | ⟨hu, hI, hlt⟩⟩ := hturn t (answers k) hI (hlaw k t ht)
      · exact absurd ⟨k, u, (after_succ ht).trans hu, hQ⟩ hno
      · exact ⟨u, (after_succ ht).trans hu, hI, by omega⟩
  obtain ⟨t, -, -, hμ⟩ := hgo (μ s + 1)
  omega

/-- **A loop in which the answers keep an invariant goes on for ever.** -/
theorem goes_on_of_inv (I : ℕ → σ → Prop)
    (hturn : ∀ k s, I k s → ∃ t, turn s (answers k) = some (t, true) ∧ I (k + 1) t) {s : σ}
    (hs : I 0 s) : ∀ k, ∃ t, after turn answers (s, true) k = some (t, true) ∧ I k t := by
  intro k
  induction k with
  | zero => exact ⟨s, rfl, hs⟩
  | succ k ih =>
    obtain ⟨t, ht, hI⟩ := ih
    obtain ⟨u, hu, hI⟩ := hturn k t hI
    exact ⟨u, (after_succ ht).trans hu, hI⟩

end AnsweredLoop
