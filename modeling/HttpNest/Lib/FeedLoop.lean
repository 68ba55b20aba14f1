import Mathlib

/-!
# Loops fed by a segmented stream

A reader of a byte stream alternates two moves: `while (guard s) s = body s`, and,
once the loop has been left, taking the next segment with `recv`. `FeedLoop` is
such a reader; `Step` is one of its moves on the pair of its state and the segments
not taken yet, and `Reaches` is any number of them, so its right-hand sides are the
*moments* of a run: those inside the loop too.

* `reaches_inv`: what every move preserves holds at every moment.
* `completes_of_measure`: a loop that never fails and decreases a measure takes
  every segment and is left.
* `halts_turn`, `not_halts_of_inv`: halting from a state, unfolded one turn at a
  time and refuted by an invariant of the turns.
* `reaches_of_after`: the moments that the evaluator computes are moments of the run.
-/

/-- A loop over states `σ`, fed segments `π`, whose body may fail with `ε`. -/
structure FeedLoop (σ π ε : Type*) where
  guard : σ → Bool
  body : σ → Except ε σ
  recv : σ → π → σ

namespace FeedLoop

variable {σ π ε : Type*} {L : FeedLoop σ π ε}

/-- One move: a turn of the loop, or a segment once the loop has been left. -/
inductive Step (L : FeedLoop σ π ε) : σ × List π → σ × List π → Prop
  | turn {s s' : σ} {ps : List π} : L.guard s = true → L.body s = .ok s' → Step L (s, ps) (s', ps)
  | recv {s : σ} {p : π} {ps : List π} : L.guard s = false → Step L (s, p :: ps) (L.recv s p, ps)

/-- Any number of moves. -/
def Reaches (L : FeedLoop σ π ε) : σ × List π → σ × List π → Prop :=
  Relation.ReflTransGen L.Step

/-- The run takes all segments and leaves the loop in state `t`. -/
def Completes (L : FeedLoop σ π ε) (s : σ) (ps : List π) (t : σ) : Prop :=
  L.Reaches (s, ps) (t, []) ∧ L.guard t = false

/-- The loop, entered in state `s`, is left. -/
def Halts (L : FeedLoop σ π ε) (s : σ) : Prop := ∃ t, L.Completes s [] t

/-- The next move is determined. -/
theorem Step.det {a b c : σ × List π} (h₁ : L.Step a b) (h₂ : L.Step a c) : b = c := by
  cases h₁ with
  | turn hg hb =>
    cases h₂ with
    | turn _ hb' => rw [hb] at hb'; cases hb'; rfl
    | recv hg' => rw [hg] at hg'; cases hg'
  | recv hg =>
    cases h₂ with
    | turn hg' _ => rw [hg] at hg'; cases hg'
    | recv _ => rfl

/-- **What every move preserves holds at every moment.** -/
theorem reaches_inv (I : σ → List π → Prop)
    (turn : ∀ s ps s', I s ps → L.guard s = true → L.body s = .ok s' → I s' ps)
    (recv : ∀ s p ps, I s (p :: ps) → L.guard s = false → I (L.recv s p) ps)
    {a b : σ × List π} (h : L.Reaches a b) (ha : I a.1 a.2) : I b.1 b.2 := by
  induction h with
  | refl => exact ha
  | tail _ hs ih =>
    cases hs with
    | turn hg hb => exact turn _ _ _ ih hg hb
    | recv hg => exact recv _ _ _ ih hg

/-- A completed run passes every moment of the run. -/
theorem Completes.reaches {s t : σ} {ps : List π} (h : L.Completes s ps t) {b : σ × List π}
    (hb : L.Reaches (s, ps) b) : L.Reaches b (t, []) := by
  have hdet : Relator.RightUnique L.Step := fun _ _ _ => Step.det
  rcases Relation.ReflTransGen.total_of_right_unique hdet h.1 hb with hr | hr
  · -- nothing comes after the end
    rcases hr.cases_head with he | ⟨c, hc, -⟩
    · rw [← he]; exact .refl
    · cases hc with
      | turn hg _ => rw [h.2] at hg; cases hg
  · exact hr

/-- A completed run ends in one state. -/
theorem Completes.det {s t t' : σ} {ps : List π} (h : L.Completes s ps t)
    (h' : L.Completes s ps t') : t = t' := by
  rcases (h.reaches h'.1).cases_head with he | ⟨c, hc, -⟩
  · exact (congrArg Prod.fst he).symm
  · cases hc with
    | turn hg _ => rw [h'.2] at hg; cases hg

theorem Completes.of_turn {s s' t : σ} {ps : List π} (hg : L.guard s = true)
    (hb : L.body s = .ok s') (h : L.Completes s' ps t) : L.Completes s ps t :=
  ⟨.head (.turn hg hb) h.1, h.2⟩

/-- A loop that never fails and decreases a measure is left. -/
theorem leaves_of_measure (I : σ → Prop) (μ : σ → ℕ)
    (turn : ∀ s, I s → L.guard s = true → ∃ s', L.body s = .ok s' ∧ I s' ∧ μ s' < μ s)
    (ps : List π) (s : σ) (hs : I s) :
    ∃ t, L.Reaches (s, ps) (t, ps) ∧ L.guard t = false ∧ I t := by
  induction hn : μ s using Nat.strong_induction_on generalizing s with
  | _ n ih =>
    cases hg : L.guard s with
    | false => exact ⟨s, .refl, hg, hs⟩
    | true =>
      obtain ⟨s', hb, hs', hlt⟩ := turn s hs hg
      obtain ⟨t, hr, ht, hI⟩ := ih (μ s') (by omega) s' hs' rfl
      exact ⟨t, .head (.turn hg hb) hr, ht, hI⟩

/-- **A loop that never fails and decreases a measure takes every segment and is
left**, in a state where the invariant holds. -/
theorem completes_of_measure (I : σ → List π → Prop) (μ : σ → ℕ)
    (turn : ∀ s ps, I s ps → L.guard s = true → ∃ s', L.body s = .ok s' ∧ I s' ps ∧ μ s' < μ s)
    (recv : ∀ s p ps, I s (p :: ps) → L.guard s = false → I (L.recv s p) ps) :
    ∀ (ps : List π) (s : σ), I s ps → ∃ t, L.Completes s ps t ∧ I t [] := by
  intro ps
  induction ps with
  | nil =>
    intro s hs
    obtain ⟨t, hr, ht, hI⟩ := leaves_of_measure (I · []) μ (fun s => turn s []) [] s hs
    exact ⟨t, ⟨hr, ht⟩, hI⟩
  | cons p ps ih =>
    intro s hs
    obtain ⟨u, hr, hu, hI⟩ := leaves_of_measure (I · (p :: ps)) μ (fun s => turn s _) (p :: ps) s hs
    obtain ⟨t, ht, hI'⟩ := ih _ (recv u p ps hI hu)
    exact ⟨t, ⟨hr.trans (.head (.recv hu) ht.1), ht.2⟩, hI'⟩

/-! ## Halting -/

theorem halts_of_exit {s : σ} (hg : L.guard s = false) : L.Halts s := ⟨s, .refl, hg⟩

/-- Halting unfolds one turn. -/
theorem halts_turn {s s' : σ} (hg : L.guard s = true) (hb : L.body s = .ok s') :
    L.Halts s ↔ L.Halts s' := by
  refine ⟨fun ⟨t, ht⟩ => ⟨t, ?_⟩, fun ⟨t, ht⟩ => ⟨t, ht.of_turn hg hb⟩⟩
  exact ⟨ht.reaches (.single (.turn hg hb)), ht.2⟩

/-- A failing turn is no way out of the loop. -/
theorem not_halts_of_error {s : σ} {e : ε} (hg : L.guard s = true) (hb : L.body s = .error e) :
    ¬ L.Halts s := by
  rintro ⟨t, hr, ht⟩
  rcases hr.cases_head with he | ⟨c, hc, -⟩
  · cases he; rw [hg] at ht; cases ht
  · cases hc with
    | turn _ hb' => rw [hb] at hb'; cases hb'

/-- **An invariant of the turns that keeps the guard up keeps the loop going.** -/
theorem not_halts_of_inv (I : σ → Prop) (guard : ∀ s, I s → L.guard s = true)
    (turn : ∀ s s', I s → L.body s = .ok s' → I s') {s : σ} (hs : I s) : ¬ L.Halts s := by
  rintro ⟨t, hr, ht⟩
  have : I t := reaches_inv (fun s _ => I s) (fun s _ s' h _ hb => turn s s' h hb)
    (fun s p ps h hg => by rw [guard s h] at hg; cases hg) hr hs
  rw [guard t this] at ht
  cases ht

/-! ## Evaluation -/

/-- The next move, if there is one. -/
def next (L : FeedLoop σ π ε) (a : σ × List π) : Option (σ × List π) :=
  if L.guard a.1 then
    match L.body a.1 with
    | .ok s => some (s, a.2)
    | .error _ => none
  else
    match a.2 with
    | [] => none
    | p :: ps => some (L.recv a.1 p, ps)

/-- The moment after `n` moves. -/
def after (L : FeedLoop σ π ε) : ℕ → σ × List π → Option (σ × List π)
  | 0, a => some a
  | n + 1, a => (L.next a).bind (after L n)

theorem step_of_next {a b : σ × List π} (h : L.next a = some b) : L.Step a b := by
  obtain ⟨s, ps⟩ := a
  unfold next at h
  split_ifs at h with hg
  · rcases hb : L.body s with e | s'
    · rw [hb] at h; cases h
    · rw [hb] at h; cases h
      exact .turn hg hb
  · rcases ps with _ | ⟨p, ps⟩
    · cases h
    · cases h
      exact .recv (by simpa using hg)

/-- **The evaluated moments are moments of the run.** -/
theorem reaches_of_after {n : ℕ} {a b : σ × List π} (h : L.after n a = some b) :
    L.Reaches a b := by
  induction n generalizing a with
  | zero => cases h; exact .refl
  | succ n ih =>
    obtain ⟨c, hc, h⟩ := Option.bind_eq_some_iff.1 h
    exact .head (step_of_next hc) (ih h)

end FeedLoop
