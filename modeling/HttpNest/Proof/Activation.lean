import HttpNest.Spec.Activation

/-!
# Activations that cross

`Active` tests the flag that its activation sets later. As long as no call of `Active` or
`Deactive` is made in between, at most one activation is in flight, `active_` is false until it
is stored, and the last call was the `Active` that it belongs to (`Single`). Two calls of
`Active` before the activation is stored run `activeCb_` twice for one transition, and a
`Deactive` in between is overruled (`activations_cross`).
-/

namespace HttpNest

open EventRun

namespace Activity

variable {τ : Type*} [DecidableEq τ] {loop : τ} {s s' : Activity τ}

/-- At most one activation is in flight: with none `active_` is what the last call was for; one
is that of the last call, an `Active` that found `active_` false. -/
structure Single (loop : τ) (s : Activity τ) : Prop where
  callbacks : s.callbacks + (if s.calling then 1 else 0) = s.transitions
  busy : s.tested loop = true → s.calling = false
  flight : (s.NoneInFlight ∧ s.active = s.last) ∨
    (s.active = false ∧ s.last = true ∧
      ((∃ t, ∀ u, s.tested u = true ↔ u = t) ∧ s.queue = 0 ∨
        (∀ u, s.tested u = false) ∧ s.queue = 1))

omit [DecidableEq τ] in
theorem Single.faithful (h : Single loop s) : Faithful s := by
  refine ⟨h.callbacks, fun hnone _ => ?_⟩
  rcases h.flight with ⟨-, hactive⟩ | ⟨-, -, ⟨⟨t, ht⟩, -⟩ | ⟨-, hqueue⟩⟩
  · rw [hactive]
  · have htrue := (ht t).2 rfl
    rw [hnone.1 t] at htrue
    cases htrue
  · have hzero := hnone.2
    omega

omit [DecidableEq τ] in
/-- An activation that is the only one is stored: `active_` was false, and is what the last call
was for. -/
theorem Single.store (h : s.callbacks + (if s.calling then 1 else 0) = s.transitions)
    (hactive : s.active = false) (hcalling : s.calling = false) (hlast : s.last = true)
    (hnone : s.NoneInFlight) : Single loop s.store := by
  refine ⟨?_, fun htested => ?_, .inl ⟨hnone, hlast.symm⟩⟩
  · simp only [Activity.store, hactive, hcalling] at h ⊢
    simpa using h
  · have hfree := hnone.1 loop
    rw [show s.store.tested loop = s.tested loop from rfl, hfree] at htested
    cases htested

theorem Single.test (h : Single loop s) (hnone : s.NoneInFlight) {t : τ} (hfree : s.Free loop t) :
    Single loop { s with
      tested := if s.active then s.tested else Function.update s.tested t true
      last := true } := by
  by_cases hactive : s.active = true
  · rw [if_pos hactive]
    exact ⟨h.callbacks, h.busy, .inl ⟨hnone, hactive⟩⟩
  · rw [if_neg hactive]
    rw [Bool.not_eq_true] at hactive
    refine ⟨h.callbacks, fun htested => ?_, .inr ⟨hactive, rfl, .inl ⟨⟨t, fun u => ?_⟩, hnone.2⟩⟩⟩
    · by_cases hloop : loop = t
      · exact hfree.2 hloop.symm
      · simp only [Function.update_of_ne hloop] at htested
        exact h.busy htested
    · by_cases hu : u = t
      · simp [hu]
      · simp [hu, hnone.1 u]

/-- The only thread that has tested calls `RunInLoop`. -/
theorem Single.post (h : Single loop s) {t : τ} (htested : s.tested t = true)
    (hs : s.step loop (.post t) = some s') : Single loop s' := by
  obtain ⟨-, hs⟩ := Option.ite_none_right_eq_some.1 hs
  simp only at hs
  rcases h.flight with ⟨hnone, -⟩ | ⟨hactive, hlast, ⟨⟨t', ht'⟩, hqueue⟩ | ⟨hnone, -⟩⟩
  · rw [hnone.1 t] at htested
    cases htested
  · have ht : t = t' := (ht' t).1 htested
    have hnone : ∀ u, Function.update s.tested t false u = false := by
      intro u
      rw [Function.update_apply]
      split_ifs with hu
      · rfl
      · rw [← Bool.not_eq_true, ht']
        exact fun hut => hu (hut.trans ht.symm)
    split_ifs at hs with hloop
    · cases hs
      exact Single.store h.callbacks hactive (h.busy (hloop ▸ htested)) hlast ⟨hnone, hqueue⟩
    · cases hs
      refine ⟨h.callbacks, fun hl => ?_, .inr ⟨hactive, hlast, .inr ⟨hnone, ?_⟩⟩⟩
      · simp only [hnone loop] at hl
        cases hl
      · simp only [hqueue]
  · rw [hnone t] at htested
    cases htested

/-- A step under the condition keeps the activations apart. -/
theorem Single.step (h : Single loop s) {e : ActiveStep τ} (he : s.Alone e)
    (hs : s.step loop e = some s') : Single loop s' := by
  cases e with
  | test t =>
    obtain ⟨hfree, hs⟩ := Option.ite_none_right_eq_some.1 hs
    cases hs
    exact h.test he hfree
  | post t => exact h.post (Option.ite_none_right_eq_some.1 hs).1 hs
  | deactive t =>
    obtain ⟨-, hs⟩ := Option.ite_none_right_eq_some.1 hs
    cases hs
    exact ⟨h.callbacks, h.busy, .inl ⟨he, rfl⟩⟩
  | callback =>
    obtain ⟨hcalling, hs⟩ := Option.ite_none_right_eq_some.1 hs
    cases hs
    refine ⟨?_, fun _ => rfl, h.flight⟩
    have hcount := h.callbacks
    rw [if_pos hcalling] at hcount
    simpa using hcount
  | returns | lock | unlock =>
    obtain ⟨-, hs⟩ := Option.ite_none_right_eq_some.1 hs
    cases hs
    exact ⟨h.callbacks, h.busy, h.flight⟩
  | front =>
    obtain ⟨⟨hfree, -, -, hpos⟩, hs⟩ := Option.ite_none_right_eq_some.1 hs
    cases hs
    -- the activation in the queue is the only one in flight
    rcases h.flight with ⟨hnone, -⟩ | ⟨hactive, hlast, ⟨-, hqueue⟩ | ⟨hnone, hqueue⟩⟩
    · have hzero := hnone.2
      omega
    · omega
    · exact Single.store h.callbacks hactive (hfree.2 rfl) hlast ⟨hnone, by simp only [hqueue]⟩

omit [DecidableEq τ] in
theorem single_start : Single loop ({} : Activity τ) :=
  ⟨rfl, fun h => (by cases h), .inl ⟨⟨fun _ => rfl, rfl⟩, rfl⟩⟩

/-- **Activations one at a time.** In every run in which no call of `Active` or `Deactive` is
made while an activation is in flight, `activeCb_` runs exactly once for each transition of
`active_` to true, and with no activation left `active_` is true exactly if the last call was
one of `Active`. -/
theorem activation_faithful {es : List (ActiveStep τ)}
    (h : run (step loop) {} es = some s) (hc : Meets (step loop) Alone {} es) : Faithful s :=
  (run_inv_of_meets (Single loop) (fun _ _ _ hs he ht => hs.step he ht) single_start hc h).faithful

instance [Fintype τ] (s : Activity τ) : Decidable s.NoneInFlight :=
  inferInstanceAs (Decidable (_ ∧ _))

instance [Fintype τ] (s : Activity τ) : DecidablePred s.Alone
  | .test _ | .deactive _ => inferInstanceAs (Decidable s.NoneInFlight)
  | .post _ | .callback | .returns | .lock | .front | .unlock => .isTrue trivial

/-- `Active` on the loop's thread, `Deactive` by another one, and its `Active`, which posts. -/
theorem activation_faithful_once : ∃ s : Activity Bool, run (step true) {}
      [.test true, .post true, .callback, .returns, .deactive false, .test false, .post false,
        .lock, .front, .callback] = some s ∧ s.callbacks = 2 ∧ Faithful s := by
  have hrun : run (step true) ({} : Activity Bool)
      [.test true, .post true, .callback, .returns, .deactive false, .test false, .post false,
        .lock, .front, .callback] = some _ := rfl
  exact ⟨_, hrun, rfl, activation_faithful hrun (by decide)⟩

/-- `Active` twice before the loop gets to the activations: `activeCb_` runs twice for one
transition. `Active` and then `Deactive` before it: `active_` ends up true. -/
theorem activations_cross :
    (¬ ∀ (es : List (ActiveStep Bool)) (s : Activity Bool), run (step true) {} es = some s →
      s.callbacks + (if s.calling then 1 else 0) = s.transitions) ∧
    ¬ ∀ (es : List (ActiveStep Bool)) (s : Activity Bool), run (step true) {} es = some s →
      s.NoneInFlight → s.calling = false → (s.active = true ↔ s.last = true) := by
  refine ⟨fun h => ?_, fun h => ?_⟩
  · have hcount := h [.test false, .post false, .test false, .post false, .lock, .front, .callback,
      .returns, .front, .callback] _ rfl
    exact absurd hcount (by decide)
  · have hactive := h [.test false, .post false, .deactive false, .lock, .front, .callback] _ rfl
      ⟨by decide, rfl⟩ rfl
    exact absurd hactive (by decide)

end Activity

end HttpNest
