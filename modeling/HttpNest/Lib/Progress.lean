import HttpNest.Lib.EventRun

/-!
# How long a run can be, and where it ends

Some events are counted, and each of them brings a measure down; some other events may bring it
up, but not by more than a constant. Then a run has at most so many counted events
(`countP_le_of_measure`). If in addition a counted event can happen wherever a goal has not been
reached (`Enabled`), counted events lead to the goal (`exists_run_to`), whichever of them happen
and whatever else does. Both hold as well where only the steps that meet a condition are known
to do so (`countP_le_of_meets`, `exists_run_to_of_meets`), and `meets_iff_of_lost` says when the
end of a run shows whether all of them have met it.
-/

namespace EventRun

variable {σ ε : Type*} {step : σ → ε → Option σ} {C : σ → ε → Prop}

/-- **The counted events of a run are bounded by a measure** that they decrease, and that no
event increases but those of `up`, by `c` at most; all steps of the run meet the condition. -/
theorem countP_le_of_meets (I : σ → Prop) (μ : σ → ℕ) (counted up : ε → Bool) (c : ℕ)
    (hinv : ∀ s e s', I s → C s e → step s e = some s' → I s')
    (hdec : ∀ s e s', I s → C s e → step s e = some s' → counted e = true → μ s' < μ s)
    (hle : ∀ s e s', I s → C s e → step s e = some s' → counted e = false →
      μ s' ≤ μ s + if up e = true then c else 0) {es : List ε} :
    ∀ {s t : σ}, I s → Meets step C s es → run step s es = some t →
      es.countP counted + μ t ≤ μ s + c * es.countP up := by
  induction es with
  | nil =>
    intro s t _ _ h
    cases h
    simp
  | cons e es ih =>
    intro s t hs hm h
    obtain ⟨u, hu, h⟩ := run_cons_eq_some.1 h
    have hrest := ih (hinv s e u hs hm.1 hu) (hm.2 u hu) h
    rw [List.countP_cons, List.countP_cons, Nat.mul_add]
    cases he : counted e with
    | true =>
      have hlt := hdec s e u hs hm.1 hu he
      simp only [if_true]
      omega
    | false =>
      have hbound := hle s e u hs hm.1 hu he
      cases hup : up e with
      | true =>
        simp only [hup, if_true, Bool.false_eq_true, if_false] at hbound ⊢
        omega
      | false =>
        simp only [hup, Bool.false_eq_true, if_false] at hbound ⊢
        omega

theorem countP_le_of_measure (step : σ → ε → Option σ) (I : σ → Prop) (μ : σ → ℕ)
    (counted up : ε → Bool) (c : ℕ)
    (hinv : ∀ s e s', I s → step s e = some s' → I s')
    (hdec : ∀ s e s', I s → step s e = some s' → counted e = true → μ s' < μ s)
    (hle : ∀ s e s', I s → step s e = some s' → counted e = false →
      μ s' ≤ μ s + if up e = true then c else 0) {es : List ε} {s t : σ} (hs : I s)
    (h : run step s es = some t) : es.countP counted + μ t ≤ μ s + c * es.countP up :=
  countP_le_of_meets (C := fun _ _ => True) I μ counted up c (fun s e s' hI _ => hinv s e s' hI)
    (fun s e s' hI _ => hdec s e s' hI) (fun s e s' hI _ => hle s e s' hI) hs
    (meets_of_forall fun _ _ => trivial) h

/-- **A property that is lost for good by the steps that do not meet a condition**, and by no
others, tells at the end of a run whether all steps have met it; all of them meet `E`. -/
theorem meets_iff_of_lost {E : σ → ε → Prop} (I P : σ → Prop)
    (hinv : ∀ s e s', I s → E s e → step s e = some s' → I s')
    (hlost : ∀ s e s', I s → E s e → step s e = some s' → (P s' ↔ P s ∧ C s e)) {es : List ε} :
    ∀ {s t : σ}, I s → Meets step E s es → run step s es = some t →
      (P s ∧ Meets step C s es ↔ P t) := by
  induction es with
  | nil =>
    intro s t _ _ h
    cases h
    exact and_iff_left trivial
  | cons e es ih =>
    rintro s t hs ⟨he, hrest⟩ h
    obtain ⟨u, hu, h⟩ := run_cons_eq_some.1 h
    rw [← ih (hinv s e u hs he hu) (hrest u hu) h, hlost s e u hs he hu, and_assoc]
    refine and_congr_right fun _ => and_congr_right fun _ => ⟨fun hm => hm u hu, fun hm v hv => ?_⟩
    rw [hu] at hv
    cases hv
    exact hm

/-- A condition on the events alone, where the run goes through. -/
theorem meets_iff_forall {E : ε → Prop} {es : List ε} : ∀ {s t : σ}, run step s es = some t →
    (Meets step (fun _ => E) s es ↔ ∀ e ∈ es, E e) := by
  induction es with
  | nil => exact fun _ => iff_of_true trivial (fun _ h => (by cases h))
  | cons e es ih =>
    intro s t h
    obtain ⟨u, hu, h⟩ := run_cons_eq_some.1 h
    rw [List.forall_mem_cons, ← ih h]
    refine and_congr_right fun _ => ⟨fun hm => hm u hu, fun hm v hv => ?_⟩
    rw [hu] at hv
    cases hv
    exact hm

/-- A counted event can happen. -/
def Enabled (step : σ → ε → Option σ) (counted : ε → Bool) (s : σ) : Prop :=
  ∃ e, counted e = true ∧ (step s e).isSome

/-- **Counted events lead to the goal**, if one of them that meets the condition can happen
wherever it has not been reached. -/
theorem exists_run_to_of_meets (I G : σ → Prop) (μ : σ → ℕ) (counted : ε → Bool)
    (hinv : ∀ s e s', I s → C s e → step s e = some s' → I s')
    (hdec : ∀ s e s', I s → C s e → step s e = some s' → counted e = true → μ s' < μ s)
    (hen : ∀ s, I s → ¬ G s → ∃ e, counted e = true ∧ C s e ∧ (step s e).isSome) {s : σ}
    (hs : I s) : ∃ es t, (∀ e ∈ es, counted e = true) ∧ run step s es = some t ∧ G t := by
  induction hn : μ s using Nat.strong_induction_on generalizing s with
  | _ n ih =>
    by_cases hG : G s
    · exact ⟨[], s, fun _ h => (by cases h), rfl, hG⟩
    obtain ⟨e, he, hC, hsome⟩ := hen s hs hG
    obtain ⟨u, hu⟩ := Option.isSome_iff_exists.1 hsome
    obtain ⟨es, t, hes, ht, hGt⟩ :=
      ih (μ u) (hn ▸ hdec s e u hs hC hu he) (hinv s e u hs hC hu) rfl
    refine ⟨e :: es, t, fun f hf => ?_, run_cons_eq_some.2 ⟨u, hu, ht⟩, hGt⟩
    rcases List.mem_cons.1 hf with rfl | hf
    · exact he
    · exact hes f hf

theorem exists_run_to (step : σ → ε → Option σ) (I G : σ → Prop) (μ : σ → ℕ) (counted : ε → Bool)
    (hinv : ∀ s e s', I s → step s e = some s' → I s')
    (hdec : ∀ s e s', I s → step s e = some s' → counted e = true → μ s' < μ s)
    (hen : ∀ s, I s → ¬ G s → Enabled step counted s) {s : σ} (hs : I s) :
    ∃ es t, (∀ e ∈ es, counted e = true) ∧ run step s es = some t ∧ G t := by
  refine exists_run_to_of_meets (C := fun _ _ => True) I G μ counted
    (fun s e s' hI _ => hinv s e s' hI) (fun s e s' hI _ => hdec s e s' hI) (fun s hI hG => ?_) hs
  obtain ⟨e, he, hsome⟩ := hen s hI hG
  exact ⟨e, he, trivial, hsome⟩

end EventRun
