import Mathlib

/-!
# Runs of a partial step function

`step s e` is the state after event `e` in state `s`, or `none` where `e` cannot
happen (or must not, when `none` stands for a fault). `run step s es` plays a list
of events. A property of runs is proved from its steps: `run_inv` for an
invariant, `run_inv_of_meets` for an invariant that only the steps meeting a
condition preserve (`Meets`); `passes_iff_meets` and `lasts_iff_meets` make such a condition
exact, and `meets_iff_of_inv` compares two of them. A prefix of a run is a run (`run_append`), so a
fact about all runs is a fact about every state a run passes.
-/

namespace EventRun

variable {σ ε : Type*} {step : σ → ε → Option σ}

/-- Play a list of events. -/
def run (step : σ → ε → Option σ) : σ → List ε → Option σ
  | s, [] => some s
  | s, e :: es => (step s e).bind fun s' => run step s' es

@[simp] theorem run_nil (s : σ) : run step s [] = some s := rfl

theorem run_cons (s : σ) (e : ε) (es : List ε) :
    run step s (e :: es) = (step s e).bind fun s' => run step s' es := rfl

theorem run_cons_eq_some {s t : σ} {e : ε} {es : List ε} :
    run step s (e :: es) = some t ↔ ∃ u, step s e = some u ∧ run step u es = some t := by
  rw [run_cons, Option.bind_eq_some_iff]

/-- A run in two parts passes a state between them. -/
theorem run_append {t : σ} : ∀ {s : σ} {es fs : List ε},
    run step s (es ++ fs) = some t ↔ ∃ u, run step s es = some u ∧ run step u fs = some t
  | s, [], fs => by simp
  | s, e :: es, fs => by
    rw [List.cons_append, run_cons_eq_some]
    constructor
    · rintro ⟨u, hu, h⟩
      obtain ⟨v, hv, h⟩ := run_append.1 h
      exact ⟨v, run_cons_eq_some.2 ⟨u, hu, hv⟩, h⟩
    · rintro ⟨v, hv, h⟩
      obtain ⟨u, hu, hv⟩ := run_cons_eq_some.1 hv
      exact ⟨u, hu, run_append.2 ⟨v, hv, h⟩⟩

/-- **An invariant of the steps holds after every run.** -/
theorem run_inv (I : σ → Prop) (hstep : ∀ s e s', I s → step s e = some s' → I s') :
    ∀ {es : List ε} {s t : σ}, I s → run step s es = some t → I t
  | [], s, t, hs, h => by cases h; exact hs
  | e :: es, s, t, hs, h => by
    obtain ⟨u, hu, h⟩ := run_cons_eq_some.1 h
    exact run_inv I hstep (hstep s e u hs hu) h

/-- Every step of the run meets the condition `C` in the state it starts from. -/
def Meets (step : σ → ε → Option σ) (C : σ → ε → Prop) : σ → List ε → Prop
  | _, [] => True
  | s, e :: es => C s e ∧ ∀ s', step s e = some s' → Meets step C s' es

variable {C : σ → ε → Prop}

instance decidableMeets [∀ s e, Decidable (C s e)] :
    ∀ (s : σ) (es : List ε), Decidable (Meets step C s es)
  | _, [] => isTrue trivial
  | s, e :: es =>
    match hs : step s e with
    | none => decidable_of_iff (C s e) ⟨fun h => ⟨h, fun _ hs' => by simp [hs] at hs'⟩, And.left⟩
    | some u =>
      haveI := decidableMeets u es
      decidable_of_iff (C s e ∧ Meets step C u es)
        ⟨fun h => ⟨h.1, fun _ hs' => Option.some.inj (hs.symm.trans hs') ▸ h.2⟩,
          fun h => ⟨h.1, h.2 u hs⟩⟩

/-- A run in two parts meets the condition in both of them. -/
theorem meets_append {es fs : List ε} : ∀ {s : σ}, Meets step C s (es ++ fs) ↔
    Meets step C s es ∧ ∀ t, run step s es = some t → Meets step C t fs := by
  induction es with
  | nil =>
    intro s
    simp [Meets]
  | cons e es ih =>
    intro s
    constructor
    · rintro ⟨hc, h⟩
      refine ⟨⟨hc, fun u hu => (ih.1 (h u hu)).1⟩, fun t ht => ?_⟩
      obtain ⟨u, hu, ht⟩ := run_cons_eq_some.1 ht
      exact (ih.1 (h u hu)).2 t ht
    · rintro ⟨⟨hc, h⟩, hfs⟩
      refine ⟨hc, fun u hu => ih.2 ⟨h u hu, fun t ht => ?_⟩⟩
      exact hfs t (run_cons_eq_some.2 ⟨u, hu, ht⟩)

theorem Meets.append_left {s : σ} {es fs : List ε} (h : Meets step C s (es ++ fs)) :
    Meets step C s es :=
  (meets_append.1 h).1

theorem Meets.append_right {s t : σ} {es fs : List ε} (h : Meets step C s (es ++ fs))
    (hr : run step s es = some t) : Meets step C t fs :=
  (meets_append.1 h).2 t hr

/-- **An invariant of the steps that meet a condition holds after every run whose
steps all meet it.** -/
theorem run_inv_of_meets (I : σ → Prop)
    (hstep : ∀ s e s', I s → C s e → step s e = some s' → I s') :
    ∀ {es : List ε} {s t : σ}, I s → Meets step C s es → run step s es = some t → I t
  | [], s, t, hs, _, h => by cases h; exact hs
  | e :: es, s, t, hs, hm, h => by
    obtain ⟨u, hu, h⟩ := run_cons_eq_some.1 h
    exact run_inv_of_meets I hstep (hstep s e u hs hm.1 hu) (hm.2 u hu) h

/-- A condition on the events alone. -/
theorem meets_of_forall {E : ε → Prop} {es : List ε} :
    ∀ {s : σ}, (∀ e ∈ es, E e) → Meets step (fun _ => E) s es := by
  induction es with
  | nil => exact fun _ => trivial
  | cons e es ih =>
    intro s h
    exact ⟨h e (List.mem_cons_self ..), fun s' _ => ih fun f hf => h f (List.mem_cons_of_mem _ hf)⟩

/-- A run that meets two conditions. -/
theorem Meets.and {D : σ → ε → Prop} {es : List ε} : ∀ {s : σ}, Meets step C s es →
    Meets step D s es → Meets step (fun s e => C s e ∧ D s e) s es := by
  induction es with
  | nil => exact fun _ _ => trivial
  | cons e es ih =>
    rintro s ⟨hc, h⟩ ⟨hd, h'⟩
    exact ⟨⟨hc, hd⟩, fun s' hs' => ih (h s' hs') (h' s' hs')⟩

/-- A condition implies another one along an invariant of the steps that meet it. -/
theorem Meets.imp_of_inv {D : σ → ε → Prop} (I : σ → Prop) (hI : ∀ s e, I s → C s e → D s e)
    (hstep : ∀ s e s', I s → C s e → step s e = some s' → I s') {es : List ε} :
    ∀ {s : σ}, I s → Meets step C s es → Meets step D s es := by
  induction es with
  | nil => exact fun _ _ => trivial
  | cons e es ih =>
    rintro s hs ⟨hc, h⟩
    exact ⟨hI s e hs hc, fun s' hs' => ih (hstep s e s' hs hc hs') (h s' hs')⟩

/-- A condition that an invariant of all steps implies is met by every run. -/
theorem meets_of_inv (I : σ → Prop) (hI : ∀ s e, I s → C s e)
    (hstep : ∀ s e s', I s → step s e = some s' → I s') :
    ∀ {es : List ε} {s : σ}, I s → Meets step C s es
  | [], _, _ => trivial
  | _ :: _, s, hs => ⟨hI s _ hs, fun s' hs' => meets_of_inv I hI hstep (hstep s _ s' hs hs')⟩

/-- **Two conditions that agree where an invariant holds agree on runs from there**, if
the steps that meet them preserve it. -/
theorem meets_iff_of_inv {D : σ → ε → Prop} (I : σ → Prop)
    (hiff : ∀ s e, I s → (C s e ↔ D s e))
    (hstep : ∀ s e s', I s → D s e → step s e = some s' → I s') :
    ∀ {es : List ε} {s : σ}, I s → (Meets step C s es ↔ Meets step D s es)
  | [], _, _ => .rfl
  | e :: es, s, hs => by
    constructor
    · rintro ⟨hc, h⟩
      have hd := (hiff s e hs).1 hc
      refine ⟨hd, fun s' hs' => ?_⟩
      exact (meets_iff_of_inv I hiff hstep (hstep s e s' hs hd hs')).1 (h s' hs')
    · rintro ⟨hd, h⟩
      refine ⟨(hiff s e hs).2 hd, fun s' hs' => ?_⟩
      exact (meets_iff_of_inv I hiff hstep (hstep s e s' hs hd hs')).2 (h s' hs')

/-- The property holds in every state that the run passes. -/
def Passes (step : σ → ε → Option σ) (P : σ → Prop) (s : σ) (es : List ε) : Prop :=
  ∀ n t, run step s (es.take n) = some t → P t

/-- A run whose steps all meet a condition that keeps an invariant passes only states of it. -/
theorem passes_of_meets {P : σ → Prop} (I : σ → Prop) (hI : ∀ s, I s → P s)
    (hkeep : ∀ s e s', I s → C s e → step s e = some s' → I s') {es : List ε} {s : σ} (hs : I s)
    (h : Meets step C s es) : Passes step P s es := by
  intro n t ht
  rw [← List.take_append_drop n es] at h
  exact hI t (run_inv_of_meets I hkeep hs h.append_left ht)

/-- **A property holds all along a run exactly if every step meets a condition**, when the
steps that meet it keep the property, and those that do not break it; all steps of the run
meet `E`. -/
theorem passes_iff_meets_of_meets {P : σ → Prop} {E : σ → ε → Prop} (I : σ → Prop)
    (hI : ∀ s, I s → P s)
    (hkeep : ∀ s e s', I s → E s e → C s e → step s e = some s' → I s')
    (hbreak : ∀ s e, I s → E s e → ¬ C s e → ∃ s', step s e = some s' ∧ ¬ P s')
    {es : List ε} : ∀ {s : σ}, I s → Meets step E s es →
      (Passes step P s es ↔ Meets step C s es) := by
  induction es with
  | nil =>
    intro s hs _
    refine ⟨fun _ => trivial, fun _ n t ht => ?_⟩
    rw [List.take_nil] at ht
    cases ht
    exact hI s hs
  | cons e es ih =>
    rintro s hs ⟨he, hrest⟩
    constructor
    · intro h
      have hc : C s e := by
        by_contra hc
        obtain ⟨s', hs', hP⟩ := hbreak s e hs he hc
        exact hP (h 1 s' (by simp [run_cons, hs']))
      refine ⟨hc, fun u hu => (ih (hkeep s e u hs he hc hu) (hrest u hu)).1 fun n t ht => ?_⟩
      exact h (n + 1) t (run_cons_eq_some.2 ⟨u, hu, ht⟩)
    · rintro ⟨hc, h⟩ n t ht
      cases n with
      | zero =>
        cases ht
        exact hI s hs
      | succ n =>
        obtain ⟨u, hu, ht⟩ := run_cons_eq_some.1 ht
        exact (ih (hkeep s e u hs he hc hu) (hrest u hu)).2 (h u hu) n t ht

/-- The same where `E` is about the events alone. -/
theorem passes_iff_meets_of_forall {P : σ → Prop} {E : ε → Prop} (I : σ → Prop)
    (hI : ∀ s, I s → P s)
    (hkeep : ∀ s e s', I s → E e → C s e → step s e = some s' → I s')
    (hbreak : ∀ s e, I s → E e → ¬ C s e → ∃ s', step s e = some s' ∧ ¬ P s') {es : List ε}
    (hes : ∀ e ∈ es, E e) {s : σ} (hs : I s) : Passes step P s es ↔ Meets step C s es :=
  passes_iff_meets_of_meets I hI hkeep hbreak hs (meets_of_forall hes)

theorem passes_iff_meets {P : σ → Prop} (I : σ → Prop) (hI : ∀ s, I s → P s)
    (hkeep : ∀ s e s', I s → C s e → step s e = some s' → I s')
    (hbreak : ∀ s e, I s → ¬ C s e → ∃ s', step s e = some s' ∧ ¬ P s') {es : List ε} {s : σ}
    (hs : I s) : Passes step P s es ↔ Meets step C s es :=
  passes_iff_meets_of_forall (E := fun _ => True) I hI (fun s e s' h _ => hkeep s e s' h)
    (fun s e h _ => hbreak s e h) (fun _ _ => trivial) hs

/-- **A property holds all along a run that goes through exactly if every event meets a
condition**, when the steps of such events keep the property and those of others break it. -/
theorem passes_iff_forall {P : σ → Prop} {E : ε → Prop} (I : σ → Prop) (hI : ∀ s, I s → P s)
    (hkeep : ∀ s e s', I s → E e → step s e = some s' → I s')
    (hbreak : ∀ s e s', I s → ¬ E e → step s e = some s' → ¬ P s') {es : List ε} :
    ∀ {s t : σ}, I s → run step s es = some t → (Passes step P s es ↔ ∀ e ∈ es, E e) := by
  induction es with
  | nil =>
    intro s t hs _
    refine ⟨fun _ e he => (by cases he), fun _ n u hu => ?_⟩
    rw [List.take_nil] at hu
    cases hu
    exact hI s hs
  | cons e es ih =>
    intro s t hs hrun
    obtain ⟨u, hu, hrun⟩ := run_cons_eq_some.1 hrun
    constructor
    · intro h
      have he : E e := by
        by_contra he
        exact hbreak s e u hs he hu (h 1 u (by simp [run_cons, hu]))
      have hrest := (ih (hkeep s e u hs he hu) hrun).1 fun n v hv =>
        h (n + 1) v (run_cons_eq_some.2 ⟨u, hu, hv⟩)
      intro f hf
      rcases List.mem_cons.1 hf with rfl | hf
      · exact he
      · exact hrest f hf
    · intro h n v hv
      have he : E e := h e (List.mem_cons_self ..)
      cases n with
      | zero =>
        cases hv
        exact hI s hs
      | succ n =>
        obtain ⟨w, hw, hv⟩ := run_cons_eq_some.1 hv
        rw [hu] at hw
        cases hw
        exact (ih (hkeep s e u hs he hu) hrun).2
          (fun f hf => h f (List.mem_cons_of_mem _ hf)) n v hv

/-- No step of the run stops it, and the property holds in every state that it passes. -/
def Lasts (step : σ → ε → Option σ) (P : σ → Prop) (s : σ) (es : List ε) : Prop :=
  ∀ n, ∃ t, run step s (es.take n) = some t ∧ P t

/-- **A run lasts exactly if every step meets a condition**, when the steps that meet it
succeed and keep the property, and those that do not break it or stop the run; all steps of the
run meet `E`. -/
theorem lasts_iff_meets_of_meets {P : σ → Prop} {E : σ → ε → Prop} (I : σ → Prop)
    (hI : ∀ s, I s → P s)
    (hkeep : ∀ s e, I s → E s e → C s e → ∃ s', step s e = some s' ∧ I s')
    (hbreak : ∀ s e s', I s → E s e → ¬ C s e → step s e = some s' → ¬ P s') {es : List ε} :
    ∀ {s : σ}, I s → Meets step E s es → (Lasts step P s es ↔ Meets step C s es) := by
  induction es with
  | nil =>
    intro s hs _
    exact ⟨fun _ => trivial, fun _ n => ⟨s, by rw [List.take_nil]; rfl, hI s hs⟩⟩
  | cons e es ih =>
    rintro s hs ⟨he, hrest⟩
    constructor
    · intro h
      have hc : C s e := by
        by_contra hc
        obtain ⟨t, ht, hP⟩ := h 1
        obtain ⟨u, hu, ht⟩ := run_cons_eq_some.1 ht
        cases ht
        exact hbreak s e _ hs he hc hu hP
      obtain ⟨u, hu, hIu⟩ := hkeep s e hs he hc
      refine ⟨hc, fun v hv => ?_⟩
      rw [hu] at hv
      cases hv
      refine (ih hIu (hrest u hu)).1 fun n => ?_
      obtain ⟨t, ht, hP⟩ := h (n + 1)
      obtain ⟨w, hw, ht⟩ := run_cons_eq_some.1 ht
      rw [hu] at hw
      cases hw
      exact ⟨t, ht, hP⟩
    · rintro ⟨hc, h⟩ n
      obtain ⟨u, hu, hIu⟩ := hkeep s e hs he hc
      cases n with
      | zero => exact ⟨s, rfl, hI s hs⟩
      | succ n =>
        obtain ⟨t, ht, hP⟩ := (ih hIu (hrest u hu)).2 (h u hu) n
        exact ⟨t, run_cons_eq_some.2 ⟨u, hu, ht⟩, hP⟩

/-- The same for all runs, where the other steps stop the run. -/
theorem lasts_iff_meets {P : σ → Prop} (I : σ → Prop) (hI : ∀ s, I s → P s)
    (hkeep : ∀ s e, I s → C s e → ∃ s', step s e = some s' ∧ I s')
    (hstop : ∀ s e, I s → ¬ C s e → step s e = none) {es : List ε} {s : σ} (hs : I s) :
    Lasts step P s es ↔ Meets step C s es :=
  lasts_iff_meets_of_meets (E := fun _ _ => True) I hI (fun s e h _ => hkeep s e h)
    (fun s e s' h _ hc hs' => by rw [hstop s e h hc] at hs'; cases hs') hs
    (meets_of_inv (fun _ => True) (fun _ _ _ => trivial) (fun _ _ _ _ _ => trivial) trivial)

/-- **Simulation.** If every allowed step from related states succeeds and leads to
related states, every run of allowed steps succeeds and ends in related states. -/
theorem run_sim {τ : Type*} (R : σ → τ → Prop) (astep : τ → ε → τ)
    (hstep : ∀ s t e, R s t → C s e → ∃ s', step s e = some s' ∧ R s' (astep t e)) :
    ∀ {es : List ε} {s : σ} {t : τ}, R s t → Meets step C s es →
      ∃ s', run step s es = some s' ∧ R s' (es.foldl astep t)
  | [], s, _, hR, _ => ⟨s, rfl, hR⟩
  | e :: es, s, t, hR, hm => by
    obtain ⟨u, hu, hRu⟩ := hstep s t e hR hm.1
    obtain ⟨s', hs', hR'⟩ := run_sim R astep hstep hRu (hm.2 u hu)
    exact ⟨s', run_cons_eq_some.2 ⟨u, hu, hs'⟩, hR'⟩

end EventRun
