import HttpNest.Proof.MinuteWheel

/-!
# The wheel goes on

As long as nothing is undefined, what has been released can be dropped, the next wheel can be
popped, and `OnTimer` can tick again: from every state there is a run without insertions to any
later tick, or to a closure whose insertion is undefined (`exists_tick`).
-/

namespace HttpNest

open EventRun TimingWheel

variable {s t : WheelRun} {i n : ℕ}

/-- The event inserts nothing but delays of `D`. -/
def WheelEvent.Within (D : Set (BitVec 32)) : WheelEvent → Prop
  | insert delay _ => delay ∈ D
  | onTimer _ | drop _ | popUp => True

theorem within_mono {D : Set (BitVec 32)} {e : WheelEvent} (h : e.Within ∅) : e.Within D := by
  cases e with
  | insert delay entry => exact h.elim
  | onTimer now | drop i | popUp => trivial

/-- A released reference cannot be dropped: what its destructor inserts is undefined. -/
def Jammed (s : WheelRun) : Prop := ∃ i, i < s.released.length ∧ s.step (.drop i) = none

/-- There is a run without insertions to such a state. -/
def Leads (s : WheelRun) (P : WheelRun → Prop) : Prop :=
  ∃ es t, (∀ e ∈ es, e.Within ∅) ∧ run WheelRun.step s es = some t ∧ P t

theorem leads_self {P : WheelRun → Prop} (h : P s) : Leads s P :=
  ⟨[], s, fun _ he => (List.not_mem_nil he).elim, rfl, h⟩

theorem Leads.step {P : WheelRun → Prop} {e : WheelEvent} (hs : s.step e = some t)
    (he : e.Within ∅) (h : Leads t P) : Leads s P := by
  obtain ⟨es, u, hes, hu, hP⟩ := h
  refine ⟨e :: es, u, ?_, run_cons_eq_some.2 ⟨t, hs, hu⟩, hP⟩
  intro f hf
  rcases List.mem_cons.1 hf with rfl | hf
  · exact he
  · exact hes f hf

theorem Leads.trans {P Q : WheelRun → Prop} (h : Leads s P) (hQ : ∀ t, P t → Leads t Q) :
    Leads s Q := by
  obtain ⟨es, t, hes, ht, hP⟩ := h
  obtain ⟨fs, u, hfs, hu, hQ⟩ := hQ t hP
  refine ⟨es ++ fs, u, ?_, run_append.2 ⟨t, ht, hu⟩, hQ⟩
  intro e he
  rcases List.mem_append.1 he with he | he
  · exact hes e he
  · exact hfs e he

/-- What is left by a dropped reference. -/
theorem drop_eq (h : s.step (.drop i) = some t) : t.released = s.released.eraseIdx i ∧
    t.next = s.next ∧ t.ticks = s.ticks := by
  obtain ⟨p, -, ⟨-, rfl⟩ | ⟨second, e, -, h⟩⟩ := WheelRun.step_drop h
  · exact ⟨rfl, rfl, rfl⟩
  · obtain ⟨w, -, rfl⟩ := Option.map_eq_some_iff.1 h
    exact ⟨rfl, rfl, rfl⟩

/-- **All released references can be dropped**, one after the other. -/
theorem leads_dropped (m : ℕ) : ∀ {s : WheelRun}, Slotted s → s.released.length = m →
    Leads s fun t => Jammed t ∨
      Slotted t ∧ t.released = [] ∧ t.next = s.next ∧ t.ticks = s.ticks := by
  induction m with
  | zero =>
    intro s hs hlen
    exact leads_self (.inr ⟨hs, List.length_eq_zero_iff.1 hlen, rfl, rfl⟩)
  | succ m ih =>
    intro s hs hlen
    rcases ht : s.step (.drop 0) with _ | t
    · exact leads_self (.inl ⟨0, by omega, ht⟩)
    obtain ⟨hreleased, hnext, hticks⟩ := drop_eq ht
    have hlen' : t.released.length = m := by
      rw [hreleased, List.length_eraseIdx_of_lt (by omega)]
      omega
    have hrest := ih (hs.step ht) hlen'
    rw [hnext, hticks] at hrest
    exact .step ht trivial hrest

/-- **A timer call comes to its end.** -/
theorem leads_idle (hs : Slotted s) :
    Leads s fun t => Jammed t ∨ Slotted t ∧ t.Idle ∧ t.ticks = s.ticks := by
  refine (leads_dropped _ hs rfl).trans fun t ht => ?_
  rcases ht with hjammed | ⟨ht, hreleased, hnext, hticks⟩
  · exact leads_self (.inl hjammed)
  rcases hn : t.next with _ | type
  · exact leads_self (.inr ⟨ht, ⟨hreleased, hn⟩, hticks⟩)
  -- the next wheel is popped, and what it releases is dropped
  obtain ⟨u, hu⟩ : ∃ u, t.pop type none = some u := by
    refine Option.isSome_iff_exists.1 (pop_isSome ?_)
    rw [ht type]
    cases type <;> decide
  have hstep : t.step .popUp = some u := by
    simp only [WheelRun.step]
    rw [hreleased, hn]
    exact hu
  obtain ⟨-, hunext, huticks, -⟩ := pop_eq hu
  refine .step hstep trivial ((leads_dropped _ (ht.step hstep) rfl).trans fun v hv =>
    leads_self (hv.imp_right ?_))
  rintro ⟨hv, hvreleased, hvnext, hvticks⟩
  exact ⟨hv, ⟨hvreleased, hvnext.trans hunext⟩, by rw [hvticks, huticks, hticks]⟩

/-- A call of `OnTimer` a second after `lastTs_` ticks. -/
theorem onTimer_ticks (hs : Slotted s) (hidle : s.Idle) (hts : s.wheel.lastTs ≠ 0) :
    ∃ t, s.step (.onTimer (s.wheel.lastTs + 1000)) = some t ∧ t.ticks = s.ticks + 1 ∧
      t.next = nextWheel t.wheel.tick := by
  have hcall : s.wheel.onTimer (s.wheel.lastTs + 1000) = ({ s.wheel with
      lastTs := s.wheel.lastTs + 1000, tick := (s.wheel.tick + 1) % 2 ^ 64 }, true) := by
    unfold TimingWheel.onTimer
    rw [if_neg hts]
    exact if_neg (by omega)
  simp only [WheelRun.step]
  rw [if_pos hidle, hcall]
  have hpos : 0 < (s.wheel.wheels .kTimingTypeSecond).length := by
    rw [hs]
    decide
  obtain ⟨t, ht⟩ := Option.isSome_iff_exists.1 (pop_isSome (w := { s with
    wheel := { s.wheel with
      lastTs := s.wheel.lastTs + 1000, tick := (s.wheel.tick + 1) % 2 ^ 64 }
    ticks := s.ticks + 1 }) hpos)
  obtain ⟨hpop, hnext, hticks, -⟩ := pop_eq ht
  exact ⟨t, ht, hticks, by rw [hnext, (popUp_eq hpop).1]⟩

/-- **Between two timer calls the wheel can tick.** -/
theorem leads_tick (hs : Slotted s) (hidle : s.Idle) :
    Leads s fun t => Slotted t ∧ t.ticks = s.ticks + 1 ∧ t.next = nextWheel t.wheel.tick := by
  by_cases hts : s.wheel.lastTs = 0
  -- the first call sets `lastTs_`
  · have hcall : s.wheel.onTimer 1 = ({ s.wheel with lastTs := 1 }, false) := by
      unfold TimingWheel.onTimer
      rw [if_pos hts]
      exact if_pos (by omega)
    have hstep : s.step (.onTimer 1) = some { s with wheel := { s.wheel with lastTs := 1 } } := by
      simp only [WheelRun.step]
      rw [if_pos hidle, hcall]
      rfl
    have hs' := hs.step hstep
    obtain ⟨t, ht, hticks, hnext⟩ := onTimer_ticks hs' hidle Int.one_ne_zero
    exact .step hstep trivial (.step ht trivial (leads_self ⟨hs'.step ht, hticks, hnext⟩))
  · obtain ⟨t, ht, hticks, hnext⟩ := onTimer_ticks hs hidle hts
    exact .step ht trivial (leads_self ⟨hs.step ht, hticks, hnext⟩)

/-- **From every state the wheel comes to any later tick**, or to a closure whose insertion is
undefined. -/
theorem exists_tick (hs : Slotted s) (n : ℕ) :
    Leads s fun t => Jammed t ∨ Slotted t ∧ t.Idle ∧ t.ticks = s.ticks + n := by
  induction n with
  | zero => exact leads_idle hs
  | succ n ih =>
    refine ih.trans fun t ht => ?_
    rcases ht with hjammed | ⟨ht, hidle, hticks⟩
    · exact leads_self (.inl hjammed)
    refine (leads_tick ht hidle).trans ?_
    rintro u ⟨hu, huticks, -⟩
    refine (leads_idle hu).trans fun v hv => leads_self (hv.imp_right ?_)
    rintro ⟨hv, hvidle, hvticks⟩
    exact ⟨hv, hvidle, by omega⟩

end HttpNest
