import HttpNest.Proof.MinuteWheel

/-!
# Steps of timers with any delay

What a step of a `TimerRun` can do (`Move`): a new `CallbackEntry` is inserted, by a call of
`RunAfter` or `RunEvery` from outside or by a `RunEvery` behind its callback; a callback returns;
the wheel goes on; or it drops a reference, and with the last one to a `CallbackEntry` its
destructor runs. `Numbered` is what holds of all runs, whatever the delays are.
-/

namespace HttpNest

open EventRun TimingWheel

namespace TimerRun

variable {s t : TimerRun} {w : WheelRun} {x y : CallbackEntry} {entry k cb i : ℕ}

/-- A shared pointer that is gone was the last one, or it was not. -/
theorem release_cases (s : TimerRun) (entry : ℕ) : s.release entry = s ∨
    ∃ k x, entry = callbackEntry k ∧ s.entries[k]? = some x ∧ s.wheel.owns entry = false ∧
      s.release entry = s.destroy x := by
  unfold release
  by_cases hown : s.wheel.owns entry = true
  · rw [if_pos hown]
    exact .inl rfl
  rw [if_neg hown]
  rw [Bool.not_eq_true] at hown
  rcases hx : s.callbackOf entry with _ | x
  · exact .inl rfl
  · obtain ⟨k, hk, hget⟩ := callbackOf_eq_some hx
    exact .inr ⟨k, x, hk, hget, hown, rfl⟩

/-- What a step can do. -/
inductive Move (s : TimerRun) : TimerRun → Prop
  | schedule (c : Schedule) {delay : BitVec 32} {w : WheelRun} :
    s.wheel.insert delay (callbackEntry s.entries.length) = some w →
    Move s ({ s with
      wheel := w, schedules := s.schedules ++ [c]
      entries := s.entries ++ [c.made s.schedules.length] }.release
        (callbackEntry s.entries.length))
  | again (x : CallbackEntry) (calls : List CallbackEntry) {delay : BitVec 32} {w : WheelRun} :
    s.calls = x :: calls → x.interval ≠ none →
    s.wheel.insert delay (callbackEntry s.entries.length) = some w →
    Move s ({ s with wheel := w, calls := calls, entries := s.entries ++ [x] }.release
      (callbackEntry s.entries.length))
  | returns (x : CallbackEntry) (calls : List CallbackEntry) : s.calls = x :: calls →
    x.interval = none → Move s { s with calls := calls }
  | wheel (e : WheelEvent) {w : WheelRun} : (∀ delay k, e ≠ .insert delay (callbackEntry k)) →
    (∀ i, e ≠ .drop i) → (s.calls ≠ [] → w.ticks = s.wheel.ticks) → s.wheel.step e = some w →
    Move s { s with wheel := w }
  | drop (i : ℕ) (p : EntryPtr) {w : WheelRun} : s.calls = [] → s.wheel.released[i]? = some p →
    s.wheel.step (.drop i) = some w →
    Move s (p.entry?.elim { s with wheel := w } { s with wheel := w }.release)

theorem insertCallback_eq_some {delay : ℚ} (h : s.insertCallback delay x = some t) :
    ∃ d w, toUInt32 delay = some d ∧
      s.wheel.insert d (callbackEntry s.entries.length) = some w ∧
      t = { s with wheel := w, entries := s.entries ++ [x] }.release
        (callbackEntry s.entries.length) := by
  obtain ⟨d, hd, h⟩ := Option.bind_eq_some_iff.1 h
  obtain ⟨w, hw, rfl⟩ := Option.map_eq_some_iff.1 h
  exact ⟨d, w, hd, hw, rfl⟩

theorem step_move {e : TimerEvent} (h : s.step e = some t) : s.Move t := by
  cases e with
  | runAfter delay =>
    obtain ⟨d, w, -, hw, rfl⟩ := insertCallback_eq_some h
    exact .schedule ⟨s.wheel.ticks, delay, false⟩ hw
  | runEvery interval =>
    obtain ⟨d, w, -, hw, rfl⟩ := insertCallback_eq_some h
    exact .schedule ⟨s.wheel.ticks, interval, true⟩ hw
  | insertEntry delay e =>
    obtain ⟨w, hw, rfl⟩ := Option.map_eq_some_iff.1 h
    refine .wheel (.insert delay (otherEntry e)) ?_ (fun _ he => by cases he) (fun _ => ?_) hw
    · intro delay k heq
      exact callbackEntry_ne_other k e (WheelEvent.insert.inj heq).2
    · obtain ⟨x, -, rfl⟩ := Option.map_eq_some_iff.1 hw
      rfl
  | cbReturns =>
    simp only [TimerRun.step, cbReturns] at h
    rcases hcalls : s.calls with _ | ⟨x, calls⟩ <;> rw [hcalls] at h
    · cases h
    rcases hinterval : x.interval with _ | interval
    · simp only [hinterval] at h
      cases h
      exact .returns x calls hcalls hinterval
    · simp only [hinterval] at h
      obtain ⟨d, w, -, hw, rfl⟩ := insertCallback_eq_some h
      have hx : ({ cb := x.cb, interval := some interval } : CallbackEntry) = x := by
        rw [← hinterval]
      rw [hx]
      exact .again x calls hcalls (by simp [hinterval]) hw
  | onTimer now =>
    obtain ⟨hcalls, h⟩ := Option.ite_none_right_eq_some.1 h
    obtain ⟨w, hw, rfl⟩ := Option.map_eq_some_iff.1 h
    exact .wheel (.onTimer now) (fun _ _ he => by cases he) (fun _ he => by cases he)
      (fun hne => absurd hcalls hne) hw
  | popUp =>
    obtain ⟨hcalls, h⟩ := Option.ite_none_right_eq_some.1 h
    obtain ⟨w, hw, rfl⟩ := Option.map_eq_some_iff.1 h
    exact .wheel .popUp (fun _ _ he => by cases he) (fun _ he => by cases he)
      (fun hne => absurd hcalls hne) hw
  | drop i =>
    obtain ⟨hcalls, h⟩ := Option.ite_none_right_eq_some.1 h
    obtain ⟨p, hp, h⟩ := Option.bind_eq_some_iff.1 h
    obtain ⟨t', ht', rfl⟩ := Option.map_eq_some_iff.1 h
    obtain ⟨w, hw, rfl⟩ := Option.map_eq_some_iff.1 ht'
    have hmove := Move.drop i p hcalls hp hw
    rcases he : p.entry? with _ | entry <;> rw [he] at hmove
    · exact hmove
    · exact hmove

/-! ## What holds of all runs -/

/-- The wheel keeps its shape and knows no `CallbackEntry` that has not been made; every callback
has the number of a schedule. -/
structure Numbered (s : TimerRun) : Prop where
  slotted : Slotted s.wheel
  counted : Counted s.wheel
  fresh : ∀ k, s.entries.length ≤ k → s.wheel.owns (callbackEntry k) = false
  known : ∀ x, x ∈ s.entries ∨ x ∈ s.calls → x.cb < s.schedules.length
  ran : ∀ r ∈ s.runs, r.1 < s.schedules.length

theorem numbered_new : Numbered {} := by
  refine ⟨slotted_new, counted_new, fun k _ => new_owns _, ?_, fun r hr => by cases hr⟩
  rintro x (hx | hx) <;> cases hx

/-- A schedule more. -/
theorem Numbered.schedule (h : Numbered s) (c : Schedule) :
    Numbered { s with schedules := s.schedules ++ [c] } := by
  have hlt : ∀ {n : ℕ}, n < s.schedules.length → n < (s.schedules ++ [c]).length := by
    intro n hn
    rw [List.length_append]
    exact Nat.lt_add_right _ hn
  exact ⟨h.slotted, h.counted, h.fresh, fun x hx => hlt (h.known x hx),
    fun r hr => hlt (h.ran r hr)⟩

/-- A destructor runs a callback that is known. -/
theorem Numbered.release (h : Numbered s) (entry : ℕ) : Numbered (s.release entry) := by
  rcases release_cases s entry with heq | ⟨k, x, -, hx, -, heq⟩ <;> rw [heq]
  · exact h
  have hcb := h.known x (.inl (List.mem_of_getElem? hx))
  refine ⟨h.slotted, h.counted, h.fresh, ?_, ?_⟩
  · rintro y (hy | hy)
    · exact h.known y (.inl hy)
    · rcases List.mem_cons.1 hy with rfl | hy
      · exact hcb
      · exact h.known y (.inr hy)
  · intro r hr
    rcases List.mem_append.1 hr with hr | hr
    · exact h.ran r hr
    · rw [List.mem_singleton.1 hr]
      exact hcb

/-- An insertion makes no reference to a `CallbackEntry` that comes later. -/
theorem Numbered.fresh_insert (h : Numbered s) {delay : BitVec 32}
    (hw : s.wheel.insert delay (callbackEntry s.entries.length) = some w)
    (hk : s.entries.length < k) : w.owns (callbackEntry k) = false := by
  refine step_not_owns (e := .insert delay (callbackEntry s.entries.length)) ?_ (h.fresh k hk.le) hw
  intro delay' heq
  exact hk.ne (callbackEntry_inj (WheelEvent.insert.inj heq).2)

theorem Numbered.move (h : Numbered s) (ht : s.Move t) : Numbered t := by
  have hlater : ∀ (x : CallbackEntry) (k : ℕ), (s.entries ++ [x]).length ≤ k →
      s.entries.length < k := by
    intro x k hk
    rw [List.length_append, List.length_singleton] at hk
    exact hk
  cases ht with
  | @schedule c delay w hw =>
    have hs := h.schedule c
    refine Numbered.release (s := { s with
      wheel := w, schedules := s.schedules ++ [c]
      entries := s.entries ++ [c.made s.schedules.length] })
      ⟨h.slotted.insert hw, h.counted.insert hw, ?_, ?_, hs.ran⟩ _
    · exact fun k hk => h.fresh_insert hw (hlater _ k hk)
    · intro x hx
      simp only [List.mem_append, List.mem_singleton] at hx
      rcases hx with (hx | rfl) | hx
      · exact hs.known x (.inl hx)
      · simp [Schedule.made]
      · exact hs.known x (.inr hx)
  | @again x calls delay w hcalls _ hw =>
    refine Numbered.release (s := { s with
      wheel := w, calls := calls, entries := s.entries ++ [x] })
      ⟨h.slotted.insert hw, h.counted.insert hw, ?_, ?_, h.ran⟩ _
    · exact fun k hk => h.fresh_insert hw (hlater x k hk)
    intro y hy
    simp only [List.mem_append, List.mem_singleton] at hy
    rcases hy with (hy | rfl) | hy
    · exact h.known y (.inl hy)
    · exact h.known y (.inr (by rw [hcalls]; exact List.mem_cons_self ..))
    · exact h.known y (.inr (by rw [hcalls]; exact List.mem_cons_of_mem _ hy))
  | returns x calls hcalls _ =>
    refine ⟨h.slotted, h.counted, h.fresh, ?_, h.ran⟩
    rintro y (hy | hy)
    · exact h.known y (.inl hy)
    · exact h.known y (.inr (by rw [hcalls]; exact List.mem_cons_of_mem _ hy))
  | wheel e hinsert _ _ hw =>
    exact ⟨h.slotted.step hw, h.counted.step hw,
      fun k hk => step_not_owns (fun delay => hinsert delay k) (h.fresh k hk) hw, h.known, h.ran⟩
  | @drop i p w _ _ hw =>
    have hwheel : Numbered { s with wheel := w } :=
      ⟨h.slotted.step hw, h.counted.step hw,
        fun k hk => step_not_owns (fun _ he => by cases he) (h.fresh k hk) hw, h.known, h.ran⟩
    rcases p.entry? with _ | entry
    · exact hwheel
    · exact hwheel.release entry

/-- **Every run keeps the numbers.** -/
theorem run_numbered {es : List TimerEvent} (h : run TimerRun.step {} es = some s) : Numbered s :=
  run_inv Numbered (fun _ _ _ hs ht => hs.move (step_move ht)) numbered_new h

end TimerRun

end HttpNest
