import HttpNest.Proof.Clock
import HttpNest.Proof.IdleTimeout
import HttpNest.Proof.Ticking
import HttpNest.Proof.TimerSteps
import HttpNest.Spec.Clocked

/-!
# Seconds of the wheel and seconds of the clock

The wheel of a run by the clock is at the marks of the clock (`Paired.step`): the `n`-th
tick is made with the reading `marks[n]`. Timers below a minute are exact in ticks, so by the clock
they are as exact as its marks.

* `TimerRun.run_in_time`: `RunAfter` and `RunEvery`.
* `IdleRun.timeout_in_time`: the idle time of a connection.

With `n` whole seconds the callback comes up to a second early, which for one second is at once,
and up to `n` times the longest gap between two calls of `OnTimer` late. The gap is not only what
handlers take: a loop that waits finds out about the next second when `epoll_wait` returns.
-/

namespace HttpNest

open EventRun

/-! ## One step -/

/-- What a step does to `lastTs_` and the ticks; the timestamp is that of `OnTimer`. -/
inductive ClockStep (w w' : WheelRun) : Option ℤ → Prop
  | still : w'.wheel.lastTs = w.wheel.lastTs → w'.ticks = w.ticks → ClockStep w w' none
  | first {now : ℤ} : w.wheel.lastTs = 0 → w'.wheel.lastTs = now → w'.ticks = w.ticks →
    ClockStep w w' (some now)
  | early {now : ℤ} : w.wheel.lastTs ≠ 0 → now < w.wheel.lastTs + 1000 →
    w'.wheel.lastTs = w.wheel.lastTs → w'.ticks = w.ticks → ClockStep w w' (some now)
  | tick {now : ℤ} : w.wheel.lastTs ≠ 0 → w.wheel.lastTs + 1000 ≤ now → w'.wheel.lastTs = now →
    w'.ticks = w.ticks + 1 → ClockStep w w' (some now)

section Wheel

variable {w w' : WheelRun}

theorem clockStep_insert {delay : BitVec 32} {entry : ℕ} (h : w.insert delay entry = some w') :
    ClockStep w w' none := by
  have hclock := sameClock_insert h
  obtain ⟨x, -, rfl⟩ := Option.map_eq_some_iff.1 h
  exact .still hclock.1 rfl

theorem clockStep_onTimer {now : ℤ} (h : w.step (.onTimer now) = some w') :
    ClockStep w w' (some now) := by
  simp only [WheelRun.step] at h
  obtain ⟨-, h⟩ := Option.ite_none_right_eq_some.1 h
  by_cases hzero : w.wheel.lastTs = 0
  · have hcall : w.wheel.onTimer now = ({ w.wheel with lastTs := now }, false) := by
      unfold TimingWheel.onTimer
      rw [if_pos hzero]
      exact if_pos (by omega)
    rw [hcall] at h
    cases h
    exact .first hzero rfl rfl
  rw [TimingWheel.onTimer_of_ne_zero hzero] at h
  by_cases hshort : now - w.wheel.lastTs < 1000
  · rw [if_pos hshort] at h
    cases h
    exact .early hzero (by omega) rfl rfl
  · rw [if_neg hshort] at h
    have hclock := sameClock_pop h
    obtain ⟨-, -, hticks, -⟩ := pop_eq h
    exact .tick hzero (by omega) hclock.1 hticks

theorem clockStep_step {e : WheelEvent} (h : w.step e = some w') : ClockStep w w' e.timestamp := by
  cases e with
  | insert delay entry => exact clockStep_insert h
  | onTimer now => exact clockStep_onTimer h
  | drop i =>
    obtain ⟨-, -, hticks⟩ := drop_eq h
    exact .still (step_clock h).1 hticks
  | popUp =>
    obtain ⟨type, -, -, hpop⟩ := WheelRun.step_popUp h
    exact .still (step_clock h).1 (pop_eq hpop).2.2.1

end Wheel

/-! ## The wheel of a run -/

section Paired

variable {σ ε : Type*} {u : WheelUser σ ε} {s t : Clocked σ}

/-- The wheel stands at the last mark. -/
structure Paired (u : WheelUser σ ε) (s : Clocked σ) : Prop where
  sound : s.clock.Sound 1000
  wheel : s.clock.marks = [] ∧ (u.wheel s.state).wheel.lastTs = 0 ∧ (u.wheel s.state).ticks = 0 ∨
    s.clock.marks.getLast? = some (u.wheel s.state).wheel.lastTs ∧
      0 < (u.wheel s.state).wheel.lastTs ∧
      s.clock.marks.length = (u.wheel s.state).ticks + 1

theorem Paired.ticks (h : Paired u s) :
    s.clock.marks.length - 1 = (u.wheel s.state).ticks := by
  rcases h.wheel with ⟨hnil, -, hticks⟩ | ⟨-, -, hlen⟩
  · rw [hnil, hticks]
    rfl
  · rw [hlen, Nat.add_sub_cancel]

theorem Paired.step (hu : ∀ s e t, u.step s e = some t →
      ClockStep (u.wheel s) (u.wheel t) (u.timestamp e))
    (h : Paired u s) {e : ℤ × ε} (ht : s.step u e = some t) : Paired u t := by
  obtain ⟨⟨hle, hnow⟩, ht⟩ := Option.ite_none_right_eq_some.1 ht
  obtain ⟨x, hx, rfl⟩ := Option.map_eq_some_iff.1 ht
  have hstep := hu _ _ _ hx
  rcases hts : u.timestamp e.2 with _ | now
  · rw [hts] at hstep
    obtain ⟨hlast, hticks⟩ : (u.wheel x).wheel.lastTs = (u.wheel s.state).wheel.lastTs ∧
        (u.wheel x).ticks = (u.wheel s.state).ticks := by
      cases hstep with
      | still hlast hticks => exact ⟨hlast, hticks⟩
    have hwheel := h.wheel
    rw [← hlast, ← hticks] at hwheel
    by_cases hnoted : u.noted s.state e.2 = true
    · rw [Clocked.tell, hts]
      simp only [hnoted, if_true]
      exact ⟨h.sound.note hle, hwheel⟩
    · rw [Clocked.tell, hts]
      simp only [hnoted]
      exact ⟨h.sound.wait hle, hwheel⟩
  · rw [hts] at hstep
    obtain ⟨rfl, hpos⟩ := hnow now hts
    rw [Clocked.tell, hts]
    refine ⟨h.sound.read (by omega) hle, .inr ?_⟩
    simp only
    rcases h.wheel with ⟨hnil, hzero, hticks⟩ | ⟨hmark, hlast, hlen⟩
    -- the first reading
    · have hmarks : (s.clock.read 1000 e.1).marks = [e.1] := by
        rw [SampledClock.marks_read_of_le (by simp [hnil]), hnil, List.nil_append]
      rw [hmarks]
      cases hstep with
      | first _ hnow' hticks' =>
        rw [hnow', hticks', hticks]
        exact ⟨rfl, hpos, rfl⟩
      | early hne _ _ _ | tick hne _ _ _ => exact absurd hzero hne
    · cases hstep with
      | first hzero _ _ => omega
      | early _ hshort hsame hticks =>
        rw [SampledClock.marks_read_of_lt hmark hshort, hsame, hticks]
        exact ⟨hmark, hlast, hlen⟩
      | tick _ hlong hnow' hticks =>
        have hle : ∀ m ∈ s.clock.marks.getLast?, m + 1000 ≤ e.1 := by
          intro m hm
          cases Option.mem_unique hmark hm
          exact hlong
        rw [SampledClock.marks_read_of_le hle, hnow', hticks, List.getLast?_concat,
          List.length_append, hlen]
        exact ⟨rfl, hpos, rfl⟩

end Paired

/-! ## `RunAfter` and `RunEvery` -/

namespace TimerRun

variable {s t : TimerRun}

theorem release_eq (s : TimerRun) (entry : ℕ) :
    (s.release entry).wheel = s.wheel ∧ (s.release entry).schedules = s.schedules := by
  rcases release_cases s entry with heq | ⟨k, x, -, -, -, heq⟩ <;> rw [heq]
  · exact ⟨rfl, rfl⟩
  · exact ⟨rfl, rfl⟩

theorem clock_insertCallback {delay : ℚ} {x : CallbackEntry}
    (h : s.insertCallback delay x = some t) :
    ClockStep s.wheel t.wheel none ∧ t.schedules = s.schedules := by
  obtain ⟨d, w, -, hw, rfl⟩ := insertCallback_eq_some h
  obtain ⟨hwheel, hschedules⟩ := release_eq
    { s with wheel := w, entries := s.entries ++ [x] } (callbackEntry s.entries.length)
  rw [hwheel, hschedules]
  exact ⟨clockStep_insert hw, rfl⟩

/-- What a step does to the clock and to the schedules. -/
theorem clock_step {e : TimerEvent} (h : s.step e = some t) :
    ClockStep s.wheel t.wheel (user.timestamp e) ∧
      t.schedules.map Schedule.tick = s.schedules.map Schedule.tick ++
        if user.noted s e then [s.wheel.ticks] else [] := by
  have hsame : ∀ {l : List Schedule}, l = s.schedules →
      l.map Schedule.tick = s.schedules.map Schedule.tick ++ [] := by
    intro l heq
    rw [heq, List.append_nil]
  cases e with
  | runAfter delay | runEvery delay =>
    obtain ⟨hclock, heq⟩ := clock_insertCallback h
    refine ⟨hclock, ?_⟩
    rw [heq, TimerRun.schedule, List.map_append]
    rfl
  | insertEntry delay entry =>
    obtain ⟨w, hw, rfl⟩ := Option.map_eq_some_iff.1 h
    exact ⟨clockStep_step hw, hsame rfl⟩
  | cbReturns =>
    simp only [TimerRun.step, cbReturns] at h
    rcases hcalls : s.calls with _ | ⟨x, calls⟩ <;> rw [hcalls] at h
    · cases h
    rcases hinterval : x.interval with _ | interval <;> simp only [hinterval] at h
    · cases h
      exact ⟨.still rfl rfl, hsame rfl⟩
    · obtain ⟨hclock, heq⟩ := clock_insertCallback h
      exact ⟨hclock, hsame heq⟩
  | onTimer now | popUp =>
    obtain ⟨-, h⟩ := Option.ite_none_right_eq_some.1 h
    obtain ⟨w, hw, rfl⟩ := Option.map_eq_some_iff.1 h
    exact ⟨clockStep_step hw, hsame rfl⟩
  | drop i =>
    obtain ⟨-, h⟩ := Option.ite_none_right_eq_some.1 h
    obtain ⟨p, -, h⟩ := Option.bind_eq_some_iff.1 h
    obtain ⟨t', ht', rfl⟩ := Option.map_eq_some_iff.1 h
    obtain ⟨w, hw, rfl⟩ := Option.map_eq_some_iff.1 ht'
    rcases p.entry? with _ | entry
    · exact ⟨clockStep_step hw, hsame rfl⟩
    · obtain ⟨hwheel, hschedules⟩ := release_eq { s with wheel := w } entry
      simp only at hwheel hschedules ⊢
      rw [hwheel]
      exact ⟨clockStep_step hw, hsame hschedules⟩

/-- The notes of the clock are the schedules. -/
structure Noted (s : Clocked TimerRun) : Prop where
  timely : Timely s.state
  paired : Paired user s
  notes : s.clock.notes.map (fun a => a.1 - 1) = s.state.schedules.map Schedule.tick

theorem Noted.step {s t : Clocked TimerRun} (h : Noted s) {e : ℤ × TimerEvent} (he : e.2.Second)
    (ht : s.step user e = some t) : Noted t := by
  have hpaired := h.paired.step (fun _ _ _ hs => (clock_step hs).1) ht
  obtain ⟨-, ht⟩ := Option.ite_none_right_eq_some.1 ht
  obtain ⟨x, hx, rfl⟩ := Option.map_eq_some_iff.1 ht
  refine ⟨h.timely.step he hx, hpaired, ?_⟩
  rw [(clock_step hx).2, ← h.notes]
  have hticks : s.clock.marks.length - 1 = s.state.wheel.ticks := h.paired.ticks
  unfold Clocked.tell
  rcases hts : user.timestamp e.2 with _ | now
  · by_cases hnoted : user.noted s.state e.2 = true
    · simp only [hnoted, if_true]
      rw [SampledClock.note, List.map_append, List.map_singleton, hticks]
    · simp only [hnoted]
      exact (List.append_nil _).symm
  -- a call of `OnTimer` is no schedule
  · have hnoted : user.noted s.state e.2 = false := by
      rcases e with ⟨x, e⟩
      cases e <;> first | rfl | cases hts
    rw [hnoted]
    exact (List.append_nil _).symm

/-- The callback of a schedule made at the time `x`: its `i`-th run is in the tick that is `i + 1`
times the whole seconds of the delay behind `x`, as the clock counts them, and when they are over by
the clock it has run. -/
structure InTime (s : Clocked TimerRun) (cb : ℕ) (c : Schedule) (x : ℤ) : Prop where
  runs : ∀ i n, (s.state.runsOf cb)[i]? = some n → ∃ r, s.clock.marks[n]? = some r ∧
    s.clock.InTime 1000 x ((i + 1) * ⌊c.delay⌋₊) r
  passed : ∀ i, (c.repeats = false → i = 0) → s.state.wheel.Idle →
    s.clock.Over 1000 x ((i + 1) * ⌊c.delay⌋₊) → i < (s.state.runsOf cb).length

end TimerRun

/-! ## `EnableCheckIdleTimeout` -/

namespace IdleRun

variable {c d : IdleRun}

theorem clock_insert (h : c.insert = some d) :
    ClockStep c.wheel d.wheel none ∧ d.lastActive = c.lastActive := by
  obtain ⟨w, hw, rfl⟩ := Option.map_eq_some_iff.1 h
  exact ⟨clockStep_insert hw, rfl⟩

theorem clock_wheelStep {e : WheelEvent} (h : c.wheelStep e = some d) :
    ClockStep c.wheel d.wheel e.timestamp ∧ d.lastActive = c.lastActive := by
  obtain ⟨w, hw, rfl⟩ := Option.map_eq_some_iff.1 h
  split_ifs
  · exact ⟨clockStep_step hw, rfl⟩
  · exact ⟨clockStep_step hw, rfl⟩

theorem clock_active (h : c.active = some d) : ClockStep c.wheel d.wheel none ∧
    d.lastActive = if c.isClosed then c.lastActive else c.wheel.ticks := by
  unfold IdleRun.active at h
  by_cases hclosed : c.isClosed = true
  · rw [if_pos hclosed] at h ⊢
    cases h
    exact ⟨.still rfl rfl, rfl⟩
  rw [if_neg hclosed] at h ⊢
  unfold extendLife at h
  by_cases hown : c.wheel.owns timeoutEntry = true
  · rw [if_pos hown] at h
    exact clock_insert (c := { c with lastActive := c.wheel.ticks }) h
  · rw [if_neg hown] at h
    cases h
    exact ⟨.still rfl rfl, rfl⟩

/-- What a step does to the clock, and to the tick of the last activity. -/
theorem clock_step {e : IdleEvent} (h : c.step e = some d) :
    ClockStep c.wheel d.wheel (user.timestamp e) ∧
      d.lastActive = if user.noted c e then c.wheel.ticks else c.lastActive := by
  cases e with
  | enableCheckIdleTimeout maxTime =>
    obtain ⟨-, h⟩ := Option.ite_none_left_eq_some.1 h
    exact clock_insert (c := { c with
      enabled := true
      maxIdleTime := maxTime
      lastActive := c.wheel.ticks }) h
  | onRead | onWrite =>
    obtain ⟨hclock, hactive⟩ := clock_active h
    refine ⟨hclock, hactive.trans ?_⟩
    simp only [user, Bool.not_eq_true']
    by_cases hclosed : c.isClosed = true
    · rw [if_pos hclosed, if_neg (by simp [hclosed])]
    · rw [if_neg hclosed, if_pos (by simpa using hclosed)]
  | other e =>
    cases e with
    | insert delay entry =>
      obtain ⟨-, h⟩ := Option.ite_none_left_eq_some.1 h
      exact clock_wheelStep h
    | onTimer now | drop i | popUp => exact clock_wheelStep h

/-- Once it has been set the maximal idle time is a second at least. -/
theorem one_le_step {e : IdleEvent} (he : e.Short) (h : c.step e = some d)
    (hc : c.enabled = true → 1 ≤ c.maxIdleTime.toNat) :
    d.enabled = true → 1 ≤ d.maxIdleTime.toNat := by
  have hinsert : ∀ {c' : IdleRun}, c'.insert = some d →
      d.enabled = c'.enabled ∧ d.maxIdleTime = c'.maxIdleTime := by
    intro c' h
    obtain ⟨w, -, rfl⟩ := Option.map_eq_some_iff.1 h
    exact ⟨rfl, rfl⟩
  have hwheel : ∀ {e : WheelEvent}, c.wheelStep e = some d →
      d.enabled = c.enabled ∧ d.maxIdleTime = c.maxIdleTime := by
    intro e h
    obtain ⟨w, -, rfl⟩ := Option.map_eq_some_iff.1 h
    split_ifs
    · exact ⟨rfl, rfl⟩
    · exact ⟨rfl, rfl⟩
  cases e with
  | enableCheckIdleTimeout maxTime =>
    obtain ⟨-, h⟩ := Option.ite_none_left_eq_some.1 h
    rw [(hinsert h).2]
    exact fun _ => he.1
  | onRead | onWrite =>
    simp only [IdleRun.step, IdleRun.active, extendLife] at h
    split_ifs at h
    · cases h
      exact hc
    · rw [(hinsert h).1, (hinsert h).2]
      exact hc
    · cases h
      exact hc
  | other e =>
    have hsame : d.enabled = c.enabled ∧ d.maxIdleTime = c.maxIdleTime := by
      cases e with
      | insert delay entry => exact hwheel (Option.ite_none_left_eq_some.1 h).2
      | onTimer now | drop i | popUp => exact hwheel h
    rw [hsame.1, hsame.2]
    exact hc

/-- The last note of the clock is the last activity. -/
structure Noted (s : Clocked IdleRun) : Prop where
  timed : Timed s.state
  paired : Paired user s
  one_le : s.state.enabled = true → 1 ≤ s.state.maxIdleTime.toNat
  last : ∀ a ∈ s.clock.notes.getLast?, a.1 - 1 = s.state.lastActive

theorem Noted.step {s t : Clocked IdleRun} (h : Noted s) {e : ℤ × IdleEvent} (he : e.2.Short)
    (ht : s.step user e = some t) : Noted t := by
  have hpaired := h.paired.step (fun _ _ _ hs => (clock_step hs).1) ht
  obtain ⟨-, ht⟩ := Option.ite_none_right_eq_some.1 ht
  obtain ⟨x, hx, rfl⟩ := Option.map_eq_some_iff.1 ht
  refine ⟨h.timed.step he hx, hpaired, one_le_step he hx h.one_le, ?_⟩
  have hticks : s.clock.marks.length - 1 = s.state.wheel.ticks := h.paired.ticks
  simp only
  rw [(clock_step hx).2]
  unfold Clocked.tell
  rcases hts : user.timestamp e.2 with _ | now
  · by_cases hnoted : user.noted s.state e.2 = true
    · simp only [hnoted, if_true]
      intro a ha
      rw [SampledClock.note, List.getLast?_concat] at ha
      cases ha
      exact hticks
    · simp only [hnoted]
      exact h.last
  -- a call of `OnTimer` is no activity
  · have hnoted : user.noted s.state e.2 = false := by
      rcases e with ⟨x, e⟩
      cases e <;> first | rfl | cases hts
    rw [hnoted]
    exact h.last

/-- The connection's last activity is at the time `x`: it times out in the tick that is
`maxIdleTime_` seconds behind `x`, as the clock counts them, and when they are over by the clock it
has timed out. -/
structure InTime (s : Clocked IdleRun) (x : ℤ) : Prop where
  timeouts : ∀ n ∈ s.state.timeouts, ∃ r, s.clock.marks[n]? = some r ∧
    s.clock.InTime 1000 x s.state.maxIdleTime.toNat r
  passed : s.state.enabled = true → s.state.wheel.Idle →
    s.clock.Over 1000 x s.state.maxIdleTime.toNat → s.state.timeouts ≠ []

end IdleRun

end HttpNest
