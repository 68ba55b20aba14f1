import HttpNest.Proof.EnableCalls
import HttpNest.Proof.TimerSteps

/-!
# A refused insertion is the end of its entry

`InsertEntry` logs a delay of 31 days or more as an error and returns. Nobody but the caller then
refers to the new entry, so its destructor runs when the caller returns: the callback of `RunAfter`
and `RunEvery` is called, and `EnableCheckIdleTimeout` times the connection out, all at once.
-/

namespace HttpNest

open EventRun TimingWheel

/-- What `InsertEntry` refuses it leaves alone. -/
theorem insert_refused {s : WheelRun} {delay : BitVec 32} {entry : ℕ}
    (h : 31 * 86400 ≤ delay.toNat) : s.insert delay entry = some s := by
  have hminute : kTimingMinute = 60 := rfl
  have hhour : kTimingHour = 3600 := rfl
  have hday : kTimingDay = 86400 := rfl
  have hno : ¬ Supported delay := by
    unfold Supported
    rw [hday]
    omega
  have hsame : s.wheel.insertEntry delay entry = some s.wheel := by
    unfold TimingWheel.insertEntry
    rw [if_neg (by omega), if_neg (by omega), if_neg (by omega), if_pos hno]
  unfold WheelRun.insert
  rw [hsame, Option.map_some, if_neg hno]

theorem toUInt32_refused {delay : ℚ} (h : 31 * 86400 ≤ delay) (h32 : delay < 2 ^ 32) :
    ∃ d, toUInt32 delay = some d ∧ 31 * 86400 ≤ d.toNat := by
  have hlow : 31 * 86400 ≤ ⌊delay⌋₊ := Nat.le_floor (by exact_mod_cast h)
  have hhigh : ⌊delay⌋₊ < 2 ^ 32 := (Nat.floor_lt (by linarith)).2 (by exact_mod_cast h32)
  refine ⟨BitVec.ofNat 32 ⌊delay⌋₊, ?_, ?_⟩
  · unfold toUInt32
    rw [if_pos ⟨by linarith, h32⟩]
  · rw [BitVec.toNat_ofNat, Nat.mod_eq_of_lt hhigh]
    exact hlow

/-! ## `RunAfter` and `RunEvery` -/

namespace TimerRun

/-- The wheel is as before, and no callback has been run. -/
def Unaffected (s t : TimerRun) : Prop := t.wheel.wheel = s.wheel.wheel ∧ t.runs = s.runs

/-- **The callback of a refused timer is run at once.** -/
theorem insertCallback_refused {s : TimerRun} (h : Numbered s) {delay : ℚ}
    (hlong : 31 * 86400 ≤ delay) (h32 : delay < 2 ^ 32) (x : CallbackEntry) :
    ∃ t, s.insertCallback delay x = some t ∧ t.wheel = s.wheel ∧
      t.runs = s.runs ++ [(x.cb, s.wheel.ticks)] := by
  obtain ⟨d, hd, hrefused⟩ := toUInt32_refused hlong h32
  have hno := h.fresh _ le_rfl
  have hlast : (s.entries ++ [x])[s.entries.length]? = some x := List.getElem?_concat_length
  have hcallback : ({ s with entries := s.entries ++ [x] } : TimerRun).callbackOf
      (callbackEntry s.entries.length) = some x := by
    rw [callbackOf_callbackEntry]
    exact hlast
  refine ⟨{ s with entries := s.entries ++ [x] }.destroy x, ?_, rfl, rfl⟩
  unfold TimerRun.insertCallback
  rw [hd, Option.bind_some, insert_refused hrefused, Option.map_some]
  unfold release
  simp only [hno, hcallback]
  rfl

theorem not_unaffected {s t : TimerRun} {r : ℕ × ℕ} (h : t.runs = s.runs ++ [r]) :
    ¬ s.Unaffected t := by
  rintro ⟨-, hruns⟩
  rw [h] at hruns
  exact absurd hruns (by simp)

end TimerRun

/-! ## `EnableCheckIdleTimeout` -/

namespace EnableRun

variable {s t : EnableRun} {i : ℕ}

/-- The wheel is as before, and the connection has not been closed. -/
def Unaffected (s t : EnableRun) : Prop :=
  t.wheel.wheel = s.wheel.wheel ∧ t.isClosed = s.isClosed

/-- The wheel knows no entry that has not been made. -/
def Fresh (s : EnableRun) : Prop := ∀ i, s.made ≤ i → s.wheel.owns (ownEntry i) = false

theorem onTimeout_fresh (h : Fresh s) : Fresh s.onTimeout := by
  unfold onTimeout
  split_ifs
  · exact h
  · exact h

theorem release_fresh (h : Fresh s) (entry : ℕ) : Fresh (s.release entry) := by
  unfold release
  split_ifs
  · exact h
  · exact onTimeout_fresh h
  · exact h

theorem Fresh.wheel (h : Fresh s) {w : WheelRun} {e : WheelEvent}
    (he : ∀ delay i, s.made ≤ i → e ≠ .insert delay (ownEntry i)) (hw : s.wheel.step e = some w) :
    Fresh { s with wheel := w } :=
  fun i hi => step_not_owns (fun delay => he delay i hi) (h i hi) hw

theorem Fresh.step (h : Fresh s) {e : EnableEvent} (ht : s.step e = some t) : Fresh t := by
  cases e with
  | enableCheckIdleTimeout maxTime =>
    obtain ⟨w, hw, rfl⟩ := Option.map_eq_some_iff.1 ht
    refine release_fresh (fun i hi => ?_) _
    refine step_not_owns (e := .insert maxTime (ownEntry s.made)) ?_ (h i (Nat.le_of_succ_le hi)) hw
    intro delay heq
    exact (Nat.lt_of_succ_le hi).ne (ownEntry_inj (WheelEvent.insert.inj heq).2)
  | onRead | onWrite =>
    simp only [EnableRun.step, EnableRun.active, extendLife] at ht
    split_ifs at ht with hclosed hlock
    · cases ht
      exact h
    · obtain ⟨w, hw, rfl⟩ := Option.map_eq_some_iff.1 ht
      refine fun i hi => step_not_owns (e := .insert s.maxIdleTime (ownEntry (s.made - 1))) ?_
        (h i hi) hw
      intro delay heq
      have := ownEntry_inj (WheelEvent.insert.inj heq).2
      simp only at hi
      omega
    · cases ht
      exact h
  | onClose =>
    cases ht
    exact h
  | insertEntry delay entry =>
    obtain ⟨w, hw, rfl⟩ := Option.map_eq_some_iff.1 ht
    refine h.wheel (e := .insert delay (foreignEntry entry)) ?_ hw
    intro delay' i _ heq
    exact foreignEntry_ne entry i (WheelEvent.insert.inj heq).2
  | onTimer now =>
    obtain ⟨w, hw, rfl⟩ := Option.map_eq_some_iff.1 ht
    exact h.wheel (e := .onTimer now) (fun _ _ _ he => by cases he) hw
  | popUp =>
    obtain ⟨w, hw, rfl⟩ := Option.map_eq_some_iff.1 ht
    exact h.wheel (e := .popUp) (fun _ _ _ he => by cases he) hw
  | drop i =>
    obtain ⟨p, -, ht⟩ := Option.bind_eq_some_iff.1 ht
    obtain ⟨t', ht', rfl⟩ := Option.map_eq_some_iff.1 ht
    obtain ⟨w, hw, rfl⟩ := Option.map_eq_some_iff.1 ht'
    have hwheel : Fresh { s with wheel := w } :=
      h.wheel (e := .drop i) (fun _ _ _ he => by cases he) hw
    rcases p.entry? with _ | entry
    · exact hwheel
    · exact release_fresh hwheel entry

theorem run_fresh {es : List EnableEvent} (h : run EnableRun.step {} es = some s) : Fresh s :=
  run_inv Fresh (fun _ _ _ hs ht => hs.step ht) (fun _ _ => new_owns _) h

/-- **A refused limit times the connection out at once.** -/
theorem enable_refused (h : Fresh s) {maxTime : BitVec 32} (hlong : 31 * 86400 ≤ maxTime.toNat) :
    ∃ t, s.enableCheckIdleTimeout maxTime = some t ∧ t.wheel = s.wheel ∧ t.isClosed = true := by
  have hno := h _ le_rfl
  have hmine : ownEntry s.made % 2 = 1 ∧ ownEntry s.made / 2 < s.made + 1 := by
    unfold ownEntry
    omega
  refine ⟨_, by unfold enableCheckIdleTimeout; rw [insert_refused hlong]; rfl, ?_⟩
  unfold release
  simp only [hno]
  rw [if_neg (by decide), if_pos hmine]
  unfold onTimeout
  split_ifs with hclosed
  · exact ⟨rfl, hclosed⟩
  · exact ⟨rfl, rfl⟩

end EnableRun

/-- **A refused timer has an effect** in every state that a run reaches: `RunAfter` and `RunEvery`
run its callback, and `EnableCheckIdleTimeout` closes the connection, unless this is closed
already. -/
theorem refused_has_effect {es : List TimerEvent} {s : TimerRun}
    (hs : run TimerRun.step {} es = some s) {delay : ℚ} (hlong : 31 * 86400 ≤ delay)
    (h32 : delay < 2 ^ 32) {fs : List EnableEvent} {c : EnableRun}
    (hc : run EnableRun.step {} fs = some c) {maxTime : BitVec 32}
    (hmax : 31 * 86400 ≤ maxTime.toNat) :
    (∃ t, s.step (.runAfter delay) = some t ∧ ¬ s.Unaffected t) ∧
      (∃ t, s.step (.runEvery delay) = some t ∧ ¬ s.Unaffected t) ∧
        ∃ d, c.step (.enableCheckIdleTimeout maxTime) = some d ∧
          (c.Unaffected d ↔ c.isClosed = true) := by
  have hnumbered := TimerRun.run_numbered hs
  refine ⟨?_, ?_, ?_⟩
  · obtain ⟨t, ht, -, hruns⟩ := TimerRun.insertCallback_refused
      (hnumbered.schedule ⟨s.wheel.ticks, delay, false⟩) hlong h32
      { cb := s.schedules.length, interval := none }
    exact ⟨t, ht, TimerRun.not_unaffected hruns⟩
  · obtain ⟨t, ht, -, hruns⟩ := TimerRun.insertCallback_refused
      (hnumbered.schedule ⟨s.wheel.ticks, delay, true⟩) hlong h32
      { cb := s.schedules.length, interval := some delay }
    exact ⟨t, ht, TimerRun.not_unaffected hruns⟩
  · obtain ⟨d, hd, hwheel, hclosed⟩ := EnableRun.enable_refused (EnableRun.run_fresh hc) hmax
    refine ⟨d, hd, ?_⟩
    unfold EnableRun.Unaffected
    rw [hwheel, hclosed]
    exact ⟨fun h => h.2.symm, fun h => ⟨rfl, h.symm⟩⟩

/-- A delay of 31 days, in a new loop. -/
theorem refused_has_effect_new :
    (∃ t, TimerRun.step {} (.runAfter 2678400) = some t ∧ ¬ TimerRun.Unaffected {} t) ∧
      (∃ t, TimerRun.step {} (.runEvery 2678400) = some t ∧ ¬ TimerRun.Unaffected {} t) ∧
        ∃ d, EnableRun.step {} (.enableCheckIdleTimeout 2678400) = some d ∧
          (EnableRun.Unaffected {} d ↔ ({} : EnableRun).isClosed = true) := by
  have hs : run TimerRun.step {} [] = some {} := rfl
  have hc : run EnableRun.step {} [] = some {} := rfl
  exact refused_has_effect hs (by norm_num) (by norm_num) hc (by decide)

/-- `RunAfter` with a delay of 31 days. -/
theorem refused_is_run : ¬ ∀ es s t, run TimerRun.step {} es = some s →
    s.step (.runAfter 2678400) = some t → s.Unaffected t := by
  intro h
  have hlong : 31 * 86400 ≤ (2678400 : ℚ) := by norm_num
  obtain ⟨t, ht, -, hruns⟩ := TimerRun.insertCallback_refused (TimerRun.numbered_new.schedule _)
    hlong (by norm_num) { cb := 0, interval := none }
  exact TimerRun.not_unaffected hruns (h [] {} t rfl ht)

end HttpNest
