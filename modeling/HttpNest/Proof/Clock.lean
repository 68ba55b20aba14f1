import HttpNest.Proof.TimingWheel

/-!
# The clock behind `tick_`

`OnTimer` ticks at most once a call, and measures the next second from the call that ticked.
`clock ts` is what the calls with the timestamps `ts` do to `lastTs_` and `tick_`
(`run_clock`). As long as `tick_` follows the clock, `lastTs_` is the first timestamp of its
second (`OnTime`); the next call keeps it so exactly if it falls into a second that some call
was in, or comes at least 1000 ms after some call of the second before (`Covered`,
`ticks_follow_iff`).
-/

namespace HttpNest

open EventRun TimingWheel

/-! ## Calls one after another -/

namespace TimingWheel

/-- `OnTimer` for each of the timestamps. -/
def clock (ts : List ℤ) : TimingWheel := ts.foldl (fun w now => (w.onTimer now).1) .new

theorem clock_concat (ts : List ℤ) (now : ℤ) :
    clock (ts ++ [now]) = ((clock ts).onTimer now).1 := by
  rw [clock, List.foldl_append]
  rfl

/-- `OnTimer` after the first call. -/
theorem onTimer_of_ne_zero {w : TimingWheel} (h : w.lastTs ≠ 0) (now : ℤ) :
    w.onTimer now = if now - w.lastTs < 1000 then (w, false)
      else ({ w with lastTs := now, tick := (w.tick + 1) % 2 ^ 64 }, true) := by
  rw [onTimer, if_neg h]

end TimingWheel

/-- The whole seconds between two timestamps. -/
def wholeSeconds (first now : ℤ) : ℤ := (now - first) / 1000

/-- A call in a second that a call was in before, or at least 1000 ms after one of the second
before. -/
def Covered (first : ℤ) (earlier : List ℤ) (now : ℤ) : Prop :=
  ∃ t ∈ earlier, wholeSeconds first t = wholeSeconds first now ∨
    wholeSeconds first t + 1 = wholeSeconds first now ∧ t + 1000 ≤ now

/-- `tick_` is at the second of `lastTs_`, which is the latest that a call was in, and
`lastTs_` is the first call in it. -/
structure OnTime (first : ℤ) (ts : List ℤ) : Prop where
  mem : (clock ts).lastTs ∈ ts
  tick : ((clock ts).tick : ℤ) = wholeSeconds first (clock ts).lastTs
  latest : ∀ t ∈ ts, wholeSeconds first t ≤ wholeSeconds first (clock ts).lastTs
  earliest : ∀ t ∈ ts, wholeSeconds first t = wholeSeconds first (clock ts).lastTs →
    (clock ts).lastTs ≤ t

variable {first now : ℤ} {ts : List ℤ}

theorem clock_first (first : ℤ) : clock [first] = { TimingWheel.new with lastTs := first } := by
  have hzero : TimingWheel.new.lastTs = 0 := rfl
  have hcall : (TimingWheel.new.onTimer first).1 = { TimingWheel.new with lastTs := first } := by
    simp [onTimer, hzero]
  exact hcall

theorem onTime_first (first : ℤ) : OnTime first [first] := by
  have hclock := clock_first first
  refine ⟨?_, ?_, ?_, ?_⟩ <;> rw [hclock]
  · exact List.mem_singleton_self _
  · simp [wholeSeconds, TimingWheel.new]
  · intro t ht
    rw [List.mem_singleton.1 ht]
  · intro t ht _
    rw [List.mem_singleton.1 ht]

/-- **One more call**: `tick_` follows the clock exactly if the call is covered. -/
theorem OnTime.concat (h : OnTime first ts) (hfirst : 0 < first) (hmin : ∀ t ∈ ts, first ≤ t)
    (hmax : ∀ t ∈ ts, t ≤ now) (hnow : now < 2 ^ 63) :
    (((clock (ts ++ [now])).tick : ℤ) = wholeSeconds first now ↔ Covered first ts now) ∧
      (((clock (ts ++ [now])).tick : ℤ) = wholeSeconds first now → OnTime first (ts ++ [now])) := by
  have hle := hmin _ h.mem
  have hge := hmax _ h.mem
  have htick := h.tick
  have hstep := onTimer_of_ne_zero (w := clock ts) (by omega) now
  rw [← Prod.eta ((clock ts).onTimer now), ← clock_concat] at hstep
  by_cases hshort : now - (clock ts).lastTs < 1000
  · -- no tick: the call is in the second of `lastTs_`, or too early in the next
    rw [if_pos hshort] at hstep
    have hclock := congrArg Prod.fst hstep
    simp only at hclock
    rw [hclock]
    refine ⟨⟨fun heq => ⟨_, h.mem, .inl (htick.symm.trans heq)⟩, ?_⟩, fun heq => ?_⟩
    · rintro ⟨t, ht, hcase⟩
      have hlatest := h.latest t ht
      have hearliest := h.earliest t ht
      unfold wholeSeconds at *
      omega
    · refine ⟨?_, ?_, ?_, ?_⟩ <;> rw [hclock]
      · exact List.mem_append_left _ h.mem
      · exact htick
      · intro t ht
        rcases List.mem_append.1 ht with ht | ht
        · exact h.latest t ht
        · rw [List.mem_singleton.1 ht, ← heq, htick]
      · intro t ht hsame
        rcases List.mem_append.1 ht with ht | ht
        · exact h.earliest t ht hsame
        · rw [List.mem_singleton.1 ht]
          exact hge
  · -- a tick: the call is in the next second, or in a later one that `tick_` misses
    rw [if_neg hshort] at hstep
    have hclock := congrArg Prod.fst hstep
    simp only at hclock
    have hbound : (clock ts).tick + 1 < 2 ^ 64 := by
      unfold wholeSeconds at htick
      omega
    have hnew : (clock (ts ++ [now])).tick = (clock ts).tick + 1 := by
      rw [hclock]
      exact Nat.mod_eq_of_lt hbound
    have hlast : (clock (ts ++ [now])).lastTs = now := by rw [hclock]
    have hnext : wholeSeconds first (clock ts).lastTs + 1 ≤ wholeSeconds first now := by
      unfold wholeSeconds
      omega
    rw [hnew, Nat.cast_succ, htick]
    refine ⟨⟨fun heq => ⟨_, h.mem, .inr ⟨heq, by omega⟩⟩, ?_⟩, fun heq => ?_⟩
    · rintro ⟨t, ht, hcase⟩
      have hlatest := h.latest t ht
      omega
    · refine ⟨?_, ?_, ?_, ?_⟩ <;> rw [hlast]
      · exact List.mem_append_right _ (List.mem_singleton_self _)
      · rw [hnew, Nat.cast_succ, htick, heq]
      · intro t ht
        rcases List.mem_append.1 ht with ht | ht
        · have hlatest := h.latest t ht
          omega
        · rw [List.mem_singleton.1 ht]
      · intro t ht hsame
        rcases List.mem_append.1 ht with ht | ht
        · have hlatest := h.latest t ht
          omega
        · rw [List.mem_singleton.1 ht]

/-- After each call `tick_` is the whole seconds since the first one. -/
def Follows (first : ℤ) (ts : List ℤ) : Prop :=
  ∀ pre now, pre ++ [now] <+: ts → ((clock (pre ++ [now])).tick : ℤ) = wholeSeconds first now

/-- Every call after the first is covered by those before it. -/
def Steady (first : ℤ) (ts : List ℤ) : Prop :=
  ∀ pre now, pre ++ [now] <+: ts → pre ≠ [] → Covered first pre now

theorem follows_concat : Follows first (ts ++ [now]) ↔
    Follows first ts ∧ ((clock (ts ++ [now])).tick : ℤ) = wholeSeconds first now := by
  constructor
  · intro h
    exact ⟨fun pre t hpre => h pre t (hpre.trans (List.prefix_append ..)),
      h ts now (List.prefix_refl _)⟩
  · rintro ⟨h, hlast⟩ pre t hpre
    rcases List.prefix_concat_iff.1 hpre with heq | hpre
    · obtain ⟨rfl, ht⟩ := List.append_inj' heq rfl
      rw [List.head_eq_of_cons_eq ht]
      exact hlast
    · exact h pre t hpre

theorem steady_concat (hts : ts ≠ []) : Steady first (ts ++ [now]) ↔
    Steady first ts ∧ Covered first ts now := by
  constructor
  · intro h
    exact ⟨fun pre t hpre => h pre t (hpre.trans (List.prefix_append ..)),
      h ts now (List.prefix_refl _) hts⟩
  · rintro ⟨h, hlast⟩ pre t hpre hne
    rcases List.prefix_concat_iff.1 hpre with heq | hpre
    · obtain ⟨rfl, ht⟩ := List.append_inj' heq rfl
      rw [List.head_eq_of_cons_eq ht]
      exact hlast
    · exact h pre t hpre hne

/-- **Over all the calls.** -/
theorem follows_iff_steady (hfirst : 0 < first) (rest : List ℤ) :
    (first :: rest).Pairwise (· ≤ ·) → (∀ t ∈ rest, t < 2 ^ 63) →
      (Follows first (first :: rest) ↔ Steady first (first :: rest)) ∧
        (Follows first (first :: rest) → OnTime first (first :: rest)) := by
  induction rest using List.reverseRecOn with
  | nil =>
    intro _ _
    refine ⟨iff_of_true ?_ ?_, fun _ => onTime_first first⟩
    · intro pre now hpre
      have hone : pre ++ [now] = [first] :=
        hpre.eq_of_length_le (by rw [List.length_append]; simp)
      rw [hone, clock_first first]
      have hnow : now ∈ [first] := hone ▸ List.mem_append_right _ (List.mem_singleton_self _)
      rw [List.mem_singleton.1 hnow]
      simp [wholeSeconds, TimingWheel.new]
    · intro pre now hpre hne
      have hlen := hpre.length_le
      rw [List.length_append, List.length_singleton, List.length_singleton] at hlen
      exact absurd (List.length_eq_zero_iff.1 (by omega)) hne
  | append_singleton rest now ih =>
    intro hsorted hbound
    rw [← List.cons_append] at hsorted ⊢
    obtain ⟨hold, -, hmax⟩ := List.pairwise_append.1 hsorted
    obtain ⟨hiff, hon⟩ := ih hold fun t ht => hbound t (List.mem_append_left _ ht)
    have hmin : ∀ t ∈ first :: rest, first ≤ t := by
      intro t ht
      rcases List.mem_cons.1 ht with rfl | ht
      · exact le_rfl
      · exact (List.pairwise_cons.1 hold).1 t ht
    have hmax' : ∀ t ∈ first :: rest, t ≤ now := fun t ht =>
      hmax t ht now (List.mem_singleton_self _)
    have hnow : now < 2 ^ 63 :=
      hbound now (List.mem_append_right _ (List.mem_singleton_self _))
    rw [follows_concat, steady_concat (List.cons_ne_nil _ _)]
    refine ⟨⟨?_, ?_⟩, ?_⟩
    · rintro ⟨hf, htick⟩
      exact ⟨hiff.1 hf, ((hon hf).concat hfirst hmin hmax' hnow).1.1 htick⟩
    · rintro ⟨hs, hc⟩
      have hf := hiff.2 hs
      exact ⟨hf, ((hon hf).concat hfirst hmin hmax' hnow).1.2 hc⟩
    · rintro ⟨hf, htick⟩
      exact ((hon hf).concat hfirst hmin hmax' hnow).2 htick

/-! ## Runs of a wheel -/

/-- The timestamp of an `OnTimer` call. -/
def WheelEvent.timestamp : WheelEvent → Option ℤ
  | insert _ _ => none
  | onTimer now => some now
  | drop _ => none
  | popUp => none

/-- The timestamps of the calls of a run. -/
def timestamps (es : List WheelEvent) : List ℤ := es.filterMap WheelEvent.timestamp

/-- The same `lastTs_` and `tick_`. -/
def SameClock (w w' : TimingWheel) : Prop := w.lastTs = w'.lastTs ∧ w.tick = w'.tick

variable {w w' : TimingWheel} {s t : WheelRun}

theorem SameClock.onTimer (h : SameClock w w') (now : ℤ) :
    SameClock (w.onTimer now).1 (w'.onTimer now).1 := by
  obtain ⟨hts, htick⟩ := h
  unfold SameClock TimingWheel.onTimer
  simp only [hts, htick]
  generalize (if w'.lastTs = 0 then now else w'.lastTs) = lastTs
  by_cases hshort : now - lastTs < 1000
  · rw [if_pos hshort, if_pos hshort]
    exact ⟨rfl, rfl⟩
  · rw [if_neg hshort, if_neg hshort]
    exact ⟨rfl, rfl⟩

theorem sameClock_insertEntry {delay : BitVec 32} {entry : ℕ}
    (h : w.insertEntry delay entry = some w') : SameClock w' w := by
  refine ⟨?_, tick_insertEntry h⟩
  rcases insertEntry_cases h with ⟨type, i, p, hp, -⟩ | ⟨-, rfl⟩
  · unfold emplaceAt at hp
    obtain ⟨-, hp⟩ := Option.ite_none_right_eq_some.1 hp
    cases hp
    rfl
  · rfl

theorem sameClock_insert {delay : BitVec 32} {entry : ℕ} (h : s.insert delay entry = some t) :
    SameClock t.wheel s.wheel := by
  obtain ⟨w, hw, rfl⟩ := Option.map_eq_some_iff.1 h
  exact sameClock_insertEntry hw

theorem sameClock_pop {type : TimingType} {next : Option TimingType}
    (h : s.pop type next = some t) : SameClock t.wheel s.wheel := by
  obtain ⟨hpop, -⟩ := pop_eq h
  obtain ⟨rest, -, hw⟩ := popUp_front hpop
  rw [hw]
  exact ⟨rfl, rfl⟩

/-- Only `OnTimer` moves the clock. -/
theorem step_clock {e : WheelEvent} (h : s.step e = some t) :
    SameClock t.wheel (e.timestamp.elim s.wheel fun now => (s.wheel.onTimer now).1) := by
  cases e with
  | insert delay entry => exact sameClock_insert h
  | onTimer now =>
    simp only [WheelRun.step] at h
    obtain ⟨-, h⟩ := Option.ite_none_right_eq_some.1 h
    split_ifs at h
    · exact sameClock_pop h
    · cases h
      exact ⟨rfl, rfl⟩
  | drop i =>
    obtain ⟨p, -, ⟨-, rfl⟩ | ⟨second, e, -, h⟩⟩ := WheelRun.step_drop h
    · exact ⟨rfl, rfl⟩
    · exact sameClock_insert (s := { s with released := s.released.eraseIdx i }) h
  | popUp =>
    obtain ⟨type, -, -, h⟩ := WheelRun.step_popUp h
    exact sameClock_pop h

theorem run_sameClock {es : List WheelEvent} : ∀ {s : WheelRun} {w : TimingWheel},
    SameClock s.wheel w → run WheelRun.step s es = some t →
      SameClock t.wheel ((timestamps es).foldl (fun w now => (w.onTimer now).1) w) := by
  induction es with
  | nil =>
    intro s w h hrun
    cases hrun
    exact h
  | cons e es ih =>
    intro s w h hrun
    obtain ⟨u, hu, hrun⟩ := run_cons_eq_some.1 hrun
    have hclock := step_clock hu
    unfold timestamps at ih ⊢
    rcases he : e.timestamp with _ | now <;> rw [he] at hclock
    · rw [List.filterMap_cons_none he]
      exact ih ⟨hclock.1.trans h.1, hclock.2.trans h.2⟩ hrun
    · rw [List.filterMap_cons_some he]
      have hcall := h.onTimer now
      exact ih ⟨hclock.1.trans hcall.1, hclock.2.trans hcall.2⟩ hrun

/-- **The clock of a run is that of its timestamps.** -/
theorem run_clock {es : List WheelEvent} (h : run WheelRun.step {} es = some t) :
    t.wheel.tick = (clock (timestamps es)).tick :=
  (run_sameClock (s := {}) ⟨rfl, rfl⟩ h).2

/-- A call of `OnTimer` in a run ends a prefix of its timestamps, and the other way round. -/
theorem prefix_timestamps_iff {es : List WheelEvent} {p : List ℤ} :
    p ++ [now] <+: timestamps es ↔
      ∃ pre, pre ++ [.onTimer now] <+: es ∧ timestamps pre = p := by
  constructor
  · rintro ⟨rest, h⟩
    rw [List.append_assoc] at h
    obtain ⟨pre, post, rfl, hpre, hpost⟩ := List.filterMap_eq_append_iff.1 h.symm
    obtain ⟨skip, e, post', rfl, hskip, he, -⟩ := List.filterMap_eq_cons_iff.1 hpost
    have hevent : e = .onTimer now := by
      cases e <;> cases he
      rfl
    subst hevent
    refine ⟨pre ++ skip, ⟨post', by simp⟩, ?_⟩
    rw [timestamps, List.filterMap_append, hpre, List.filterMap_eq_nil_iff.2 hskip,
      List.append_nil]
  · rintro ⟨pre, ⟨rest, rfl⟩, rfl⟩
    simp only [timestamps, List.filterMap_append]
    exact List.prefix_append _ _

/-- After each call of `OnTimer` in a run, `tick_` is the whole seconds since the first. -/
def FollowsClock (first : ℤ) (es : List WheelEvent) : Prop :=
  ∀ pre now t, pre ++ [.onTimer now] <+: es →
    run WheelRun.step {} (pre ++ [.onTimer now]) = some t →
      (t.wheel.tick : ℤ) = wholeSeconds first now

/-- **When ticks follow the clock.** In a run whose timestamps are positive and do not decrease,
`tick_` is the whole seconds since the first timestamp after each call of `OnTimer` exactly if
every later call is in a second that an earlier call was in, or at least 1000 ms after an
earlier call of the second before. -/
theorem ticks_follow_iff {es : List WheelEvent} {s : WheelRun}
    (h : run WheelRun.step {} es = some s) {rest : List ℤ}
    (hts : timestamps es = first :: rest) (hpos : 0 < first)
    (hsorted : (first :: rest).Pairwise (· ≤ ·)) (hbound : ∀ t ∈ rest, t < 2 ^ 63) :
    FollowsClock first es ↔ Steady first (timestamps es) := by
  have hfollows : FollowsClock first es ↔ Follows first (timestamps es) := by
    constructor
    · intro hf p now hp
      obtain ⟨pre, ⟨post, rfl⟩, rfl⟩ := prefix_timestamps_iff.1 hp
      obtain ⟨t, ht, -⟩ := run_append.1 h
      have htick := run_clock ht
      rw [timestamps, List.filterMap_append] at htick
      rw [← hf pre now t (List.prefix_append ..) ht, htick]
      rfl
    · intro hf pre now t hpre ht
      have htick := run_clock ht
      rw [timestamps, List.filterMap_append] at htick
      rw [htick]
      exact hf _ now (prefix_timestamps_iff.2 ⟨pre, hpre, rfl⟩)
  rw [hfollows, hts]
  exact (follows_iff_steady hpos rest hsorted hbound).1

/-- Calls of a loop that wakes every second. -/
theorem ticks_follow_iff_regular : FollowsClock 1000 [.onTimer 1000, .onTimer 2000] := by
  refine (ticks_follow_iff (s := (run WheelRun.step {} [.onTimer 1000, .onTimer 2000]).get rfl)
    (Option.some_get _).symm rfl (by decide) (by decide) (by decide)).2 ?_
  intro pre now hpre hne
  rcases pre with _ | ⟨a, _ | ⟨b, pre⟩⟩
  · exact absurd rfl hne
  · obtain ⟨rfl, rfl⟩ : a = 1000 ∧ now = 2000 := by
      simpa [timestamps, WheelEvent.timestamp] using hpre
    exact ⟨1000, List.mem_singleton_self _, .inr ⟨by decide, by decide⟩⟩
  · have hlen := hpre.length_le
    simp [timestamps, WheelEvent.timestamp] at hlen

/-- Two calls, two seconds apart: one tick. -/
theorem tick_misses_second : ¬ ∀ (es : List WheelEvent) (s : WheelRun) (first : ℤ) (rest : List ℤ),
    run WheelRun.step {} es = some s → timestamps es = first :: rest → 0 < first →
      (first :: rest).Pairwise (· ≤ ·) → (∀ t ∈ rest, t < 2 ^ 63) → FollowsClock first es := by
  intro h
  have hf := h [.onTimer 1000, .onTimer 3000] _ 1000 [3000] rfl rfl (by decide) (by decide)
    (by decide)
  have htick := hf [.onTimer 1000] 3000 _ (List.prefix_refl _) rfl
  revert htick
  decide

end HttpNest
