import HttpNest.Proof.SlotBounds
import HttpNest.Proof.TimerSteps

/-!
# Timers from a minute to an hour

The closure of `RunAfter(delay)` waits for as many full minutes as `delay` has, and not for as many
times sixty seconds; then the seconds of the delay remain. So the callback is run early, unless the
call is made at a full minute whose `PopUp` is over, and not at all if no second remains, since the
insertion behind the closure is undefined then.

`Followed` is the one `CallbackEntry` of such a call along any run, with any other timers.
`minute_timer_iff`: the delay is kept in every run from such a call exactly if a second remains and
the call is made at a full minute.
-/

namespace HttpNest

open EventRun TimingWheel

namespace TimerRun

variable {s t : TimerRun} {w w' : WheelRun} {x : CallbackEntry} {cb k second m entry i : ℕ}

/-! ## One callback -/

/-- How far the callback has come: its entry is on the way, or it has been run in the remaining
seconds behind the full minute. -/
inductive Progress (k second m : ℕ) (w : WheelRun) (runs : List ℕ) : Prop
  | waiting : Way (callbackEntry k) second m w → runs = [] → Progress k second m w runs
  | ran (n : ℕ) : MinuteTick m n → 1 ≤ second → w.owns (callbackEntry k) = false →
    runs = [n + second] → n + second ≤ w.ticks → Progress k second m w runs

/-- Entry `k` is the only one of callback `cb`, which does not repeat. -/
structure Followed (cb k second m : ℕ) (s : TimerRun) : Prop where
  entry : s.entries[k]? = some { cb := cb, interval := none }
  only : ∀ k' x, s.entries[k']? = some x → x.cb = cb → k' = k
  calls : ∀ x ∈ s.calls, x.cb = cb → x.interval = none
  known : cb < s.schedules.length
  progress : Progress k second m s.wheel (s.runsOf cb)

/-- The destructor of another entry. -/
theorem Followed.release (h : Followed cb k second m s)
    (hother : entry = callbackEntry k → s.wheel.owns entry = true) :
    Followed cb k second m (s.release entry) := by
  rcases release_cases s entry with heq | ⟨k', x, rfl, hx, hno, heq⟩ <;> rw [heq]
  · exact h
  have hne : x.cb ≠ cb := by
    intro hcb
    rw [h.only k' x hx hcb] at hno hother
    rw [hother rfl] at hno
    cases hno
  have hruns : (s.destroy x).runsOf cb = s.runsOf cb := by
    rw [runsOf_destroy, if_neg hne, List.append_nil]
  refine ⟨h.entry, h.only, ?_, h.known, ?_⟩
  · intro y hy hcb
    rcases List.mem_cons.1 hy with rfl | hy
    · exact absurd hcb hne
    · exact h.calls y hy hcb
  · rw [hruns]
    exact h.progress

/-- A step of the wheel that drops no reference to the entry. -/
theorem Progress.step {runs : List ℕ} (h : Progress k second m w runs) (hs : Slotted w)
    (hc : Counted w) (h59 : second ≤ 59) {e : WheelEvent}
    (hinsert : ∀ delay, e ≠ .insert delay (callbackEntry k))
    (hdrop : ∀ i p, e = .drop i → w.released[i]? = some p → p.entry? ≠ some (callbackEntry k))
    (hw : w.step e = some w') : Progress k second m w' runs := by
  have hcarried := step_carried hinsert hdrop hw
  cases h with
  | waiting hway hnil =>
    refine .waiting ?_ hnil
    refine (hway.step hs hc h59 hinsert hw).resolve_right ?_
    rintro ⟨hno, -⟩
    rw [hcarried.owns hway.owns] at hno
    cases hno
  | ran n hn hone hno hrun hle =>
    have hticks : w.ticks ≤ w'.ticks := by
      cases hcarried with
      | still _ _ hticks _ _ => exact hticks.ge
      | tick _ hticks _ _ => omega
      | pop _ _ hticks _ _ _ => exact hticks.ge
    exact .ran n hn hone (step_not_owns hinsert hno hw) hrun (hle.trans hticks)

/-- The entry of another call is inserted. -/
theorem Followed.insert (h : Followed cb k second m s) (hs : Numbered s) (h59 : second ≤ 59)
    {delay : BitVec 32} (hne : entry ≠ callbackEntry k)
    (hw : s.wheel.insert delay entry = some w) : Progress k second m w (s.runsOf cb) :=
  h.progress.step hs.slotted hs.counted h59 (e := .insert delay entry)
    (fun _ heq => hne (WheelEvent.insert.inj heq).2) (fun _ _ heq => by cases heq) hw

/-- Behind the last entry there is another one, of another callback. -/
theorem Followed.concat (h : Followed cb k second m s) (hx : x.cb ≠ cb) :
    (s.entries ++ [x])[k]? = some { cb := cb, interval := none } ∧
      (∀ k' y, (s.entries ++ [x])[k']? = some y → y.cb = cb → k' = k) ∧
        callbackEntry s.entries.length ≠ callbackEntry k := by
  obtain ⟨hlt, -⟩ := List.getElem?_eq_some_iff.1 h.entry
  refine ⟨by rw [List.getElem?_append_left hlt]; exact h.entry, ?_, ?_⟩
  · intro k' y hy hcb
    rcases lt_trichotomy k' s.entries.length with hk | rfl | hk
    · rw [List.getElem?_append_left hk] at hy
      exact h.only k' y hy hcb
    · rw [List.getElem?_concat_length] at hy
      rw [← Option.some.inj hy] at hcb
      exact absurd hcb hx
    · rw [List.getElem?_eq_none (by simp; omega)] at hy
      cases hy
  · intro heq
    exact hlt.ne (callbackEntry_inj heq).symm

/-- **The callback is run when the last reference to its entry is dropped**, and in no other
step. -/
theorem Followed.drop (h : Followed cb k second m s) (hs : Numbered s) (h59 : second ≤ 59)
    {p : EntryPtr} (hp : s.wheel.released[i]? = some p) (hw : s.wheel.step (.drop i) = some w) :
    Followed cb k second m
      (p.entry?.elim { s with wheel := w } { s with wheel := w }.release) := by
  have hinsert : ∀ delay, WheelEvent.drop i ≠ .insert delay (callbackEntry k) :=
    fun _ he => by cases he
  by_cases hself : p.entry? = some (callbackEntry k)
  · rw [hself]
    have hown : s.wheel.owns (callbackEntry k) = true := by
      rw [← Bool.not_eq_false, owns_eq_false_iff]
      rintro ⟨-, hnil⟩
      exact refs_eq_nil_iff.1 hnil p (List.mem_of_getElem? hp) hself
    cases h.progress with
    | ran n _ _ hno _ _ =>
      rw [hown] at hno
      cases hno
    | waiting hway hnil =>
      rcases hway.step hs.slotted hs.counted h59 hinsert hw with hway' | ⟨hno, n, hn, hone, hticks⟩
      -- the closure has inserted the entry
      · exact Followed.release (s := { s with wheel := w })
          ⟨h.entry, h.only, h.calls, h.known, .waiting hway' hnil⟩ fun _ => hway'.owns
      · have hcallback : ({ s with wheel := w } : TimerRun).callbackOf (callbackEntry k) =
            some { cb := cb, interval := none } := by
          rw [callbackOf_callbackEntry]
          exact h.entry
        have hrelease : ({ s with wheel := w } : TimerRun).release (callbackEntry k) =
            { s with wheel := w }.destroy { cb := cb, interval := none } := by
          unfold TimerRun.release
          simp only [hno, hcallback]
          rfl
        rw [Option.elim_some, hrelease]
        refine ⟨h.entry, h.only, ?_, h.known, .ran n hn hone hno ?_ hticks.ge⟩
        · intro y hy hcb
          rcases List.mem_cons.1 hy with rfl | hy
          · rfl
          · exact h.calls y hy hcb
        · rw [runsOf_destroy, if_pos rfl, ← hticks]
          exact congrArg (· ++ [w.ticks]) hnil
  · have hwheel : Followed cb k second m { s with wheel := w } := by
      refine ⟨h.entry, h.only, h.calls, h.known, h.progress.step hs.slotted hs.counted h59
        hinsert ?_ hw⟩
      rintro i' p' he hp'
      cases he
      rwa [Option.some.inj (hp'.symm.trans hp)]
    rcases he : p.entry? with _ | entry
    · exact hwheel
    · refine hwheel.release ?_
      rintro rfl
      exact absurd he hself

/-- **Every step goes on with the callback.** -/
theorem Followed.move (h : Followed cb k second m s) (hs : Numbered s) (h59 : second ≤ 59)
    (ht : s.Move t) : Followed cb k second m t := by
  cases ht with
  | @schedule c delay w hw =>
    obtain ⟨hentry, honly, hne⟩ := h.concat (x := c.made s.schedules.length) h.known.ne'
    refine Followed.release (s := { s with
      wheel := w, schedules := s.schedules ++ [c]
      entries := s.entries ++ [c.made s.schedules.length] })
      ⟨hentry, honly, h.calls, ?_, h.insert hs h59 hne hw⟩ fun heq => absurd heq hne
    rw [List.length_append]
    exact Nat.lt_add_right _ h.known
  | @again x calls delay w hcalls hinterval hw =>
    -- a callback that repeats is another one
    have hx : x.cb ≠ cb :=
      fun hcb => hinterval (h.calls x (by rw [hcalls]; exact List.mem_cons_self ..) hcb)
    obtain ⟨hentry, honly, hne⟩ := h.concat hx
    refine Followed.release (s := { s with
      wheel := w, calls := calls, entries := s.entries ++ [x] })
      ⟨hentry, honly, fun y hy => h.calls y (by rw [hcalls]; exact List.mem_cons_of_mem _ hy),
        h.known, h.insert hs h59 hne hw⟩ fun heq => absurd heq hne
  | returns x calls hcalls _ =>
    exact ⟨h.entry, h.only, fun y hy => h.calls y (by rw [hcalls]; exact List.mem_cons_of_mem _ hy),
      h.known, h.progress⟩
  | wheel e hinsert hdrop _ hw =>
    exact ⟨h.entry, h.only, h.calls, h.known, h.progress.step hs.slotted hs.counted h59
      (fun delay => hinsert delay k) (fun i _ he _ => absurd he (hdrop i)) hw⟩
  | drop i p _ hp hw => exact h.drop hs h59 hp hw

theorem Followed.run (h : Followed cb k second m s) (hs : Numbered s) (h59 : second ≤ 59)
    {es : List TimerEvent} (ht : run TimerRun.step s es = some t) :
    Numbered t ∧ Followed cb k second m t :=
  run_inv (fun t => Numbered t ∧ Followed cb k second m t)
    (fun _ _ _ hu hv => ⟨hu.1.move (step_move hv), hu.2.move hu.1 h59 (step_move hv)⟩) ⟨hs, h⟩ ht

theorem floor_minute {x : ℚ} (h60 : 60 ≤ x) (h3600 : x < 3600) : 60 ≤ ⌊x⌋₊ ∧ ⌊x⌋₊ < 3600 :=
  ⟨Nat.le_floor (by exact_mod_cast h60), (Nat.floor_lt (by linarith)).2 (by exact_mod_cast h3600)⟩

/-- A delay from a minute to an hour is converted to its whole seconds. -/
theorem toUInt32_minute {x : ℚ} (h60 : 60 ≤ x) (h3600 : x < 3600) :
    ∃ d, toUInt32 x = some d ∧ d.toNat = ⌊x⌋₊ ∧ 60 ≤ d.toNat ∧ d.toNat < 3600 := by
  obtain ⟨hlow, hhigh⟩ := floor_minute h60 h3600
  have htoNat : (BitVec.ofNat 32 ⌊x⌋₊).toNat = ⌊x⌋₊ := by
    rw [BitVec.toNat_ofNat, Nat.mod_eq_of_lt (by omega)]
  refine ⟨_, ?_, htoNat, by omega, by omega⟩
  unfold toUInt32
  rw [if_pos ⟨by linarith, by linarith⟩]

/-- **A call of `RunAfter` starts the way of its entry.** -/
theorem runAfter_followed (hs : Numbered s) {delay : ℚ} (h60 : 60 ≤ delay) (h3600 : delay < 3600) :
    ∃ t, s.step (.runAfter delay) = some t ∧ t.entries = s.entries ++
        [{ cb := s.schedules.length, interval := none }] ∧ t.calls = s.calls ∧
      t.runs = s.runs ∧ t.wheel.ticks = s.wheel.ticks ∧
      (∃ d, s.wheel.insert d (callbackEntry s.entries.length) = some t.wheel) ∧
      Followed s.schedules.length s.entries.length (⌊delay⌋₊ % 60)
        (s.wheel.pops .kTimingTypeMinute + ⌊delay⌋₊ / 60) t := by
  obtain ⟨d, hd, hfloor, hd60, hd3600⟩ := toUInt32_minute h60 h3600
  obtain ⟨w, hw, hticks, hway⟩ := insert_way hs.slotted (hs.fresh _ le_rfl) hd60 hd3600
  rw [hfloor] at hway
  refine ⟨{ s with
    wheel := w, schedules := s.schedules ++ [⟨s.wheel.ticks, delay, false⟩]
    entries := s.entries ++ [{ cb := s.schedules.length, interval := none }] }, ?_, rfl, rfl, rfl,
    hticks, ⟨d, hw⟩, List.getElem?_concat_length, ?_, ?_, ?_, .waiting hway ?_⟩
  · simp only [TimerRun.step, runAfter, insertCallback]
    rw [hd, Option.bind_some]
    show Option.map _ (s.wheel.insert d (callbackEntry s.entries.length)) = _
    rw [hw, Option.map_some]
    unfold TimerRun.release
    simp only [TimerRun.schedule, hway.owns, if_true]
  · -- no callback before has the number of the new one
    intro k' x hx hcb
    rcases lt_trichotomy k' s.entries.length with hk | hk | hk
    · rw [List.getElem?_append_left hk] at hx
      exact absurd hcb (hs.known x (.inl (List.mem_of_getElem? hx))).ne
    · exact hk
    · rw [List.getElem?_eq_none (by simp; omega)] at hx
      cases hx
  · intro x hx hcb
    exact absurd hcb (hs.known x (.inr hx)).ne
  · simp
  · unfold runsOf
    rw [List.map_eq_nil_iff, List.filter_eq_nil_iff]
    intro r hr heq
    exact (hs.ran r hr).ne (of_decide_eq_true heq)

/-! ## When the delay is kept -/

/-- From the call on, the callback is run in the tick in which it is due, and in no other, in every
run; and whatever the wheel drops of its entry is defined. -/
structure KeepsDelay (s : TimerRun) (cb k : ℕ) (c : Schedule) : Prop where
  exact : ∀ es t, EventRun.run TimerRun.step s es = some t → Exact t cb c
  defined : ∀ es t, EventRun.run TimerRun.step s es = some t → t.calls = [] → ∀ i p,
    t.wheel.released[i]? = some p → p.entry? = some (callbackEntry k) →
      (t.step (.drop i)).isSome

theorem Followed.exact {n : ℕ} {c : Schedule} (h : Followed cb k second m s) (hs : Numbered s)
    (hn : MinuteTick m n) (hone : 1 ≤ second) (hrepeats : c.repeats = false)
    (hdue : n + second = c.tick + ⌊c.delay⌋₊) : Exact s cb c := by
  have hdue_iff : ∀ n', c.Due n' ↔ n' = n + second := by
    intro n'
    unfold Schedule.Due
    rw [hrepeats, if_neg (by decide), hdue]
  cases h.progress with
  | waiting hway hnil =>
    refine ⟨by rw [hnil]; exact List.Pairwise.nil, fun n' hn' => ?_, fun n' hdue' hover => ?_⟩
    · rw [hnil] at hn'
      cases hn'
    · rw [(hdue_iff n').1 hdue'] at hover
      exact absurd hover (hway.not_over hs.counted hn hone)
  | ran n' hn' _ _ hrun hle =>
    obtain rfl := hn.unique hn'
    refine ⟨by rw [hrun]; exact List.pairwise_singleton _ _, fun a ha => ?_, fun a ha _ => ?_⟩
    · rw [hrun, List.mem_singleton] at ha
      exact ⟨(hdue_iff a).2 ha, ha.trans_le hle⟩
    · rw [hrun, List.mem_singleton]
      exact (hdue_iff a).1 ha

/-- A reference to the entry can be dropped, if a second remains. -/
theorem Followed.defined (h : Followed cb k second m s) (hs : Numbered s) (h59 : second ≤ 59)
    (hone : 1 ≤ second) (hcalls : s.calls = []) {p : EntryPtr}
    (hp : s.wheel.released[i]? = some p) (he : p.entry? = some (callbackEntry k)) :
    (s.step (.drop i)).isSome := by
  have hmem : p ∈ s.wheel.released.refs (callbackEntry k) :=
    mem_refs.2 ⟨List.mem_of_getElem? hp, he⟩
  have hwheel : (s.wheel.step (.drop i)).isSome := by
    cases h.progress with
    | ran n _ _ hno _ _ =>
      rw [(owns_eq_false_iff.1 hno).2] at hmem
      cases hmem
    | waiting hway _ =>
      cases hway with
      | minute j _ _ hrel =>
        rw [hrel] at hmem
        cases hmem
      | released hn hwheels hrel =>
        rw [hrel, List.mem_singleton] at hmem
        subst hmem
        exact (enter_seconds hs.slotted hs.counted h59 hn hwheels hrel hp).1 hone
      | seconds n _ _ hseated _ =>
        have hpuser := hseated.released p (List.mem_of_getElem? hp) he
        simp only [WheelRun.step]
        rw [hp, hpuser]
        rfl
  obtain ⟨w, hw⟩ := Option.isSome_iff_exists.1 hwheel
  simp only [TimerRun.step, TimerRun.drop, wheelStep]
  rw [if_pos hcalls, hp, Option.bind_some, hw, Option.map_some, Option.map_some]
  rfl

/-! ## Full minutes -/

/-- The call is made at a full minute whose `PopUp` is over, and `tick_` does not start anew within
the next `q` minutes. -/
def Aligned (w : WheelRun) (q : ℕ) : Prop :=
  w.next = none ∧ w.wheel.tick % 60 = 0 ∧ w.wheel.tick + 60 * q < 2 ^ 64

/-- **At a full minute the `q`-th one from now is `q` times sixty seconds ahead**, and at no other
time. -/
theorem minuteTick_iff {q : ℕ} (hc : Counted w) (hq : 1 ≤ q) (hq59 : q ≤ 59) :
    MinuteTick (w.pops .kTimingTypeMinute + q) (w.ticks + 60 * q) ↔ Aligned w q := by
  have hcount := hc.pops
  have hle := minutes_add_le w.ticks q
  unfold Aligned
  rw [hc.tick]
  rcases hc.next with hnext | ⟨hnext, -, -⟩
  · rw [hnext, if_neg (by decide)] at hcount
    rw [hnext]
    unfold minutes at hcount
    constructor
    · rintro ⟨hq', -, hfull⟩
      unfold minutes at hq'
      refine ⟨rfl, ?_, ?_⟩ <;> omega
    · rintro ⟨-, hfull, hlt⟩
      have hsplit : w.ticks + 60 * q = w.ticks % 2 ^ 64 + 60 * q + 2 ^ 64 * (w.ticks / 2 ^ 64) := by
        omega
      have hmod : (w.ticks + 60 * q) % 2 ^ 64 = w.ticks % 2 ^ 64 + 60 * q := by
        rw [hsplit, Nat.add_mul_mod_self_left, Nat.mod_eq_of_lt hlt]
      refine ⟨?_, by omega, by rw [hmod]; omega⟩
      unfold minutes
      rw [hmod]
      omega
  · -- a minute is popped at once
    rw [hnext, if_pos rfl] at hcount
    rw [hnext]
    refine iff_of_false ?_ fun h => by cases h.1
    rintro ⟨hq', -, -⟩
    omega

/-! ## Runs of one timer -/

/-- The event of the wheel among those of the timers. -/
def lift : WheelEvent → TimerEvent
  | .insert delay entry => .insertEntry delay entry
  | .onTimer now => .onTimer now
  | .drop i => .drop i
  | .popUp => .popUp

theorem mem_runsOf_destroy (s : TimerRun) (x : CallbackEntry) :
    (s.destroy x).wheel.ticks ∈ (s.destroy x).runsOf x.cb := by
  rw [runsOf_destroy, if_pos rfl]
  exact List.mem_append_right _ (List.mem_singleton_self _)

/-- A step of the wheel is one of the timers, which may run a callback. -/
theorem step_lift (hcalls : s.calls = []) {e : WheelEvent} (he : e.Within ∅)
    (hw : s.wheel.step e = some w) : ∃ t, s.step (lift e) = some t ∧
      (t = { s with wheel := w } ∨ ∃ x ∈ s.entries, t.wheel.ticks ∈ t.runsOf x.cb) := by
  cases e with
  | insert delay entry => exact he.elim
  | onTimer now | popUp =>
    refine ⟨{ s with wheel := w }, ?_, .inl rfl⟩
    simp only [lift, TimerRun.step, wheelStep]
    rw [if_pos hcalls, hw]
    rfl
  | drop i =>
    obtain ⟨p, hp, -⟩ := WheelRun.step_drop hw
    simp only [lift, TimerRun.step, TimerRun.drop, wheelStep]
    rw [if_pos hcalls, hp, Option.bind_some, hw, Option.map_some, Option.map_some]
    refine ⟨_, rfl, ?_⟩
    rcases p.entry? with _ | entry
    · exact .inl rfl
    · rcases release_cases { s with wheel := w } entry with heq | ⟨k, x, -, hx, -, heq⟩
      · exact .inl heq
      · refine .inr ⟨x, List.mem_of_getElem? hx, ?_⟩
        simp only
        rw [heq]
        exact mem_runsOf_destroy _ x

/-- **A run of the wheel is one of the timers**, until a callback is run. -/
theorem run_lift {es : List WheelEvent} : ∀ {s : TimerRun}, s.calls = [] →
    (∀ e ∈ es, e.Within ∅) → EventRun.run WheelRun.step s.wheel es = some w →
      ∃ fs t, EventRun.run TimerRun.step s fs = some t ∧
        (t = { s with wheel := w } ∨ ∃ x ∈ s.entries, t.wheel.ticks ∈ t.runsOf x.cb) := by
  induction es with
  | nil =>
    intro s _ _ hrun
    cases hrun
    exact ⟨[], s, rfl, .inl rfl⟩
  | cons e es ih =>
    intro s hcalls hes hrun
    obtain ⟨v, hv, hrun⟩ := run_cons_eq_some.1 hrun
    obtain ⟨t, ht, hcases⟩ := step_lift hcalls (hes e (List.mem_cons_self ..)) hv
    rcases hcases with rfl | hran
    · obtain ⟨fs, u, hu, hucases⟩ := ih (s := { s with wheel := v }) hcalls
        (fun f hf => hes f (List.mem_cons_of_mem _ hf)) hrun
      exact ⟨lift e :: fs, u, run_cons_eq_some.2 ⟨_, ht, hu⟩, hucases⟩
    · exact ⟨[lift e], t, run_cons_eq_some.2 ⟨t, ht, rfl⟩, .inr hran⟩

/-- A wheel without insertions comes to any number of ticks, before the `PopUp` of a full minute or
behind it, and refers to no entry. -/
theorem exists_bare (hc : Counted w) : Leads {} fun v =>
    v.ticks = w.ticks ∧ v.next = w.next ∧ ∀ entry, v.owns entry = false := by
  have hrun : ∀ {es : List WheelEvent} {v : WheelRun}, (∀ e ∈ es, e.Within ∅) →
      EventRun.run WheelRun.step {} es = some v → SoundWheel v ∧ ∀ entry, v.owns entry = false := by
    intro es v hes hv
    refine run_inv_of_meets (fun v => SoundWheel v ∧ ∀ entry, v.owns entry = false) ?_
      ⟨soundWheel_new, new_owns⟩ (meets_of_forall hes) hv
    rintro v e v' ⟨hsound, hno⟩ he hv'
    refine ⟨hsound.step (within_mono he) hv', fun entry => step_not_owns ?_ (hno entry) hv'⟩
    rintro delay rfl
    exact he.elim
  have hidle : ∀ n, Leads {} fun v => v.Idle ∧ v.ticks = n := by
    intro n
    obtain ⟨es, v, hes, hv, hcases⟩ := exists_tick slotted_new n
    obtain ⟨-, hidle, hticks⟩ := hcases.resolve_left (hrun hes hv).1.not_jammed
    exact ⟨es, v, hes, hv, hidle, by rw [hticks]; exact Nat.zero_add n⟩
  rcases hc.next with hnext | ⟨hnext, hpos, hfull⟩
  · obtain ⟨es, v, hes, hv, hv', hticks⟩ := hidle w.ticks
    exact ⟨es, v, hes, hv, hticks, by rw [hv'.2, hnext], (hrun hes hv).2⟩
  · -- the seconds of the last tick are popped, the minutes are next
    obtain ⟨es, v, hes, hv, hv', hticks⟩ := hidle (w.ticks - 1)
    obtain ⟨fs, u, hfs, hu, -, huticks, hunext⟩ := leads_tick (hrun hes hv).1.slotted hv'
    have hes' : ∀ e ∈ es ++ fs, e.Within ∅ := by
      intro e he
      rcases List.mem_append.1 he with he | he
      · exact hes e he
      · exact hfs e he
    have hu' := run_append.2 ⟨v, hv, hu⟩
    have hticks' : u.ticks = w.ticks := by omega
    refine ⟨es ++ fs, u, hes', hu', hticks', ?_, (hrun hes' hu').2⟩
    rw [hunext, nextWheel_eq, (hrun hes' hu').1.counted.tick, hticks', if_pos hfull, hnext]

/-- **The wheel does not come to the tick in which the callback is due without running it.** -/
theorem not_silent {c : Schedule} (hkeeps : KeepsDelay s cb k c)
    (honly : ∀ entry, entry ≠ callbackEntry k → s.wheel.owns entry = false) (hcalls : s.calls = [])
    (hruns : s.runs = []) (hrepeats : c.repeats = false) {es : List WheelEvent}
    (hes : ∀ e ∈ es, e.Within ∅) (hw : EventRun.run WheelRun.step s.wheel es = some w)
    {fs : List TimerEvent} (hfs : EventRun.run TimerRun.step s fs = some { s with wheel := w }) :
    ¬ (Jammed w ∨ w.Idle ∧ w.ticks = c.tick + ⌊c.delay⌋₊) := by
  rintro (⟨i, hi, hnone⟩ | ⟨hidle, hticks⟩)
  · have honly' : ∀ entry, entry ≠ callbackEntry k → w.owns entry = false := by
      intro entry hne
      refine run_inv_of_meets (fun v => v.owns entry = false) ?_ (honly entry hne)
        (meets_of_forall hes) hw
      rintro v e v' hv he hv'
      refine step_not_owns ?_ hv hv'
      rintro delay rfl
      exact he.elim
    obtain ⟨p, hp⟩ : ∃ p, w.released[i]? = some p := ⟨_, List.getElem?_eq_getElem hi⟩
    have hmem := List.mem_of_getElem? hp
    -- what cannot be dropped is a closure, and there is no other one than that of the entry
    have he : p.entry? = some (callbackEntry k) := by
      simp only [WheelRun.step] at hnone
      rw [hp] at hnone
      rcases p with _ | e | ⟨second, e⟩
      · cases hnone
      · cases hnone
      · by_contra hne
        have hno := honly' e fun heq => hne (by rw [heq]; rfl)
        exact refs_eq_nil_iff.1 (owns_eq_false_iff.1 hno).2 _ hmem rfl
    have hsome := hkeeps.defined fs _ hfs hcalls i p hp he
    simp only [TimerRun.step, TimerRun.drop, wheelStep] at hsome
    rw [if_pos hcalls, hp, Option.bind_some, hnone] at hsome
    cases hsome
  · have hdue : c.Due (c.tick + ⌊c.delay⌋₊) := by
      unfold Schedule.Due
      rw [hrepeats, if_neg (by decide)]
    have hmem := (hkeeps.exact fs _ hfs).all _ hdue (.inr ⟨hticks.symm, hidle⟩)
    unfold runsOf at hmem
    simp only [hruns] at hmem
    cases hmem

/-- What is expected of `RunAfter`, for a value of `tick_` and of the wheel that is popped next: in
every run, a call with this delay keeps it. -/
def KeepsDelayAt (tick : ℕ) (next : Option TimingType) (delay : ℚ) : Prop :=
  ∀ es s, EventRun.run TimerRun.step {} es = some s → s.wheel.wheel.tick = tick →
    s.wheel.next = next → ∃ t, s.step (.runAfter delay) = some t ∧
      KeepsDelay t s.schedules.length s.entries.length ⟨s.wheel.ticks, delay, false⟩

/-- **Only at a full minute, and with seconds that remain.** -/
theorem aligned_of_keepsDelayAt {s₀ : TimerRun} (hs₀ : Numbered s₀) {delay : ℚ} (h60 : 60 ≤ delay)
    (h3600 : delay < 3600) (h : KeepsDelayAt s₀.wheel.wheel.tick s₀.wheel.next delay) :
    ⌊delay⌋₊ % 60 ≠ 0 ∧ Aligned s₀.wheel (⌊delay⌋₊ / 60) := by
  obtain ⟨hlow, hhigh⟩ := floor_minute h60 h3600
  obtain ⟨es, w, hes, hw, hticks, hnext, hno⟩ := exists_bare hs₀.counted
  -- the call is the first one
  obtain ⟨fs, s, hs, hcases⟩ := run_lift (s := {}) rfl hes hw
  have hfirst : ¬ ∃ x ∈ ({} : TimerRun).entries, s.wheel.ticks ∈ s.runsOf x.cb := by
    rintro ⟨x, hx, -⟩
    cases hx
  obtain rfl := hcases.resolve_right hfirst
  have hnumbered := run_numbered hs
  have htick : w.wheel.tick = s₀.wheel.wheel.tick := by
    rw [hnumbered.counted.tick, hs₀.counted.tick, hticks]
  obtain ⟨t, ht, hkeeps⟩ := h fs _ hs htick hnext
  obtain ⟨t', ht', hentries, hcalls, hruns, hticks', ⟨d, hd⟩, hfollowed⟩ :=
    runAfter_followed hnumbered h60 h3600
  cases ht.symm.trans ht'
  have hnumbered' := hnumbered.move (step_move ht)
  have honly : ∀ entry, entry ≠ callbackEntry 0 → t.wheel.owns entry = false := by
    intro entry hne
    refine step_not_owns (e := .insert d (callbackEntry 0)) ?_ (hno entry) hd
    intro delay' heq
    exact hne (WheelEvent.insert.inj heq).2.symm
  obtain ⟨gs, v, hgs, hv, hend⟩ := exists_tick hnumbered'.slotted ⌊delay⌋₊
  obtain ⟨hs', u, hu, hucases⟩ := run_lift hcalls hgs hv
  rcases hucases with rfl | ⟨x, hx, hran⟩
  · refine absurd ?_ (not_silent hkeeps honly hcalls hruns rfl hgs hv hu)
    refine hend.imp_right ?_
    rintro ⟨-, hidle, hvticks⟩
    exact ⟨hidle, by rw [hvticks, hticks']⟩
  -- the callback has been run, in the tick in which it is due
  rw [hentries, List.nil_append, List.mem_singleton] at hx
  subst hx
  have hdue := ((hkeeps.exact hs' u hu).due _ hran).1
  simp only [Schedule.Due] at hdue
  rw [if_neg (by decide)] at hdue
  cases ((hfollowed.run hnumbered' (by omega) hu).2).progress with
  | waiting _ hnil =>
    rw [hnil] at hran
    cases hran
  | ran n hn hone _ hrun _ =>
    rw [hrun, List.mem_singleton] at hran
    have heq : n = w.ticks + 60 * (⌊delay⌋₊ / 60) := by omega
    rw [heq] at hn
    obtain ⟨hnone, hfull, hlt⟩ := (minuteTick_iff hnumbered.counted (by omega) (by omega)).1 hn
    refine ⟨by omega, ?_, ?_, ?_⟩
    · rw [← hnext]
      exact hnone
    · rw [← htick]
      exact hfull
    · rw [← htick]
      exact hlt

/-- **When a minute timer keeps its delay.** Calls of `RunAfter` with a delay from a minute to an
hour, at a value of `tick_` and of the wheel to be popped next that a run reaches, have their
callbacks run once, at the end of the delay, in every run, exactly if the delay is no multiple of a
minute and the calls are made at a full minute whose `PopUp` is over, with `tick_` not starting anew
within the minutes of the delay. -/
theorem minute_timer_iff {es₀ : List TimerEvent} {s₀ : TimerRun}
    (h₀ : EventRun.run TimerRun.step {} es₀ = some s₀) {delay : ℚ} (h60 : 60 ≤ delay)
    (h3600 : delay < 3600) : KeepsDelayAt s₀.wheel.wheel.tick s₀.wheel.next delay ↔
      ⌊delay⌋₊ % 60 ≠ 0 ∧ Aligned s₀.wheel (⌊delay⌋₊ / 60) := by
  obtain ⟨hlow, hhigh⟩ := floor_minute h60 h3600
  refine ⟨aligned_of_keepsDelayAt (run_numbered h₀) h60 h3600, ?_⟩
  rintro ⟨hsecond, halignment⟩ es s hs htick hnext
  have hnumbered := run_numbered hs
  have haligned : Aligned s.wheel (⌊delay⌋₊ / 60) := by
    unfold Aligned
    rw [htick, hnext]
    exact halignment
  obtain ⟨t, ht, -, -, -, -, -, hfollowed⟩ := runAfter_followed hnumbered h60 h3600
  have hnumbered' := hnumbered.move (step_move ht)
  have hn := (minuteTick_iff hnumbered.counted (by omega) (by omega)).2 haligned
  have hdue : s.wheel.ticks + 60 * (⌊delay⌋₊ / 60) + ⌊delay⌋₊ % 60 = s.wheel.ticks + ⌊delay⌋₊ := by
    omega
  refine ⟨t, ht, ?_, ?_⟩
  · intro fs u hu
    obtain ⟨hu', hf⟩ := hfollowed.run hnumbered' (by omega) hu
    exact hf.exact hu' hn (by omega) rfl hdue
  · intro fs u hu hcalls i p hp he
    obtain ⟨hu', hf⟩ := hfollowed.run hnumbered' (by omega) hu
    exact hf.defined hu' (by omega) (by omega) hcalls hp he

/-- A delay of 61 seconds, before the first tick. -/
theorem minute_timer_iff_new : KeepsDelayAt 0 none 61 := by
  have hnew : EventRun.run TimerRun.step {} [] = some {} := rfl
  have hfloor : ⌊(61 : ℚ)⌋₊ = 61 := by norm_num
  refine (minute_timer_iff hnew (by norm_num) (by norm_num)).2 ⟨?_, rfl, rfl, ?_⟩ <;> rw [hfloor]
  · decide
  · decide

/-- Behind one tick a delay of 61 seconds is over early. -/
theorem minute_timer_early : ¬ ∀ (es₀ : List TimerEvent) (s₀ : TimerRun) (delay : ℚ),
    EventRun.run TimerRun.step {} es₀ = some s₀ → 60 ≤ delay → delay < 3600 →
      KeepsDelayAt s₀.wheel.wheel.tick s₀.wheel.next delay := by
  intro h
  have hrun : (EventRun.run TimerRun.step {} [.onTimer 1, .onTimer 1001]).map
      (fun s => s.wheel.wheel.tick) = some 1 := by decide +kernel
  obtain ⟨s₀, hs₀, htick⟩ := Option.map_eq_some_iff.1 hrun
  have hlow : (60 : ℚ) ≤ 61 := by norm_num
  have hhigh : (61 : ℚ) < 3600 := by norm_num
  obtain ⟨-, -, hfull, -⟩ := aligned_of_keepsDelayAt (run_numbered hs₀) hlow hhigh
    (h _ s₀ 61 hs₀ hlow hhigh)
  rw [htick] at hfull
  cases hfull

end TimerRun

end HttpNest
