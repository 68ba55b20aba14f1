import HttpNest.Spec.TimingWheel

/-!
# The hour wheel and the day wheel never advance

`OnTimer` pops the minute wheel, or else the hour wheel, or else the day wheel, and a
tick that is a multiple of an hour is one of a minute too: `nextWheel_eq`. So in every
run the hour and the day wheel have not been popped once, and what has been put into them
stays (`Stalled`, `run_stalled`).

`wheels_advance_iff`: between two calls of `OnTimer`, the wheels have advanced once per
unit and every accepted entry can still be released exactly if less than an hour has
passed and no delay of an hour or more has been accepted.
-/

namespace HttpNest

open EventRun TimingWheel

variable {w w' : TimingWheel} {s t : WheelRun}

/-- **Only the minute wheel is selected.** -/
theorem nextWheel_eq (tick : ℕ) :
    nextWheel tick = if tick % 60 = 0 then some .kTimingTypeMinute else none := by
  unfold nextWheel kTimingMinute kTimingHour kTimingDay
  split_ifs with hm hh hd
  · rfl
  · omega
  · omega
  · rfl

/-! ## Entries that stay -/

/-- A slot of the wheel holds a callback for this entry. -/
def TimingWheel.Holds (w : TimingWheel) (type : TimingType) (entry : ℕ) : Prop :=
  ∃ slot ∈ w.wheels type, ∃ second, .callback second entry ∈ slot

/-- The hour wheel or the day wheel holds the entry. -/
def TimingWheel.Stalls (w : TimingWheel) (entry : ℕ) : Prop :=
  w.Holds .kTimingTypeHour entry ∨ w.Holds .kTimingTypeDay entry

theorem mem_emplace {slot : WheelEntry} {p q : EntryPtr} :
    q ∈ slot.emplace p ↔ q = p ∨ q ∈ slot := by
  cases p <;> simp [WheelEntry.emplace]

/-- What `emplaceAt` does to the wheels. -/
theorem emplaceAt_eq {type : TimingType} {i : ℕ} {p : EntryPtr}
    (h : w.emplaceAt type i p = some w') :
    i < (w.wheels type).length ∧ w'.tick = w.tick ∧ w'.wheels = Function.update w.wheels type
      ((w.wheels type).modify i fun slot => slot.emplace p) := by
  unfold emplaceAt at h
  obtain ⟨hi, h⟩ := Option.ite_none_right_eq_some.1 h
  cases h
  exact ⟨hi, rfl, rfl⟩

/-- Nothing is lost by an insertion. -/
theorem holds_of_emplaceAt {type type' : TimingType} {i entry : ℕ} {p : EntryPtr}
    (h : w.emplaceAt type i p = some w') (hw : w.Holds type' entry) : w'.Holds type' entry := by
  obtain ⟨hi, -, heq⟩ := emplaceAt_eq h
  obtain ⟨slot, hslot, second, hmem⟩ := hw
  by_cases htype : type' = type
  · subst htype
    obtain ⟨j, hj, rfl⟩ := List.getElem_of_mem hslot
    have hlen : j < ((w.wheels type').modify i fun slot => slot.emplace p).length := by
      rw [List.length_modify]
      exact hj
    refine ⟨((w.wheels type').modify i fun slot => slot.emplace p)[j], ?_, second, ?_⟩
    · rw [heq, Function.update_self]
      exact List.getElem_mem hlen
    · rw [List.getElem_modify]
      split_ifs
      · exact mem_emplace.2 (.inr hmem)
      · exact hmem
  · refine ⟨slot, ?_, second, hmem⟩
    rw [heq, Function.update_of_ne htype]
    exact hslot

/-- An insertion of a callback is held by its wheel. -/
theorem holds_emplaceAt {type : TimingType} {i second entry : ℕ}
    (h : w.emplaceAt type i (.callback second entry) = some w') : w'.Holds type entry := by
  obtain ⟨hi, -, heq⟩ := emplaceAt_eq h
  have hlen : i < ((w.wheels type).modify i fun slot =>
      slot.emplace (.callback second entry)).length := by
    rw [List.length_modify]
    exact hi
  refine ⟨((w.wheels type).modify i fun slot => slot.emplace (.callback second entry))[i], ?_,
    second, ?_⟩
  · rw [heq, Function.update_self]
    exact List.getElem_mem hlen
  · rw [List.getElem_modify, if_pos rfl]
    exact mem_emplace.2 (.inl rfl)

/-- An insertion is one `emplaceAt`, or refused. -/
theorem insertEntry_cases {delay : BitVec 32} {entry : ℕ}
    (h : w.insertEntry delay entry = some w') :
    (∃ type i p, w.emplaceAt type i p = some w' ∧ (∀ e, p.entry? = some e → e = entry) ∧
      (3600 ≤ delay.toNat → (type = .kTimingTypeHour ∨ type = .kTimingTypeDay) ∧
        ∃ second, p = .callback second entry)) ∨
      ¬ Supported delay ∧ w' = w := by
  have hminute : kTimingMinute = 60 := rfl
  have hhour : kTimingHour = 3600 := rfl
  have hentry : ∀ second e, EntryPtr.entry? (.callback second entry) = some e → e = entry :=
    fun _ _ he => (Option.some.inj he).symm
  unfold TimingWheel.insertEntry at h
  by_cases h1 : delay.toNat < kTimingMinute
  · rw [if_pos h1] at h
    refine .inl ⟨_, _, _, h, fun e he => ?_, fun hle => by omega⟩
    split_ifs at he
    · cases he
    · exact (Option.some.inj he).symm
  rw [if_neg h1] at h
  by_cases h2 : delay.toNat < kTimingHour
  · rw [if_pos h2] at h
    exact .inl ⟨_, _, _, h, hentry _, fun hle => by omega⟩
  rw [if_neg h2] at h
  split_ifs at h with h3 h4
  · exact .inl ⟨_, _, _, h, hentry _, fun _ => ⟨.inl rfl, _, rfl⟩⟩
  · exact .inl ⟨_, _, _, h, hentry _, fun _ => ⟨.inr rfl, _, rfl⟩⟩
  · cases h
    exact .inr ⟨h4, rfl⟩

theorem stalls_of_insertEntry {delay : BitVec 32} {entry e : ℕ}
    (h : w.insertEntry delay entry = some w') (hw : w.Stalls e) : w'.Stalls e := by
  rcases insertEntry_cases h with ⟨type, i, p, hp, -, -⟩ | ⟨-, rfl⟩
  · exact hw.imp (holds_of_emplaceAt hp) (holds_of_emplaceAt hp)
  · exact hw

/-- **A delay of an hour or more goes into the hour wheel or the day wheel.** -/
theorem stalls_insertEntry {delay : BitVec 32} {entry : ℕ}
    (h : w.insertEntry delay entry = some w') (hlong : 3600 ≤ delay.toNat)
    (hsupported : Supported delay) : w'.Stalls entry := by
  rcases insertEntry_cases h with ⟨type, i, p, hp, -, hcallback⟩ | ⟨hno, -⟩
  · obtain ⟨htype, second, rfl⟩ := hcallback hlong
    rcases htype with rfl | rfl
    · exact .inl (holds_emplaceAt hp)
    · exact .inr (holds_emplaceAt hp)
  · exact absurd hsupported hno

theorem tick_insertEntry {delay : BitVec 32} {entry : ℕ}
    (h : w.insertEntry delay entry = some w') : w'.tick = w.tick := by
  rcases insertEntry_cases h with ⟨type, i, p, hp, -, -⟩ | ⟨-, rfl⟩
  · exact (emplaceAt_eq hp).2.1
  · rfl

/-- `PopUp` takes the front slot and puts an empty one at the end. -/
theorem popUp_front {type : TimingType} {front : WheelEntry}
    (h : w.popUp type = some (front, w')) : ∃ rest, w.wheels type = front :: rest ∧
      w' = { w with wheels := Function.update w.wheels type (rest ++ [[]]) } := by
  unfold TimingWheel.popUp at h
  rcases hw : w.wheels type with _ | ⟨slot, rest⟩
  · rw [hw] at h
    cases h
  · rw [hw] at h
    cases h
    exact ⟨rest, rfl, rfl⟩

/-- What `PopUp` does to the wheels. -/
theorem popUp_eq {type : TimingType} {front : WheelEntry} (h : w.popUp type = some (front, w')) :
    w'.tick = w.tick ∧ ∀ type', type' ≠ type → w'.wheels type' = w.wheels type' := by
  obtain ⟨rest, -, rfl⟩ := popUp_front h
  exact ⟨rfl, fun type' hne => Function.update_of_ne hne _ _⟩

/-- `PopUp` of the seconds or the minutes leaves the other wheels. -/
theorem stalls_of_popUp {type : TimingType} {front : WheelEntry} {e : ℕ}
    (h : w.popUp type = some (front, w'))
    (htype : type = .kTimingTypeSecond ∨ type = .kTimingTypeMinute) (hw : w.Stalls e) :
    w'.Stalls e := by
  obtain ⟨-, hsame⟩ := popUp_eq h
  have hhour : w'.wheels .kTimingTypeHour = w.wheels .kTimingTypeHour :=
    hsame _ (by rcases htype with rfl | rfl <;> decide)
  have hday : w'.wheels .kTimingTypeDay = w.wheels .kTimingTypeDay :=
    hsame _ (by rcases htype with rfl | rfl <;> decide)
  unfold Stalls TimingWheel.Holds at hw ⊢
  rwa [hhour, hday]

/-! ## Steps -/

/-- `OnTimer` moves `lastTs_`, and it may be a tick. -/
theorem onTimer_cases (w : TimingWheel) (now : ℤ) :
    (∃ ts, w.onTimer now = ({ w with lastTs := ts }, false)) ∨
      w.onTimer now = ({ w with lastTs := now, tick := (w.tick + 1) % 2 ^ 64 }, true) := by
  unfold TimingWheel.onTimer
  simp only
  generalize (if w.lastTs = 0 then now else w.lastTs) = lastTs
  split_ifs
  · exact .inl ⟨lastTs, rfl⟩
  · exact .inr rfl

/-- What popping a wheel does to a run. -/
theorem pop_eq {type : TimingType} {next : Option TimingType} (h : s.pop type next = some t) :
    s.wheel.popUp type = some (t.released, t.wheel) ∧ t.next = next ∧ t.ticks = s.ticks ∧
      t.accepted = s.accepted ∧ t.pops type = s.pops type + 1 ∧
      ∀ type', type' ≠ type → t.pops type' = s.pops type' := by
  obtain ⟨⟨front, w⟩, hpop, rfl⟩ := Option.map_eq_some_iff.1 h
  exact ⟨hpop, rfl, rfl, rfl, Function.update_self .., fun type' hne =>
    Function.update_of_ne hne _ _⟩

/-- What a step can do: an insertion from outside or by a dropped callback; nothing but a
new `lastTs_` or a dropped reference; a tick; the `PopUp` after the seconds. -/
inductive WheelRun.Move (s : WheelRun) : WheelRun → Prop
  | insert (ps : WheelEntry) {delay : BitVec 32} {entry : ℕ} {t : WheelRun} :
    { s with released := ps }.insert delay entry = some t → Move s t
  | keep (ps : WheelEntry) (ts : ℤ) :
    Move s { s with released := ps, wheel := { s.wheel with lastTs := ts } }
  | tick {w : TimingWheel} {t : WheelRun} : s.Idle → w.wheels = s.wheel.wheels →
    w.tick = (s.wheel.tick + 1) % 2 ^ 64 →
    { s with wheel := w, ticks := s.ticks + 1 }.pop .kTimingTypeSecond (nextWheel w.tick) = some t →
    Move s t
  | pop {type : TimingType} {t : WheelRun} : s.next = some type → s.pop type none = some t →
    Move s t

/-- A call of `OnTimer` waits for the one before, and it may tick. -/
theorem WheelRun.step_onTimer {now : ℤ} (h : s.step (.onTimer now) = some t) : s.Idle ∧
    ((∃ ts, t = { s with wheel := { s.wheel with lastTs := ts } }) ∨
      { s with
        wheel := { s.wheel with lastTs := now, tick := (s.wheel.tick + 1) % 2 ^ 64 }
        ticks := s.ticks + 1 }.pop .kTimingTypeSecond (nextWheel ((s.wheel.tick + 1) % 2 ^ 64)) =
          some t) := by
  simp only [WheelRun.step] at h
  obtain ⟨hidle, h⟩ := Option.ite_none_right_eq_some.1 h
  refine ⟨hidle, ?_⟩
  rcases onTimer_cases s.wheel now with ⟨ts, hts⟩ | hts <;> rw [hts] at h
  · cases h
    exact .inl ⟨ts, rfl⟩
  · exact .inr h

/-- Only a dropped callback acts: it inserts its entry. -/
theorem WheelRun.step_drop {i : ℕ} (h : s.step (.drop i) = some t) :
    ∃ p, s.released[i]? = some p ∧
      ((∀ second entry, p ≠ .callback second entry) ∧
          t = { s with released := s.released.eraseIdx i } ∨
        ∃ second entry, p = .callback second entry ∧
          { s with released := s.released.eraseIdx i }.insert (BitVec.ofNat 32 second) entry =
            some t) := by
  simp only [WheelRun.step] at h
  rcases hp : s.released[i]? with _ | p <;> rw [hp] at h
  · cases h
  refine ⟨p, rfl, ?_⟩
  cases p with
  | null | user e =>
    cases h
    exact .inl ⟨fun _ _ heq => (by cases heq), rfl⟩
  | callback second e => exact .inr ⟨second, e, rfl, h⟩

/-- The next wheel is popped when all references have been dropped. -/
theorem WheelRun.step_popUp (h : s.step .popUp = some t) :
    ∃ type, s.released = [] ∧ s.next = some type ∧ s.pop type none = some t := by
  simp only [WheelRun.step] at h
  rcases hr : s.released with _ | ⟨p, ps⟩ <;> rcases hn : s.next with _ | type <;> rw [hr, hn] at h
  · cases h
  · exact ⟨type, rfl, rfl, h⟩
  · cases h
  · cases h

theorem WheelRun.step_move {e : WheelEvent} (h : s.step e = some t) : s.Move t := by
  cases e with
  | insert delay entry => exact .insert s.released h
  | onTimer now =>
    obtain ⟨hidle, ⟨ts, rfl⟩ | h⟩ := WheelRun.step_onTimer h
    · exact .keep s.released ts
    · exact .tick (w := { s.wheel with lastTs := now, tick := (s.wheel.tick + 1) % 2 ^ 64 })
        hidle rfl rfl h
  | drop i =>
    obtain ⟨p, -, ⟨-, rfl⟩ | ⟨second, e, -, h⟩⟩ := WheelRun.step_drop h
    · exact .keep _ s.wheel.lastTs
    · exact .insert _ h
  | popUp =>
    obtain ⟨type, -, hn, h⟩ := WheelRun.step_popUp h
    exact .pop hn h

/-! ## Runs -/

/-- `tick_` counts the ticks, the minutes are popped once per minute, and the hours and
days never; what has been accepted for an hour or more is in their wheels. -/
structure Stalled (s : WheelRun) : Prop where
  next : s.next = none ∨ s.next = some .kTimingTypeMinute
  tick : s.wheel.tick = s.ticks % 2 ^ 64
  minutes : s.ticks < 2 ^ 64 → s.pops .kTimingTypeMinute +
    (if s.next = some .kTimingTypeMinute then 1 else 0) = s.ticks / 60
  hours : s.pops .kTimingTypeHour = 0
  days : s.pops .kTimingTypeDay = 0
  accepted : ∀ a ∈ s.accepted, 3600 ≤ a.1.toNat → s.wheel.Stalls a.2

theorem Stalled.insert (h : Stalled s) {ps : WheelEntry} {delay : BitVec 32} {entry : ℕ}
    (hs : { s with released := ps }.insert delay entry = some t) : Stalled t := by
  obtain ⟨w, hw, rfl⟩ := Option.map_eq_some_iff.1 hs
  refine ⟨h.next, ?_, h.minutes, h.hours, h.days, ?_⟩
  · exact (tick_insertEntry hw).trans h.tick
  · intro a ha hlong
    simp only at ha
    split_ifs at ha with hsupported
    · rcases List.mem_cons.1 ha with rfl | ha
      · exact stalls_insertEntry hw hlong hsupported
      · exact stalls_of_insertEntry hw (h.accepted a ha hlong)
    · exact stalls_of_insertEntry hw (h.accepted a ha hlong)

/-- A tick: the seconds are popped, and the minutes are next if a minute is full. -/
theorem Stalled.tick_pop (h : Stalled s) (hidle : s.Idle) {w : TimingWheel}
    (hwheels : w.wheels = s.wheel.wheels) (htick : w.tick = (s.wheel.tick + 1) % 2 ^ 64)
    (hs : { s with wheel := w, ticks := s.ticks + 1 }.pop .kTimingTypeSecond (nextWheel w.tick) =
      some t) : Stalled t := by
  obtain ⟨hpop, hnext, hticks, haccepted, -, hpops⟩ := pop_eq hs
  simp only at hpop hticks haccepted hpops
  have hw : w.tick = (s.ticks + 1) % 2 ^ 64 := by rw [htick, h.tick, Nat.mod_add_mod]
  rw [nextWheel_eq] at hnext
  refine ⟨?_, ?_, fun hlt => ?_, ?_, ?_, fun a ha hlong => ?_⟩
  -- the next wheel is that of the minutes, or none
  · rw [hnext]
    split_ifs
    · exact .inr rfl
    · exact .inl rfl
  · rw [(popUp_eq hpop).1, hw, hticks]
  · -- below `2^64` ticks, the multiples of 60 are those of `tick_`
    have hminutes := h.minutes (by omega)
    rw [hidle.2, if_neg (by decide), Nat.add_zero] at hminutes
    rw [Nat.mod_eq_of_lt (by omega)] at hw
    rw [hpops _ (by decide), hminutes, hnext, hticks, hw]
    by_cases h60 : (s.ticks + 1) % 60 = 0
    · rw [if_pos h60, if_pos rfl]
      omega
    · rw [if_neg h60, if_neg (by decide)]
      omega
  · exact (hpops _ (by decide)).trans h.hours
  · exact (hpops _ (by decide)).trans h.days
  · refine stalls_of_popUp hpop (.inl rfl) ?_
    have := h.accepted a (haccepted ▸ ha) hlong
    unfold Stalls TimingWheel.Holds at this ⊢
    rwa [hwheels]

/-- The minute wheel is the only one that is popped after the seconds. -/
theorem Stalled.pop (h : Stalled s) {type : TimingType} (hn : s.next = some type)
    (hs : s.pop type none = some t) : Stalled t := by
  obtain ⟨hpop, hnext, hticks, haccepted, hself, hpops⟩ := pop_eq hs
  have htype : type = .kTimingTypeMinute := by
    rcases h.next with hn' | hn' <;> rw [hn] at hn'
    · cases hn'
    · exact Option.some.inj hn'
  subst htype
  refine ⟨.inl hnext, ?_, fun hlt => ?_, ?_, ?_, fun a ha hlong => ?_⟩
  · rw [(popUp_eq hpop).1, h.tick, hticks]
  · have hminutes := h.minutes (by omega)
    rw [hn, if_pos rfl] at hminutes
    rw [hself, hnext, hticks, if_neg (by decide)]
    exact hminutes
  · exact (hpops _ (by decide)).trans h.hours
  · exact (hpops _ (by decide)).trans h.days
  · exact stalls_of_popUp hpop (.inr rfl) (h.accepted a (haccepted ▸ ha) hlong)

theorem Stalled.move (h : Stalled s) (hs : s.Move t) : Stalled t := by
  cases hs with
  | insert _ hs => exact h.insert hs
  | keep _ _ => exact ⟨h.next, h.tick, h.minutes, h.hours, h.days, h.accepted⟩
  | tick hidle hwheels htick hs => exact h.tick_pop hidle hwheels htick hs
  | pop hn hs => exact h.pop hn hs

theorem Stalled.start : Stalled {} :=
  ⟨.inl rfl, rfl, fun _ => rfl, rfl, rfl, fun _ ha => (List.not_mem_nil ha).elim⟩

/-- **In every run the hour wheel and the day wheel stand still.** -/
theorem run_stalled {es : List WheelEvent} (h : run WheelRun.step {} es = some s) : Stalled s :=
  run_inv Stalled (fun _ _ _ hs he => hs.move (WheelRun.step_move he)) .start h

/-- What has been accepted stays listed. -/
theorem accepted_move {a : BitVec 32 × ℕ} (ha : a ∈ s.accepted) (hs : s.Move t) :
    a ∈ t.accepted := by
  cases hs with
  | insert _ hs =>
    obtain ⟨w, -, rfl⟩ := Option.map_eq_some_iff.1 hs
    simp only
    split_ifs
    · exact List.mem_cons_of_mem _ ha
    · exact ha
  | keep _ _ => exact ha
  | tick _ _ _ hs | pop _ hs =>
    obtain ⟨-, -, -, haccepted, -⟩ := pop_eq hs
    rw [haccepted]
    exact ha

/-- A reference to the entry is still kept. -/
def WheelRun.Keeps (s : WheelRun) (entry : ℕ) : Prop :=
  (∃ type, ∃ slot ∈ s.wheel.wheels type, ∃ p ∈ slot, p.entry? = some entry) ∨
    ∃ p ∈ s.released, p.entry? = some entry

theorem keeps_of_stalls {entry : ℕ} (h : s.wheel.Stalls entry) : s.Keeps entry := by
  rcases h with ⟨slot, hslot, second, hmem⟩ | ⟨slot, hslot, second, hmem⟩ <;>
    exact .inl ⟨_, slot, hslot, _, hmem, rfl⟩

/-- **An accepted delay of an hour or more is kept for good.** -/
theorem Stalled.keeps (h : Stalled s) {a : BitVec 32 × ℕ} (ha : a ∈ s.accepted)
    (hlong : 3600 ≤ a.1.toNat) {es : List WheelEvent} (ht : run WheelRun.step s es = some t) :
    t.Keeps a.2 := by
  obtain ⟨hstalled, ha'⟩ := run_inv (fun t => Stalled t ∧ a ∈ t.accepted)
    (fun _ _ _ hu hv =>
      ⟨hu.1.move (WheelRun.step_move hv), accepted_move hu.2 (WheelRun.step_move hv)⟩)
    ⟨h, ha⟩ ht
  exact keeps_of_stalls (hstalled.accepted a ha' hlong)

/-- The wheels have advanced once per unit, and what has been accepted for an hour or
more can be released, sooner or later. -/
structure WheelRun.Advanced (s : WheelRun) : Prop where
  minutes : s.pops .kTimingTypeMinute = s.ticks / 60
  hours : s.pops .kTimingTypeHour = s.ticks / 3600
  days : s.pops .kTimingTypeDay = s.ticks / 86400
  released : ∀ a ∈ s.accepted, 3600 ≤ a.1.toNat →
    ∃ es t, run WheelRun.step s es = some t ∧ ¬ t.Keeps a.2

/-- **The wheels advance once per unit for less than an hour.** In every state of a run
that is reached between two calls of `OnTimer`. -/
theorem wheels_advance_iff {es : List WheelEvent} (h : run WheelRun.step {} es = some s)
    (hidle : s.Idle) :
    s.Advanced ↔ s.ticks < 3600 ∧ ∀ a ∈ s.accepted, a.1.toNat < 3600 := by
  have hs := run_stalled h
  constructor
  · intro hadv
    refine ⟨?_, fun a ha => ?_⟩
    · by_contra hge
      have := hadv.hours
      rw [hs.hours] at this
      omega
    · by_contra hlong
      obtain ⟨es', t, ht, hfree⟩ := hadv.released a ha (by omega)
      exact hfree (hs.keeps ha (by omega) ht)
  · rintro ⟨hticks, hshort⟩
    refine ⟨?_, ?_, ?_, fun a ha hlong => ?_⟩
    · have := hs.minutes (by omega)
      rwa [hidle.2, if_neg (by decide), Nat.add_zero] at this
    · rw [hs.hours]
      omega
    · rw [hs.days]
      omega
    · have := hshort a ha
      omega

/-- A delay of one hour. -/
theorem wheels_stall : ¬ ∀ es s, run WheelRun.step {} es = some s → s.Idle → s.Advanced := by
  intro h
  obtain ⟨s, hs⟩ : ∃ s, run WheelRun.step {} [.insert 3600 1] = some s := ⟨_, rfl⟩
  have hidle : s.Idle := by
    cases hs
    exact ⟨rfl, rfl⟩
  have ha : (3600, 1) ∈ s.accepted := by
    cases hs
    exact List.mem_cons_self ..
  obtain ⟨es, t, ht, hfree⟩ := (h _ s hs hidle).released (3600, 1) ha (by decide)
  exact hfree ((run_stalled hs).keeps ha (by decide) ht)

/-- A delay of five seconds, and one tick. -/
theorem wheels_advance_second : ∃ s, run WheelRun.step {} [.insert 5 1, .onTimer 1, .onTimer 1001] =
    some s ∧ s.ticks = 1 ∧ s.Advanced := by
  obtain ⟨s, hs⟩ : ∃ s, run WheelRun.step {} [.insert 5 1, .onTimer 1, .onTimer 1001] = some s :=
    ⟨_, rfl⟩
  have hidle : s.Idle ∧ s.ticks = 1 ∧ ∀ a ∈ s.accepted, a.1.toNat < 3600 := by
    cases hs
    decide +kernel
  exact ⟨s, hs, hidle.2.1, (wheels_advance_iff hs hidle.1).2
    ⟨by rw [hidle.2.1]; decide, hidle.2.2⟩⟩

end HttpNest
