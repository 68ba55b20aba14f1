import HttpNest.Proof.Ticking

/-!
# Which slots the wheel accesses

`InsertEntry` computes its slot as a quotient minus one, in unsigned arithmetic (`slotOf`), and
every quotient but that of the seconds is positive: only a delay of zero goes out of range. It
comes from outside, or from a closure in the minute wheel, which inserts what remains of its delay;
the closures in the hour wheel and the day wheel are never released.

`slots_in_range_iff`: with delays of some set all accesses of all runs are in range exactly if none
of them is zero, or a multiple of a minute below an hour.
-/

namespace HttpNest

open EventRun TimingWheel

variable {w w' : TimingWheel} {s t : WheelRun} {entry i : ℕ}

namespace TimingWheel

/-- The slot that `InsertEntry` accesses, if it does not refuse the delay. -/
def slotOf (delay : BitVec 32) : Option (TimingType × ℕ) :=
  if delay.toNat < kTimingMinute then some (.kTimingTypeSecond, (delay - 1).toNat)
  else if delay.toNat < kTimingHour then
    some (.kTimingTypeMinute, delay.toNat / kTimingMinute - 1)
  else if delay.toNat < kTimingDay then some (.kTimingTypeHour, delay.toNat / kTimingHour - 1)
  else if ¬ Supported delay then none
  else some (.kTimingTypeDay, delay.toNat / kTimingDay - 1)

/-- What `InsertEntry` puts into it. -/
def pointerOf (delay : BitVec 32) (entry : ℕ) : EntryPtr :=
  if delay.toNat < kTimingMinute then if delay ≤ 0 then .null else .user entry
  else if delay.toNat < kTimingHour then .callback (delay.toNat % kTimingMinute) entry
  else if delay.toNat < kTimingDay then .callback (delay.toNat % kTimingHour) entry
  else .callback (delay.toNat % kTimingDay) entry

theorem insertEntry_eq (w : TimingWheel) (delay : BitVec 32) (entry : ℕ) :
    w.insertEntry delay entry =
      (slotOf delay).elim (some w) fun a => w.emplaceAt a.1 a.2 (pointerOf delay entry) := by
  unfold insertEntry slotOf pointerOf insertSecondEntry insertMinuteEntry insertHourEntry
    insertDayEntry insertUnitEntry
  split_ifs <;> rfl

/-- **Every delay but zero has a slot of its wheel**, or none. -/
theorem slotOf_lt {delay : BitVec 32} (h : delay ≠ 0) {a : TimingType × ℕ}
    (ha : slotOf delay = some a) : a.2 < size a.1 := by
  have hminute : kTimingMinute = 60 := rfl
  have hhour : kTimingHour = 3600 := rfl
  have hday : kTimingDay = 86400 := rfl
  have hpos : 1 ≤ delay.toNat := by bv_omega
  have hsecond : (delay - 1).toNat = delay.toNat - 1 := by bv_omega
  unfold slotOf at ha
  split_ifs at ha with h1 h2 h3 h4
  · cases ha
    rw [hsecond]
    show delay.toNat - 1 < 60
    omega
  · cases ha
    show delay.toNat / 60 - 1 < 60
    omega
  · cases ha
    show delay.toNat / 3600 - 1 < 24
    omega
  · cases ha
    show delay.toNat / 86400 - 1 < 30
    unfold Supported at h4
    rw [hday] at h4
    omega

end TimingWheel

/-! ## Accesses of a step -/

namespace WheelRun

/-- The slot that a step accesses by its index: that of an insertion, from outside or by a
closure that is dropped. -/
def access (s : WheelRun) : WheelEvent → Option (TimingType × ℕ)
  | .insert delay _ => slotOf delay
  | .drop i =>
    match s.released[i]? with
    | some (.callback second _) => slotOf (BitVec.ofNat 32 second)
    | _ => none
  | .onTimer _ | .popUp => none

/-- What can happen next, where nothing is undefined. -/
def CanHappen (s : WheelRun) : WheelEvent → Prop
  | .insert _ _ => True
  | .onTimer _ => s.Idle
  | .drop i => i < s.released.length
  | .popUp => s.released = [] ∧ s.next ≠ none

/-- The wheels have their sizes, and a step with delays of `D` accesses a slot below the size. -/
structure InRange (D : Set (BitVec 32)) (s : WheelRun) : Prop where
  sizes : Slotted s
  slots : ∀ e, e.Within D → s.CanHappen e → ∀ a, s.access e = some a → a.2 < size a.1

end WheelRun

theorem insert_isSome (hs : Slotted s) {delay : BitVec 32}
    (hslot : ∀ a, slotOf delay = some a → a.2 < size a.1) : (s.insert delay entry).isSome := by
  unfold WheelRun.insert
  rw [Option.isSome_map, insertEntry_eq]
  rcases ha : slotOf delay with _ | a
  · rfl
  · have hlt := hslot a ha
    simp only [Option.elim_some]
    unfold TimingWheel.emplaceAt
    rw [if_pos (by rw [hs a.1]; exact hlt)]
    rfl

/-- **Nothing but an access out of range is undefined.** -/
theorem step_isSome (hs : Slotted s) {e : WheelEvent} (hcan : s.CanHappen e)
    (hslot : ∀ a, s.access e = some a → a.2 < size a.1) : (s.step e).isSome := by
  have hpop : ∀ type, 0 < (s.wheel.wheels type).length := by
    intro type
    rw [hs type]
    cases type <;> decide
  cases e with
  | insert delay entry => exact insert_isSome hs hslot
  | onTimer now => exact tick_isSome (hpop .kTimingTypeSecond) hcan now
  | drop i =>
    simp only [WheelRun.step]
    simp only [WheelRun.access] at hslot
    rcases hp : s.released[i]? with _ | (_ | e | ⟨second, e⟩) <;> rw [hp] at hslot
    · exact absurd (List.getElem?_eq_none_iff.1 hp) (not_le.2 hcan)
    · rfl
    · rfl
    · exact insert_isSome (s := { s with released := s.released.eraseIdx i }) hs hslot
  | popUp =>
    obtain ⟨hreleased, hnext⟩ := hcan
    obtain ⟨type, htype⟩ := Option.ne_none_iff_exists'.1 hnext
    exact next_isSome (hpop type) hreleased htype

/-! ## Delays that keep in range -/

/-- A delay whose insertion, and that of what remains of it, is in range. -/
def FitsWheel (delay : BitVec 32) : Prop :=
  delay ≠ 0 ∧ ¬ (60 ≤ delay.toNat ∧ delay.toNat < 3600 ∧ delay.toNat % 60 = 0)

/-- A second or more remains of what a closure inserts. -/
def EntryPtr.Remains (p : EntryPtr) : Prop :=
  ∀ second entry, p = .callback second entry → 1 ≤ second ∧ second ≤ 59

/-- The closures in the wheels that are popped have a second or more left. -/
structure Remaining (s : WheelRun) : Prop where
  wheels : ∀ type, type = .kTimingTypeSecond ∨ type = .kTimingTypeMinute →
    ∀ slot ∈ s.wheel.wheels type, ∀ p ∈ slot, p.Remains
  released : ∀ p ∈ s.released, p.Remains

theorem remaining_new : Remaining {} := by
  refine ⟨?_, fun p hp => by cases hp⟩
  intro type _ slot hslot p hp
  have hnil : slot = [] := by
    cases type <;> exact (List.mem_replicate.1 hslot).2
  rw [hnil] at hp
  cases hp

/-- What such a delay puts into the seconds wheel or the minute wheel. -/
theorem pointerOf_remains {delay : BitVec 32} (h : FitsWheel delay) {a : TimingType × ℕ}
    (ha : slotOf delay = some a) (htype : a.1 = .kTimingTypeSecond ∨ a.1 = .kTimingTypeMinute) :
    (pointerOf delay entry).Remains := by
  have hminute : kTimingMinute = 60 := rfl
  have hhour : kTimingHour = 3600 := rfl
  unfold slotOf at ha
  unfold pointerOf
  intro second e he
  split_ifs at ha he with h1 h2 h3 h4
  · cases he
    show 1 ≤ delay.toNat % 60 ∧ delay.toNat % 60 ≤ 59
    have := h.2
    omega
  -- the other wheels are not popped
  · cases ha
    rcases htype with hc | hc <;> cases hc
  · cases ha
    rcases htype with hc | hc <;> cases hc

theorem Remaining.insert (h : Remaining s) {delay : BitVec 32} (hfits : FitsWheel delay)
    (ht : s.insert delay entry = some t) : Remaining t := by
  obtain ⟨w, hw, rfl⟩ := Option.map_eq_some_iff.1 ht
  rw [insertEntry_eq] at hw
  rcases ha : slotOf delay with _ | a <;> rw [ha] at hw
  · cases hw
    exact ⟨h.wheels, h.released⟩
  · refine ⟨?_, h.released⟩
    intro type htype slot hslot p hp
    rcases mem_of_emplaceAt hw hslot hp with ⟨slot', hslot', hp'⟩ | ⟨rfl, rfl⟩
    · exact h.wheels type htype slot' hslot' p hp'
    · exact pointerOf_remains hfits ha htype

/-- Popping a wheel releases its first slot. -/
theorem Remaining.pop (h : Remaining s) {type : TimingType} {next : Option TimingType}
    (htype : type = .kTimingTypeSecond ∨ type = .kTimingTypeMinute)
    (ht : s.pop type next = some t) : Remaining t := by
  obtain ⟨rest, hfront, hw⟩ := popUp_front (pop_eq ht).1
  have hold : ∀ slot ∈ t.released :: rest, ∀ p ∈ slot, p.Remains := by
    rw [← hfront]
    exact h.wheels type htype
  refine ⟨?_, hold _ (List.mem_cons_self ..)⟩
  intro type' htype' slot hslot p hp
  rw [hw] at hslot
  by_cases heq : type' = type
  · subst heq
    simp only [Function.update_self] at hslot
    rw [List.mem_append, List.mem_singleton] at hslot
    rcases hslot with hslot | rfl
    · exact hold slot (List.mem_cons_of_mem _ hslot) p hp
    · cases hp
  · simp only [Function.update_of_ne heq] at hslot
    exact h.wheels type' htype' slot hslot p hp

theorem fitsWheel_of_remains {second : ℕ} (h : 1 ≤ second ∧ second ≤ 59) :
    FitsWheel (BitVec.ofNat 32 second) := by
  have hdelay : (BitVec.ofNat 32 second).toNat = second := by
    rw [BitVec.toNat_ofNat, Nat.mod_eq_of_lt (by omega)]
  refine ⟨?_, by omega⟩
  intro hzero
  rw [hzero] at hdelay
  simp at hdelay
  omega

/-- **With such delays the closures always have a second left.** -/
theorem Remaining.step (h : Remaining s) (hc : Counted s) {e : WheelEvent}
    (he : e.Within {delay | FitsWheel delay}) (ht : s.step e = some t) : Remaining t := by
  cases e with
  | insert delay entry => exact h.insert he ht
  | onTimer now =>
    obtain ⟨-, ⟨ts, rfl⟩ | ht⟩ := WheelRun.step_onTimer ht
    · exact ⟨h.wheels, h.released⟩
    · exact Remaining.pop (s := { s with
        wheel := { s.wheel with lastTs := now, tick := (s.wheel.tick + 1) % 2 ^ 64 }
        ticks := s.ticks + 1 }) ⟨h.wheels, h.released⟩ (.inl rfl) ht
  | drop i =>
    have hrest : Remaining { s with released := s.released.eraseIdx i } :=
      ⟨h.wheels, fun p hp => h.released p (List.mem_of_mem_eraseIdx hp)⟩
    obtain ⟨p, hp, ⟨-, rfl⟩ | ⟨second, e, rfl, ht⟩⟩ := WheelRun.step_drop ht
    · exact hrest
    · exact hrest.insert
        (fitsWheel_of_remains (h.released _ (List.mem_of_getElem? hp) second e rfl)) ht
  | popUp =>
    obtain ⟨type, -, hn, ht⟩ := WheelRun.step_popUp ht
    -- nothing but the minute wheel is popped
    rcases hc.next with hno | ⟨hminute, -⟩
    · rw [hn] at hno
      cases hno
    · exact h.pop (.inr (Option.some.inj (hn.symm.trans hminute))) ht

/-- The invariant of the runs with such delays. -/
structure SoundWheel (s : WheelRun) : Prop where
  slotted : Slotted s
  counted : Counted s
  remaining : Remaining s

theorem soundWheel_new : SoundWheel {} := ⟨slotted_new, counted_new, remaining_new⟩

theorem SoundWheel.step (h : SoundWheel s) {e : WheelEvent}
    (he : e.Within {delay | FitsWheel delay}) (ht : s.step e = some t) : SoundWheel t :=
  ⟨h.slotted.step ht, h.counted.step ht, h.remaining.step h.counted he ht⟩

/-- What such a run can do next is in range. -/
theorem SoundWheel.access (h : SoundWheel s) {e : WheelEvent}
    (he : e.Within {delay | FitsWheel delay}) {a : TimingType × ℕ} (ha : s.access e = some a) :
    a.2 < size a.1 := by
  cases e with
  | insert delay entry => exact slotOf_lt he.1 ha
  | onTimer now | popUp => cases ha
  | drop i =>
    simp only [WheelRun.access] at ha
    rcases hp : s.released[i]? with _ | (_ | e | ⟨second, e⟩) <;> rw [hp] at ha
    · cases ha
    · cases ha
    · cases ha
    · have hremains := h.remaining.released _ (List.mem_of_getElem? hp) second e rfl
      exact slotOf_lt (fitsWheel_of_remains hremains).1 ha

theorem SoundWheel.not_jammed (h : SoundWheel s) : ¬ Jammed s := by
  rintro ⟨i, hi, hnone⟩
  have hsome := step_isSome (e := .drop i) h.slotted hi
    fun a ha => h.access (e := .drop i) trivial ha
  rw [hnone] at hsome
  cases hsome

/-! ## Delays that go out of range -/

/-- **A closure with whole minutes comes to its insertion.** -/
theorem leads_jammed (entry : ℕ) {delay : BitVec 32} (h60 : 60 ≤ delay.toNat)
    (h3600 : delay.toNat < 3600) (hzero : delay.toNat % 60 = 0) :
    ∃ t, WheelRun.step {} (.insert delay entry) = some t ∧ Leads t Jammed := by
  obtain ⟨t, ht, hticks, hway⟩ := insert_way slotted_new (new_owns entry) h60 h3600
  have hstep : WheelRun.step {} (.insert delay entry) = some t := ht
  refine ⟨t, hstep, ?_⟩
  obtain ⟨es, u, hes, hu, hend⟩ := exists_tick (slotted_new.step hstep) 3600
  refine ⟨es, u, hes, hu, hend.resolve_right ?_⟩
  rintro ⟨-, hidle, huticks⟩
  -- the closure is on its way all the time, since it has no second to go on with
  obtain ⟨-, hc, hway⟩ := run_inv_of_meets
    (fun s => Slotted s ∧ Counted s ∧ Way entry (delay.toNat % 60) (0 + delay.toNat / 60) s)
    (fun s e s' hs he hs' => by
      refine ⟨hs.1.step hs', hs.2.1.step hs', ?_⟩
      refine (hs.2.2.step hs.1 hs.2.1 (by omega) ?_ hs').resolve_right ?_
      · rintro d rfl
        exact he.elim
      · rintro ⟨-, n, -, hone, -⟩
        omega)
    ⟨slotted_new.step hstep, counted_new.step hstep, hway⟩ (meets_of_forall hes) hu
  have hcount := hc.pops
  rw [hidle.2, if_neg (by decide), huticks, hticks, Nat.add_zero] at hcount
  have hhour : minutes (0 + 3600) = 60 := by decide
  cases hway with
  | minute j hk _ _ =>
    simp only at hhour hcount
    omega
  | released _ _ hrel =>
    rw [hidle.1, refs_nil] at hrel
    cases hrel
  | seconds _ _ hone _ _ => omega

/-- **When all accesses are in range.** The wheels have 60, 60, 24 and 30 slots, and every access
of every run with delays of `D` is below them, exactly if no delay of `D` is zero, or a multiple of
a minute from one minute to 59. -/
theorem slots_in_range_iff (D : Set (BitVec 32)) :
    (∀ es s, (∀ e ∈ es, e.Within D) → run WheelRun.step {} es = some s → s.InRange D) ↔
      ∀ delay ∈ D, FitsWheel delay := by
  constructor
  · intro h delay hdelay
    refine ⟨?_, ?_⟩
    · rintro rfl
      have hrange := (h [] {} (fun _ he => by cases he) rfl).slots (.insert 0 0) hdelay trivial
        (.kTimingTypeSecond, 2 ^ 32 - 1) rfl
      exact absurd hrange (by decide)
    · rintro ⟨h60, h3600, hzero⟩
      obtain ⟨t, ht, es, u, hes, hu, i, hi, hnone⟩ := leads_jammed 0 h60 h3600 hzero
      have hrange := h (.insert delay 0 :: es) u (fun e he => ?_)
        (run_cons_eq_some.2 ⟨t, ht, hu⟩)
      · have hsome := step_isSome (e := .drop i) hrange.sizes hi
          fun a ha => hrange.slots (.drop i) trivial hi a ha
        rw [hnone] at hsome
        cases hsome
      · rcases List.mem_cons.1 he with rfl | he
        · exact hdelay
        · exact within_mono (hes e he)
  · intro h es s hes hs
    have hwithin : ∀ e : WheelEvent, e.Within D → e.Within {delay | FitsWheel delay} := by
      intro e he
      cases e with
      | insert delay entry => exact h delay he
      | onTimer now | drop i | popUp => trivial
    have hsound : SoundWheel s := run_inv_of_meets SoundWheel
      (fun _ _ _ hs he hs' => hs.step he hs') soundWheel_new
      (meets_of_forall fun e he => hwithin e (hes e he)) hs
    exact ⟨hsound.slotted, fun e he _ a ha => hsound.access (hwithin e he) ha⟩

/-- A delay of one minute. -/
theorem slots_out_of_range :
    ¬ ∀ es s, run WheelRun.step {} es = some s → s.InRange Set.univ := by
  intro h
  obtain ⟨t, ht, es, u, hes, hu, i, hi, hnone⟩ :=
    leads_jammed 0 (show 60 ≤ (60 : BitVec 32).toNat by decide) (by decide) (by decide)
  have hrange := h (.insert 60 0 :: es) u (run_cons_eq_some.2 ⟨t, ht, hu⟩)
  have hsome := step_isSome (e := .drop i) hrange.sizes hi
    fun a ha => hrange.slots (.drop i) trivial hi a ha
  rw [hnone] at hsome
  cases hsome

end HttpNest
