import HttpNest.Proof.SecondsWheel
import HttpNest.Spec.Timers

/-!
# Timers below a minute are exact

With delays below a minute all references stay in the seconds wheel (`SecondsOnly`), and a
step keeps what it does not drop (`Kept`). So the one `CallbackEntry` of a schedule is destroyed
in the tick that it is due, a `RunEvery` then makes the next one, and nothing else runs the
callback: `Stage` says which of this holds, and what concerns other callbacks is `Apart` from it.

`timers_exact`: in every run each callback has run in the ticks in which it is due, and in no
others.
-/

namespace HttpNest

open EventRun TimingWheel

variable {w w' : WheelRun} {entry k j : ℕ}

/-! ## Delays -/

/-- A delay below a minute is converted to its whole seconds. -/
theorem toUInt32_second {x : ℚ} (h1 : 1 ≤ x) (h60 : x < 60) :
    ∃ d, toUInt32 x = some d ∧ d.toNat = ⌊x⌋₊ ∧ 1 ≤ d.toNat ∧ d.toNat ≤ 59 := by
  have hlow : 1 ≤ ⌊x⌋₊ := Nat.le_floor (by exact_mod_cast h1)
  have hhigh : ⌊x⌋₊ < 60 := (Nat.floor_lt (by linarith)).2 (by exact_mod_cast h60)
  have htoNat : (BitVec.ofNat 32 ⌊x⌋₊).toNat = ⌊x⌋₊ := by
    rw [BitVec.toNat_ofNat, Nat.mod_eq_of_lt (by omega)]
  refine ⟨_, ?_, htoNat, by omega, by omega⟩
  unfold toUInt32
  rw [if_pos ⟨by linarith, by linarith⟩]

/-! ## The wheel -/

/-- What a step leaves of an entry that it does not drop. -/
structure Kept (entry : ℕ) (w w' : WheelRun) : Prop where
  due : ∀ limit, DueAt entry w limit → DueAt entry w' limit
  owns : w'.owns entry = true → w.owns entry = true

/-- The references that are not dropped are dropped later. -/
theorem dropping_step (h : Seated entry w) {e : WheelEvent}
    (hinsert : ∀ delay, e ≠ .insert delay entry)
    (hdrop : ∀ i, e = .drop i → w.released[i]? ≠ some (.user entry)) (ht : w.step e = some w')
    (hr : Dropping w entry) : Dropping w' entry := by
  cases e with
  | insert delay e =>
    obtain ⟨-, -, hreleased, -⟩ := h.insert_other (fun hn => hinsert delay (by rw [hn])) ht
    unfold Dropping
    rwa [hreleased]
  | drop i =>
    obtain ⟨-, -, -, hother⟩ := h.drop ht
    exact (hother (hdrop i rfl)).2 hr
  | onTimer now => exact absurd hr (not_dropping (WheelRun.step_onTimer ht).1.1)
  | popUp =>
    obtain ⟨type, hnil, -, -⟩ := WheelRun.step_popUp ht
    exact absurd hr (not_dropping hnil)

theorem kept_step (h : Seated entry w) {e : WheelEvent}
    (hinsert : ∀ delay, e ≠ .insert delay entry)
    (hdrop : ∀ i, e = .drop i → w.released[i]? ≠ some (.user entry)) (ht : w.step e = some w') :
    Kept entry w w' := by
  obtain ⟨hseated, hshift⟩ := step_shift h hinsert ht
  refine ⟨?_, hshift.owns h hseated⟩
  intro limit hdue
  exact hdue.keep hshift (dropping_step h hinsert hdrop ht)

/-- What still has a reference is due as before. -/
theorem kept_of_owns (h : Seated entry w) {e : WheelEvent}
    (hinsert : ∀ delay, e ≠ .insert delay entry) (ht : w.step e = some w')
    (hown : w'.owns entry = true) : Kept entry w w' := by
  obtain ⟨hseated, hshift⟩ := step_shift h hinsert ht
  refine ⟨?_, hshift.owns h hseated⟩
  intro limit hdue
  refine (hdue.shift hseated hshift).resolve_right ?_
  rw [hown]
  rintro ⟨hno, -⟩
  cases hno

/-- All references are in the seconds wheel or being dropped. -/
structure SecondsOnly (w : WheelRun) : Prop where
  seated : ∀ entry, Seated entry w
  minutes : (w.wheel.wheels .kTimingTypeMinute).length = 60
  next : w.next = none ∨ w.next = some .kTimingTypeMinute

theorem secondsOnly_new : SecondsOnly {} := ⟨fun _ => seated_new, rfl, .inl rfl⟩

/-- `PopUp` leaves the number of slots. -/
theorem length_popUp {x x' : TimingWheel} {type type' : TimingType} {front : WheelEntry}
    (h : x.popUp type = some (front, x')) :
    (x'.wheels type').length = (x.wheels type').length := by
  obtain ⟨rest, hfront, rfl⟩ := popUp_front h
  by_cases htype : type' = type
  · subst htype
    simp only [Function.update_self]
    rw [hfront, List.length_append, List.length_singleton, List.length_cons]
  · simp only [Function.update_of_ne htype]

/-- A step leaves the number of slots. -/
theorem length_step {e : WheelEvent} (h : w.step e = some w') (type : TimingType) :
    (w'.wheel.wheels type).length = (w.wheel.wheels type).length := by
  cases WheelRun.step_move h with
  | insert ps hinsert =>
    obtain ⟨x, hx, rfl⟩ := Option.map_eq_some_iff.1 hinsert
    rcases insertEntry_cases hx with ⟨type', i, p, hp, -, -⟩ | ⟨-, rfl⟩
    · exact length_emplaceAt hp
    · rfl
  | keep ps ts => rfl
  | tick _ hwheels _ hpop =>
    rw [length_popUp (pop_eq hpop).1]
    simp only
    rw [hwheels]
  | pop _ hpop => exact length_popUp (pop_eq hpop).1

/-- The delays of the insertions stay below a minute. -/
def WheelEvent.Second : WheelEvent → Prop
  | .insert delay _ => 1 ≤ delay.toNat ∧ delay.toNat ≤ 59
  | .onTimer _ | .drop _ | .popUp => True

theorem SecondsOnly.step (h : SecondsOnly w) {e : WheelEvent} (he : e.Second)
    (hw : w.step e = some w') : SecondsOnly w' := by
  refine ⟨?_, (length_step hw _).trans h.minutes, ?_⟩
  · intro entry
    by_cases hself : ∃ delay, e = .insert delay entry
    · obtain ⟨delay, rfl⟩ := hself
      obtain ⟨t, ht, hseated, -⟩ := (h.seated entry).insert_self he.1 he.2
      rw [show w.step (.insert delay entry) = w.insert delay entry from rfl, ht] at hw
      cases hw
      exact hseated
    · exact (step_shift (h.seated entry) (fun delay hd => hself ⟨delay, hd⟩) hw).1
  · cases WheelRun.step_move hw with
    | insert ps hinsert =>
      obtain ⟨x, -, rfl⟩ := Option.map_eq_some_iff.1 hinsert
      exact h.next
    | keep ps ts => exact h.next
    | tick _ _ _ hpop =>
      rw [(pop_eq hpop).2.1, nextWheel_eq]
      split_ifs
      · exact .inr rfl
      · exact .inl rfl
    | pop _ hpop => exact .inl (pop_eq hpop).2.1

/-- A wheel with slots can be popped. -/
theorem pop_isSome {type : TimingType} {next : Option TimingType}
    (h : 0 < (w.wheel.wheels type).length) : (w.pop type next).isSome := by
  unfold WheelRun.pop TimingWheel.popUp
  rw [Option.isSome_map]
  rcases hs : w.wheel.wheels type with _ | ⟨front, rest⟩
  · rw [hs] at h
    cases h
  · rfl

/-- A timer call finds a slot in the seconds wheel. -/
theorem tick_isSome (h : 0 < (w.wheel.wheels .kTimingTypeSecond).length) (hidle : w.Idle)
    (now : ℤ) : (w.step (.onTimer now)).isSome := by
  simp only [WheelRun.step]
  rw [if_pos hidle]
  rcases onTimer_cases w.wheel now with ⟨ts, hts⟩ | hts <;> rw [hts]
  · rfl
  · exact pop_isSome h

theorem next_isSome {type : TimingType} (h : 0 < (w.wheel.wheels type).length)
    (hreleased : w.released = []) (hnext : w.next = some type) : (w.step .popUp).isSome := by
  simp only [WheelRun.step]
  rw [hreleased, hnext]
  exact pop_isSome h

/-- Dropped references are null or entries. -/
theorem SecondsOnly.drop_isSome (h : SecondsOnly w) {i : ℕ} (hi : i < w.released.length) :
    (w.step (.drop i)).isSome := by
  obtain ⟨p, hp⟩ : ∃ p, w.released[i]? = some p := ⟨_, List.getElem?_eq_getElem hi⟩
  simp only [WheelRun.step]
  rw [hp]
  cases p with
  | null | user e => rfl
  | callback second e =>
    have := (h.seated e).released _ (List.mem_of_getElem? hp) rfl
    cases this

/-- Between two wheels of a timer call the next one is there. -/
theorem SecondsOnly.popUp_isSome (h : SecondsOnly w) (hreleased : w.released = [])
    (hnext : w.next ≠ none) : (w.step .popUp).isSome := by
  refine next_isSome ?_ hreleased (h.next.resolve_left hnext)
  rw [h.minutes]
  omega

theorem SecondsOnly.onTimer_isSome (h : SecondsOnly w) (hidle : w.Idle) (now : ℤ) :
    (w.step (.onTimer now)).isSome := by
  refine tick_isSome ?_ hidle now
  rw [(h.seated 0).seconds]
  omega

/-! ## Callbacks -/

namespace Schedule

/-- What `RunAfter` and `RunEvery` make of the callback. -/
def made (c : Schedule) (cb : ℕ) : CallbackEntry :=
  { cb := cb, interval := if c.repeats then some c.delay else none }

/-- The first `j` ticks in which the callback is due. -/
def ticks (c : Schedule) (j : ℕ) : List ℕ :=
  (List.range j).map fun i => c.tick + (i + 1) * ⌊c.delay⌋₊

theorem ticks_succ (c : Schedule) (j : ℕ) :
    c.ticks (j + 1) = c.ticks j ++ [c.tick + (j + 1) * ⌊c.delay⌋₊] := by
  unfold ticks
  rw [List.range_succ, List.map_append, List.map_singleton]

theorem mem_ticks {c : Schedule} {n : ℕ} :
    n ∈ c.ticks j ↔ ∃ i < j, n = c.tick + (i + 1) * ⌊c.delay⌋₊ := by
  unfold ticks
  simp [eq_comm]

end Schedule

namespace TimerRun

variable {s t u : TimerRun} {c : Schedule} {cb : ℕ} {x y : CallbackEntry}

theorem callbackOf_callbackEntry (s : TimerRun) (k : ℕ) :
    s.callbackOf (callbackEntry k) = s.entries[k]? := by
  unfold callbackOf callbackEntry
  rw [if_pos (by omega)]
  congr 1
  omega

theorem callbackOf_eq_some (h : s.callbackOf entry = some x) :
    ∃ k, entry = callbackEntry k ∧ s.entries[k]? = some x := by
  unfold callbackOf at h
  obtain ⟨hodd, h⟩ := Option.ite_none_right_eq_some.1 h
  refine ⟨entry / 2, ?_, h⟩
  unfold callbackEntry
  omega

theorem callbackEntry_inj {k k' : ℕ} (h : callbackEntry k = callbackEntry k') : k = k' := by
  unfold callbackEntry at h
  omega

/-- A `CallbackEntry` of this kind is held by the wheel. -/
def Alive (s : TimerRun) (x : CallbackEntry) (k : ℕ) : Prop :=
  s.entries[k]? = some x ∧ s.wheel.owns (callbackEntry k) = true

/-- A step that concerns other callbacks. -/
structure Apart (x : CallbackEntry) (s t : TimerRun) : Prop where
  entries : ∀ k : ℕ, t.entries[k]? = some x ↔ s.entries[k]? = some x
  kept : ∀ k : ℕ, s.entries[k]? = some x → Kept (callbackEntry k) s.wheel t.wheel
  calls : t.calls = s.calls ∨ x ∉ s.calls ∧ x ∉ t.calls
  ticks : s.wheel.ticks ≤ t.wheel.ticks
  calling : x ∈ s.calls → t.wheel.ticks = s.wheel.ticks
  runs : t.runsOf x.cb = s.runsOf x.cb

/-- What becomes of the callback: the wheel holds the one entry that is due next; its
destructor calls the callback; or `RunAfter` is over. -/
inductive Stage (s : TimerRun) (cb : ℕ) (c : Schedule) (j : ℕ) : Prop
  | waiting (k : ℕ) : (∀ k', Alive s (c.made cb) k' ↔ k' = k) → c.made cb ∉ s.calls →
    DueAt (callbackEntry k) s.wheel (c.tick + (j + 1) * ⌊c.delay⌋₊) →
    (c.repeats = false → j = 0) → Stage s cb c j
  | calling : (∀ k, ¬ Alive s (c.made cb) k) → s.calls = [c.made cb] →
    s.wheel.ticks = c.tick + j * ⌊c.delay⌋₊ → (c.repeats = false → j = 1) → Stage s cb c j
  | done : (∀ k, ¬ Alive s (c.made cb) k) → c.made cb ∉ s.calls → c.repeats = false → j = 1 →
    Stage s cb c j

/-- The callback has run `j` times, in time. -/
structure Tracked (s : TimerRun) (cb : ℕ) (c : Schedule) (j : ℕ) : Prop where
  runs : s.runsOf cb = c.ticks j
  past : c.tick + j * ⌊c.delay⌋₊ ≤ s.wheel.ticks
  stage : Stage s cb c j

/-- **What concerns others leaves a schedule as it is.** -/
theorem Tracked.apart (h : Tracked s cb c j) (ha : Apart (c.made cb) s t)
    (ht : SecondsOnly t.wheel) : Tracked t cb c j := by
  -- nothing is brought back to life
  have halive : ∀ k, Alive t (c.made cb) k → Alive s (c.made cb) k := by
    rintro k ⟨hk, hown⟩
    have hk' := (ha.entries k).1 hk
    exact ⟨hk', (ha.kept k hk').owns hown⟩
  refine ⟨ha.runs.trans h.runs, h.past.trans ha.ticks, ?_⟩
  cases h.stage with
  | waiting k halone hcalls hdue hj =>
    have hk : s.entries[k]? = some (c.made cb) := ((halone k).2 rfl).1
    have hdue' := (ha.kept k hk).due _ hdue
    refine .waiting k ?_ ?_ hdue' hj
    · intro k'
      refine ⟨fun hk' => (halone k').1 (halive k' hk'), ?_⟩
      rintro rfl
      exact ⟨(ha.entries k').2 hk, hdue'.owns (ht.seated _)⟩
    · rcases ha.calls with heq | ⟨-, hno⟩
      · rwa [heq]
      · exact hno
  | calling hdead hcalls hticks hj =>
    have hmem : c.made cb ∈ s.calls := by rw [hcalls]; exact List.mem_singleton_self _
    have heq := ha.calls.resolve_right fun hno => hno.1 hmem
    exact .calling (fun k hk => hdead k (halive k hk)) (heq.trans hcalls)
      ((ha.calling hmem).trans hticks) hj
  | done hdead hcalls hrepeats hj =>
    refine .done (fun k hk => hdead k (halive k hk)) ?_ hrepeats hj
    rcases ha.calls with heq | ⟨-, hno⟩
    · rwa [heq]
    · exact hno

/-! ## The operations -/

/-- The wheel holds 60 seconds of references, and every `CallbackEntry` belongs to a schedule. -/
structure Booked (s : TimerRun) : Prop where
  wheel : SecondsOnly s.wheel
  fresh : ∀ k, s.entries.length ≤ k → s.wheel.owns (callbackEntry k) = false
  calls : s.calls.length ≤ 1
  known : ∀ y, y ∈ s.entries ∨ y ∈ s.calls → ∃ c, s.schedules[y.cb]? = some c ∧ y = c.made y.cb
  ran : ∀ r ∈ s.runs, r.1 < s.schedules.length
  second : ∀ c ∈ s.schedules, 1 ≤ c.delay ∧ c.delay < 60

theorem booked_new : Booked {} := by
  refine ⟨secondsOnly_new, fun k _ => new_owns _, by decide, ?_, ?_, ?_⟩
  · rintro y (hy | hy) <;> cases hy
  · intro r hr
    cases hr
  · intro c hc
    cases hc

/-- What `insertCallback` does with a delay below a minute. -/
structure Inserted (s : TimerRun) (delay : ℚ) (y : CallbackEntry) (t : TimerRun) : Prop where
  entries : t.entries = s.entries ++ [y]
  calls : t.calls = s.calls
  schedules : t.schedules = s.schedules
  runs : t.runs = s.runs
  ticks : t.wheel.ticks = s.wheel.ticks
  wheel : SecondsOnly t.wheel
  due : DueAt (callbackEntry s.entries.length) t.wheel (s.wheel.ticks + ⌊delay⌋₊)
  kept : ∀ entry, entry ≠ callbackEntry s.entries.length → Kept entry s.wheel t.wheel

/-- **The entry is in the wheel when `cbEntry` goes.** -/
theorem Booked.insertCallback (h : Booked s) {delay : ℚ} (h1 : 1 ≤ delay) (h60 : delay < 60)
    (y : CallbackEntry) : ∃ t, s.insertCallback delay y = some t ∧ Inserted s delay y t := by
  obtain ⟨d, hd, hfloor, hd1, hd59⟩ := toUInt32_second h1 h60
  have hseated := h.wheel.seated (callbackEntry s.entries.length)
  -- the number is new, so no slot refers to it
  have hearly : ∀ i, HeldAt s.wheel.wheel (callbackEntry s.entries.length) i →
      s.wheel.ticks + i + 1 ≤ s.wheel.ticks + ⌊delay⌋₊ := by
    intro i hi
    have hown := hseated.owns_iff.2 (.inl ⟨i, hi⟩)
    rw [h.fresh _ le_rfl] at hown
    cases hown
  obtain ⟨w, hw, hseated', hticks, hdue⟩ :=
    DueAt.insert_self hseated hearly hd1 hd59 (by rw [hfloor])
  have hown := hdue.owns hseated'
  refine ⟨{ s with wheel := w, entries := s.entries ++ [y] }, ?_, rfl, rfl, rfl, rfl, hticks,
    h.wheel.step (e := .insert d _) ⟨hd1, hd59⟩ hw, hdue, ?_⟩
  · unfold TimerRun.insertCallback release
    rw [hd, Option.bind_some, hw, Option.map_some]
    simp only [hown, if_true]
  · intro entry hne
    refine kept_step (h.wheel.seated entry) (e := .insert d _) ?_ (fun _ he => by cases he) hw
    intro delay he
    cases he
    exact hne rfl

theorem Booked.inserted (h : Booked s) {delay : ℚ} (ht : Inserted s delay y t)
    (hy : ∃ c, s.schedules[y.cb]? = some c ∧ y = c.made y.cb) : Booked t := by
  refine ⟨ht.wheel, ?_, ?_, ?_, ?_, ?_⟩
  · intro k hk
    rw [ht.entries, List.length_append, List.length_singleton] at hk
    have hne : callbackEntry k ≠ callbackEntry s.entries.length := by
      unfold callbackEntry
      omega
    have hno := h.fresh k (by omega)
    rw [← Bool.not_eq_true] at hno ⊢
    exact fun hown => hno ((ht.kept _ hne).owns hown)
  · rw [ht.calls]
    exact h.calls
  · intro y' hy'
    rw [ht.entries, List.mem_append, List.mem_singleton, ht.calls] at hy'
    rw [ht.schedules]
    rcases hy' with (hy' | rfl) | hy'
    · exact h.known y' (.inl hy')
    · exact hy
    · exact h.known y' (.inr hy')
  · rw [ht.runs, ht.schedules]
    exact h.ran
  · rw [ht.schedules]
    exact h.second

/-- An older `CallbackEntry` has another number. -/
theorem getElem?_ne_length {l : List CallbackEntry} (h : l[k]? = some x) :
    callbackEntry k ≠ callbackEntry l.length := by
  obtain ⟨hlt, -⟩ := List.getElem?_eq_some_iff.1 h
  unfold callbackEntry
  omega

/-- **An insertion concerns no other callback.** -/
theorem Inserted.apart {delay : ℚ} (ht : Inserted s delay y t) (hne : x ≠ y) : Apart x s t := by
  refine ⟨?_, fun k hk => ht.kept _ (getElem?_ne_length hk), .inl ht.calls, ht.ticks.ge,
    fun _ => ht.ticks, ?_⟩
  · intro k
    rw [ht.entries]
    rcases lt_trichotomy k s.entries.length with hlt | rfl | hgt
    · rw [List.getElem?_append_left hlt]
    · rw [List.getElem?_concat_length, List.getElem?_eq_none le_rfl]
      refine iff_of_false ?_ (by simp)
      intro heq
      exact hne (Option.some.inj heq).symm
    · rw [List.getElem?_eq_none (by simp; omega), List.getElem?_eq_none hgt.le]
  · unfold runsOf
    rw [ht.runs]

/-- **The new entry is the only one of its schedule, if there is none before.** -/
theorem Inserted.alive_iff {delay : ℚ} (ht : Inserted s delay y t) (hdead : ∀ k, ¬ Alive s y k)
    {k : ℕ} : Alive t y k ↔ k = s.entries.length := by
  constructor
  · rintro ⟨hk, hown⟩
    rw [ht.entries] at hk
    rcases lt_trichotomy k s.entries.length with hlt | heq | hgt
    · rw [List.getElem?_append_left hlt] at hk
      exact absurd ⟨hk, (ht.kept _ (getElem?_ne_length hk)).owns hown⟩ (hdead k)
    · exact heq
    · rw [List.getElem?_eq_none (by simp; omega)] at hk
      cases hk
  · rintro rfl
    refine ⟨?_, ht.due.owns (ht.wheel.seated _)⟩
    rw [ht.entries, List.getElem?_concat_length]

/-- What the destructor of `tmp` does: the last reference destroys a `CallbackEntry`. -/
theorem drop_cases {i : ℕ} (hs : SecondsOnly s.wheel) (ht : s.drop i = some t) :
    ∃ p w, s.wheel.released[i]? = some p ∧ s.wheel.step (.drop i) = some w ∧
      ((∃ k y, p = .user (callbackEntry k) ∧ s.entries[k]? = some y ∧
        w.owns (callbackEntry k) = false ∧ t = { s with wheel := w }.destroy y) ∨
      (∀ k y, p = .user (callbackEntry k) → s.entries[k]? = some y →
        w.owns (callbackEntry k) = true) ∧ t = { s with wheel := w }) := by
  obtain ⟨p, hp, ht⟩ := Option.bind_eq_some_iff.1 ht
  obtain ⟨t', ht', rfl⟩ := Option.map_eq_some_iff.1 ht
  obtain ⟨w, hw, rfl⟩ := Option.map_eq_some_iff.1 ht'
  refine ⟨p, w, hp, hw, ?_⟩
  have hrel := List.mem_of_getElem? hp
  rcases p with _ | e | ⟨second, e⟩
  -- a null pointer refers to nothing, and no callback of the wheel is among the references
  · refine .inr ⟨?_, rfl⟩
    intro k y heq
    cases heq
  · simp only [EntryPtr.entry?, release]
    by_cases hown : w.owns e = true
    · rw [if_pos hown]
      refine .inr ⟨?_, rfl⟩
      intro k y heq _
      cases heq
      exact hown
    rw [if_neg hown]
    rw [Bool.not_eq_true] at hown
    rcases hy : ({ s with wheel := w } : TimerRun).callbackOf e with _ | y
    · refine .inr ⟨?_, rfl⟩
      intro k y heq hk
      cases heq
      rw [callbackOf_callbackEntry] at hy
      exact absurd (hk.symm.trans hy) (by simp)
    · obtain ⟨k, rfl, hk⟩ := callbackOf_eq_some hy
      exact .inl ⟨k, y, rfl, hk, hown, rfl⟩
  · have := (hs.seated e).released _ hrel rfl
    cases this

/-! ## Steps -/

/-- A step of the wheel that destroys no entry of this kind. -/
theorem Booked.apart_wheel (h : Booked s) {e : WheelEvent}
    (hinsert : ∀ delay k, e ≠ .insert delay (callbackEntry k)) (hw : s.wheel.step e = some w)
    (hkept : ∀ k : ℕ, s.entries[k]? = some x → Kept (callbackEntry k) s.wheel w)
    (hcalls : x ∈ s.calls → w.ticks = s.wheel.ticks) : Apart x s { s with wheel := w } :=
  ⟨fun _ => .rfl, hkept, .inl rfl, (step_shift (h.wheel.seated (callbackEntry 0))
    (fun delay => hinsert delay 0) hw).2.ticks_le, hcalls, rfl⟩

theorem Booked.wheel_step (h : Booked s) {e : WheelEvent} (he : e.Second)
    (hinsert : ∀ delay k, e ≠ .insert delay (callbackEntry k)) (hw : s.wheel.step e = some w) :
    Booked { s with wheel := w } := by
  refine ⟨h.wheel.step he hw, ?_, h.calls, h.known, h.ran, h.second⟩
  intro k hk
  obtain ⟨hseated, hshift⟩ :=
    step_shift (h.wheel.seated (callbackEntry k)) (fun delay => hinsert delay k) hw
  have hno := h.fresh k hk
  rw [← Bool.not_eq_true] at hno ⊢
  exact fun hown => hno (hshift.owns (h.wheel.seated _) hseated hown)

/-- The destructor of a `CallbackEntry` calls `cb_`. -/
theorem Booked.destroy (h : Booked s) (hcalls : s.calls = []) (hy : y ∈ s.entries) :
    Booked (s.destroy y) := by
  refine ⟨h.wheel, h.fresh, ?_, ?_, ?_, h.second⟩
  · unfold TimerRun.destroy
    rw [hcalls]
    exact le_rfl
  · rintro y' (hy' | hy')
    · exact h.known y' (.inl hy')
    · unfold TimerRun.destroy at hy'
      rw [hcalls] at hy'
      rw [List.mem_singleton.1 hy']
      exact h.known y (.inl hy)
  · intro r hr
    rcases List.mem_append.1 hr with hr | hr
    · exact h.ran r hr
    · obtain ⟨c, hc, -⟩ := h.known y (.inl hy)
      rw [List.mem_singleton.1 hr]
      exact (List.getElem?_eq_some_iff.1 hc).1

/-- Entries of one callback are alike. -/
theorem Booked.eq_made (h : Booked s) (hy : y ∈ s.entries ∨ y ∈ s.calls)
    (hc : s.schedules[cb]? = some c) (hcb : y.cb = cb) : y = c.made cb := by
  obtain ⟨c', hc', hmade⟩ := h.known y hy
  rw [hcb] at hc' hmade
  cases hc.symm.trans hc'
  exact hmade

theorem runsOf_destroy (s : TimerRun) (y : CallbackEntry) (cb : ℕ) :
    (s.destroy y).runsOf cb = s.runsOf cb ++ if y.cb = cb then [s.wheel.ticks] else [] := by
  unfold runsOf TimerRun.destroy
  rw [List.filter_append, List.map_append]
  by_cases hcb : y.cb = cb
  · rw [if_pos hcb, List.filter_cons_of_pos (by simpa using hcb)]
    rfl
  · rw [if_neg hcb, List.filter_cons_of_neg (by simpa using hcb)]
    rfl

/-- A destructor runs no other callback. -/
theorem Apart.destroy (h : Apart x s { s with wheel := w }) (hcalls : s.calls = [])
    (hcb : y.cb ≠ x.cb) : Apart x s ({ s with wheel := w }.destroy y) := by
  refine ⟨h.entries, h.kept, .inr ⟨?_, ?_⟩, h.ticks, h.calling, ?_⟩
  · rw [hcalls]
    exact List.not_mem_nil
  · unfold TimerRun.destroy
    rw [hcalls, List.mem_singleton]
    rintro rfl
    exact hcb rfl
  · rw [runsOf_destroy, if_neg hcb, List.append_nil]
    rfl

theorem apart_schedule (s : TimerRun) (delay : ℚ) (repeats : Bool) :
    Apart x s (s.schedule delay repeats) :=
  ⟨fun _ => .rfl, fun _ _ => ⟨fun _ h => h, fun h => h⟩, .inl rfl, le_rfl, fun _ => rfl, rfl⟩

/-- Other callbacks return. -/
theorem apart_returns (hx : x ∉ s.calls) : Apart x s { s with calls := [] } :=
  ⟨fun _ => .rfl, fun _ _ => ⟨fun _ h => h, fun h => h⟩, .inr ⟨hx, List.not_mem_nil⟩, le_rfl,
    fun _ => rfl, rfl⟩

/-- The invariant of the timers. -/
structure Timely (s : TimerRun) : Prop where
  booked : Booked s
  tracked : ∀ cb c, s.schedules[cb]? = some c → ∃ j, Tracked s cb c j

theorem timely_new : Timely {} := ⟨booked_new, fun _ _ hc => by cases hc⟩

theorem Booked.schedule (h : Booked s) {delay : ℚ} (h1 : 1 ≤ delay) (h60 : delay < 60)
    (repeats : Bool) : Booked (s.schedule delay repeats) := by
  refine ⟨h.wheel, h.fresh, h.calls, ?_, ?_, ?_⟩
  · intro y hy
    obtain ⟨c, hc, hmade⟩ := h.known y hy
    refine ⟨c, ?_, hmade⟩
    rw [TimerRun.schedule, List.getElem?_append_left (List.getElem?_eq_some_iff.1 hc).1]
    exact hc
  · intro r hr
    unfold TimerRun.schedule
    rw [List.length_append]
    exact Nat.lt_add_right _ (h.ran r hr)
  · intro c hc
    rcases List.mem_append.1 hc with hc | hc
    · exact h.second c hc
    · rw [List.mem_singleton.1 hc]
      exact ⟨h1, h60⟩

theorem Booked.returns (h : Booked s) : Booked { s with calls := [] } := by
  refine ⟨h.wheel, h.fresh, Nat.zero_le _, ?_, h.ran, h.second⟩
  rintro y (hy | hy)
  · exact h.known y (.inl hy)
  · cases hy

/-- **A new schedule waits for its first tick.** -/
theorem Timely.schedule (h : Timely s) {delay : ℚ} (h1 : 1 ≤ delay) (h60 : delay < 60)
    (repeats : Bool) (hy : y = Schedule.made ⟨s.wheel.ticks, delay, repeats⟩ s.schedules.length)
    (ht : (s.schedule delay repeats).insertCallback delay y = some t) : Timely t := by
  have hycb : y.cb = s.schedules.length := by rw [hy]; rfl
  -- no earlier entry has the number of the new callback
  have hnew : ∀ y' c, s.schedules[y'.cb]? = some c → y' ≠ y := by
    rintro y' c hc rfl
    rw [hycb, List.getElem?_eq_none le_rfl] at hc
    cases hc
  have hbooked := h.booked.schedule h1 h60 repeats
  obtain ⟨t', ht', hinserted⟩ := hbooked.insertCallback h1 h60 y
  cases ht.symm.trans ht'
  have hlast : (s.schedule delay repeats).schedules[s.schedules.length]? =
      some ⟨s.wheel.ticks, delay, repeats⟩ := List.getElem?_concat_length
  refine ⟨hbooked.inserted hinserted ⟨_, by rw [hycb]; exact hlast, by rw [hycb]; exact hy⟩, ?_⟩
  intro cb c hc
  rw [hinserted.schedules] at hc
  rcases lt_or_ge cb s.schedules.length with hlt | hge
  -- the schedules before
  · have hc' : s.schedules[cb]? = some c := by
      rwa [TimerRun.schedule, List.getElem?_append_left hlt] at hc
    obtain ⟨j, hj⟩ := h.tracked cb c hc'
    exact ⟨j, (hj.apart (apart_schedule s delay repeats) hbooked.wheel).apart
      (hinserted.apart (hnew (c.made cb) c hc')) hinserted.wheel⟩
  · have hcb : cb = s.schedules.length := by
      obtain ⟨hlt, -⟩ := List.getElem?_eq_some_iff.1 hc
      unfold TimerRun.schedule at hlt
      rw [List.length_append, List.length_singleton] at hlt
      omega
    subst hcb
    cases hlast.symm.trans hc
    have hdead : ∀ k, ¬ Alive (s.schedule delay repeats) y k := by
      rintro k ⟨hk, -⟩
      obtain ⟨c, hc, -⟩ := h.booked.known y (.inl (List.mem_of_getElem? hk))
      exact hnew y c hc rfl
    refine ⟨0, ?_, ?_, .waiting s.entries.length (fun k' => ?_) ?_ ?_ fun _ => rfl⟩
    -- it has not run
    · unfold runsOf
      rw [hinserted.runs, List.map_eq_nil_iff.2 (List.filter_eq_nil_iff.2 ?_)]
      · rfl
      · intro r hr heq
        exact absurd (h.booked.ran r hr) (by rw [of_decide_eq_true heq]; exact lt_irrefl _)
    · rw [hinserted.ticks]
      simp [TimerRun.schedule]
    · rw [← hy]
      exact hinserted.alive_iff hdead
    · rw [← hy, hinserted.calls]
      intro hmem
      obtain ⟨c, hc, -⟩ := h.booked.known y (.inr hmem)
      exact hnew y c hc rfl
    · have hdue := hinserted.due
      rw [Nat.zero_add, Nat.one_mul]
      exact hdue

/-- While its destructor is running there is no other entry of a schedule. -/
theorem Tracked.of_calling (h : Tracked s cb c j) (hmem : c.made cb ∈ s.calls) :
    (∀ k, ¬ Alive s (c.made cb) k) ∧ s.wheel.ticks = c.tick + j * ⌊c.delay⌋₊ ∧
      (c.repeats = false → j = 1) := by
  cases h.stage with
  | waiting _ _ hno _ _ => exact absurd hmem hno
  | calling hdead _ hticks hj => exact ⟨hdead, hticks, hj⟩
  | done _ hno _ _ => exact absurd hmem hno

/-- `RunEvery` puts in the entry that is due an interval later. -/
theorem Tracked.again (h : Tracked s cb c j) (hmem : c.made cb ∈ s.calls)
    (hrepeats : c.repeats = true)
    (ht : Inserted { s with calls := [] } c.delay (c.made cb) t) : Tracked t cb c j := by
  obtain ⟨hdead, hticks, -⟩ := h.of_calling hmem
  refine ⟨?_, ?_, .waiting s.entries.length (fun k => ht.alive_iff hdead) ?_ ?_ ?_⟩
  · unfold runsOf
    rw [ht.runs]
    exact h.runs
  · rw [ht.ticks]
    exact h.past
  · rw [ht.calls]
    exact List.not_mem_nil
  · have hdue := ht.due
    simp only [hticks] at hdue
    rwa [Nat.add_assoc, ← Nat.succ_mul] at hdue
  · intro hno
    rw [hrepeats] at hno
    cases hno

/-- `RunAfter` is over. -/
theorem Tracked.over (h : Tracked s cb c j) (hmem : c.made cb ∈ s.calls)
    (hrepeats : c.repeats = false) : Tracked { s with calls := [] } cb c j := by
  obtain ⟨hdead, -, hj⟩ := h.of_calling hmem
  exact ⟨h.runs, h.past, .done hdead List.not_mem_nil hrepeats (hj hrepeats)⟩

/-- **Behind the callback of `RunEvery` the next one waits; that of `RunAfter` is over.** -/
theorem Timely.returns (h : Timely s) (ht : s.cbReturns = some t) : Timely t := by
  unfold TimerRun.cbReturns at ht
  rcases hcalls : s.calls with _ | ⟨y, rest⟩ <;> rw [hcalls] at ht
  · cases ht
  have hlen := h.booked.calls
  rw [hcalls] at hlen
  have hrest : rest = [] := List.length_eq_zero_iff.1 (by simpa using hlen)
  subst hrest
  have hmem : y ∈ s.calls := by rw [hcalls]; exact List.mem_singleton_self _
  obtain ⟨c', hc', hy⟩ := h.booked.known y (.inr hmem)
  obtain ⟨h1, h60⟩ := h.booked.second c' (List.mem_of_getElem? hc')
  have hbooked := h.booked.returns
  -- the callbacks of other schedules are not concerned
  have hother : ∀ cb c j, Tracked s cb c j → c.made cb ≠ y →
      Tracked { s with calls := [] } cb c j := by
    intro cb c j hj hne
    refine hj.apart (apart_returns ?_) hbooked.wheel
    rw [hcalls, List.mem_singleton]
    exact hne
  simp only at ht
  by_cases hrepeats : c'.repeats = true
  · have hinterval : y.interval = some c'.delay := by
      rw [hy, Schedule.made, if_pos hrepeats]
    rw [hinterval] at ht
    simp only [TimerRun.runEvery] at ht
    have heta : ({ cb := y.cb, interval := some c'.delay } : CallbackEntry) = y := by
      rw [← hinterval]
    rw [heta] at ht
    obtain ⟨t', ht', hinserted⟩ := hbooked.insertCallback h1 h60 y
    cases ht.symm.trans ht'
    refine ⟨hbooked.inserted hinserted ⟨c', hc', hy⟩, ?_⟩
    intro cb c hc
    rw [hinserted.schedules] at hc
    obtain ⟨j, hj⟩ := h.tracked cb c hc
    by_cases hne : c.made cb = y
    · subst hne
      cases hc.symm.trans hc'
      exact ⟨j, hj.again hmem hrepeats hinserted⟩
    · exact ⟨j, (hother cb c j hj hne).apart (hinserted.apart hne) hinserted.wheel⟩
  · have hinterval : y.interval = none := by
      rw [hy, Schedule.made, if_neg hrepeats]
    rw [hinterval] at ht
    cases ht
    refine ⟨hbooked, ?_⟩
    intro cb c hc
    obtain ⟨j, hj⟩ := h.tracked cb c hc
    by_cases hne : c.made cb = y
    · subst hne
      cases hc.symm.trans hc'
      exact ⟨j, hj.over hmem (by simpa using hrepeats)⟩
    · exact ⟨j, hother cb c j hj hne⟩

/-- Insertions by others, ticks, and the wheels that are popped behind them. -/
theorem Timely.wheelStep (h : Timely s) {e : WheelEvent} (he : e.Second)
    (hinsert : ∀ delay k, e ≠ .insert delay (callbackEntry k)) (hdrop : ∀ i, e ≠ .drop i)
    (hticks : ∀ w, s.calls ≠ [] → s.wheel.step e = some w → w.ticks = s.wheel.ticks)
    (ht : s.wheelStep e = some t) : Timely t := by
  obtain ⟨w, hw, rfl⟩ := Option.map_eq_some_iff.1 ht
  refine ⟨h.booked.wheel_step he hinsert hw, ?_⟩
  intro cb c hc
  obtain ⟨j, hj⟩ := h.tracked cb c hc
  refine ⟨j, hj.apart (h.booked.apart_wheel hinsert hw ?_ ?_) (h.booked.wheel.step he hw)⟩
  · intro k _
    exact kept_step (h.booked.wheel.seated _) (fun delay => hinsert delay k)
      (fun i hi => absurd hi (hdrop i)) hw
  · intro hmem
    exact hticks w (List.ne_nil_of_mem hmem) hw

/-- **The last reference is dropped in the tick that the entry is due.** -/
theorem Tracked.called (h : Tracked s cb c j) (hs : SecondsOnly s.wheel) (hcalls : s.calls = [])
    {i : ℕ} (hw : s.wheel.step (.drop i) = some w) (hk : s.entries[k]? = some (c.made cb))
    (hown : s.wheel.owns (callbackEntry k) = true)
    (hgone : w.owns (callbackEntry k) = false) :
    Tracked ({ s with wheel := w }.destroy (c.made cb)) cb c (j + 1) := by
  have hshift : ∀ k, Seated (callbackEntry k) w ∧ Shift (callbackEntry k) s.wheel w :=
    fun k => step_shift (hs.seated _) (fun _ he => by cases he) hw
  cases h.stage with
  | calling hdead _ _ _ | done hdead _ _ _ => exact absurd ⟨hk, hown⟩ (hdead k)
  | waiting k' halone hno hdue hj =>
    obtain rfl := (halone k).1 ⟨hk, hown⟩
    have hlimit : w.ticks = c.tick + (j + 1) * ⌊c.delay⌋₊ := by
      rcases hdue.shift (hshift k).1 (hshift k).2 with hdue' | ⟨-, hlimit⟩
      · rw [hdue'.owns (hshift k).1] at hgone
        cases hgone
      · exact hlimit
    refine ⟨?_, hlimit.ge, .calling ?_ ?_ hlimit ?_⟩
    · rw [runsOf_destroy, if_pos (show (c.made cb).cb = cb from rfl), Schedule.ticks_succ, ← hlimit,
        ← h.runs]
      rfl
    -- no other entry has come to life
    · rintro k' ⟨hk', hown'⟩
      have := (halone k').1 ⟨hk', (hshift k').2.owns (hs.seated _) (hshift k').1 hown'⟩
      subst this
      exact absurd (hown'.symm.trans hgone) (by decide)
    · unfold TimerRun.destroy
      rw [hcalls]
    · intro hrepeats
      rw [hj hrepeats]

/-- Dropping a reference runs the callback, or concerns others. -/
theorem Tracked.drop (h : Tracked s cb c j) (hs : Booked s) (hcalls : s.calls = []) {i : ℕ}
    (hc : s.schedules[cb]? = some c) (ht : s.drop i = some t) : ∃ j', Tracked t cb c j' := by
  obtain ⟨p, w, hp, hw, hcases⟩ := drop_cases hs.wheel ht
  have hwheel : SecondsOnly w := hs.wheel.step (e := .drop i) trivial hw
  -- entries that are not dropped, or not for the last time
  have hapart : (∀ k, s.entries[k]? = some (c.made cb) → p = .user (callbackEntry k) →
      w.owns (callbackEntry k) = true) → Apart (c.made cb) s { s with wheel := w } := by
    intro hkeep
    refine hs.apart_wheel (fun _ _ he => by cases he) hw ?_ (by simp [hcalls])
    intro k hk
    by_cases hpk : p = .user (callbackEntry k)
    · exact kept_of_owns (hs.wheel.seated _) (fun _ he => by cases he) hw (hkeep k hk hpk)
    · refine kept_step (hs.wheel.seated _) (fun _ he => by cases he) ?_ hw
      rintro i' he heq
      cases he
      exact hpk (Option.some.inj (hp.symm.trans heq))
  rcases hcases with ⟨k, y, hpk, hk, hgone, rfl⟩ | ⟨hkeep, rfl⟩
  · by_cases hcb : y.cb = cb
    · obtain rfl := hs.eq_made (.inl (List.mem_of_getElem? hk)) hc hcb
      subst hpk
      exact ⟨j + 1, h.called hs.wheel hcalls hw hk
        ((hs.wheel.seated _).owns_iff.2 (.inr (List.mem_of_getElem? hp))) hgone⟩
    · refine ⟨j, h.apart ((hapart ?_).destroy hcalls hcb) hwheel⟩
      intro k' hk' hpk'
      -- one pointer is no reference to two entries
      rw [hpk] at hpk'
      obtain rfl := callbackEntry_inj (EntryPtr.user.inj hpk')
      obtain rfl := Option.some.inj (hk.symm.trans hk')
      exact absurd rfl hcb
  · exact ⟨j, h.apart (hapart fun k hk hpk => hkeep k _ hpk hk) hwheel⟩

theorem Timely.drop (h : Timely s) (hcalls : s.calls = []) {i : ℕ} (ht : s.drop i = some t) :
    Timely t := by
  obtain ⟨p, w, hp, hw, hcases⟩ := drop_cases h.booked.wheel ht
  have hbooked := h.booked.wheel_step (e := .drop i) trivial (fun _ _ he => by cases he) hw
  have hsame : t.schedules = s.schedules := by
    rcases hcases with ⟨k, y, -, -, -, rfl⟩ | ⟨-, rfl⟩ <;> rfl
  refine ⟨?_, ?_⟩
  · rcases hcases with ⟨k, y, -, hk, -, rfl⟩ | ⟨-, rfl⟩
    · exact hbooked.destroy hcalls (List.mem_of_getElem? hk)
    · exact hbooked
  · intro cb c hc
    rw [hsame] at hc
    obtain ⟨j, hj⟩ := h.tracked cb c hc
    exact hj.drop h.booked hcalls hc ht

theorem callbackEntry_ne_other (k e : ℕ) : otherEntry e ≠ callbackEntry k := by
  unfold otherEntry callbackEntry
  omega

theorem Timely.step (h : Timely s) {e : TimerEvent} (he : e.Second) (ht : s.step e = some t) :
    Timely t := by
  cases e with
  | runAfter delay => exact h.schedule he.1 he.2 false rfl ht
  | runEvery interval => exact h.schedule he.1 he.2 true rfl ht
  | cbReturns => exact h.returns ht
  | insertEntry delay e =>
    refine h.wheelStep (e := .insert delay (otherEntry e)) he ?_ (fun _ he => by cases he) ?_ ht
    · intro delay k heq
      exact callbackEntry_ne_other k e (WheelEvent.insert.inj heq).2
    · intro w _ hw
      obtain ⟨x, -, rfl⟩ := Option.map_eq_some_iff.1 hw
      rfl
  | drop i =>
    obtain ⟨hcalls, ht⟩ := Option.ite_none_right_eq_some.1 ht
    exact h.drop hcalls ht
  | onTimer now =>
    obtain ⟨hcalls, ht⟩ := Option.ite_none_right_eq_some.1 ht
    exact h.wheelStep (e := .onTimer now) trivial (fun _ _ he => by cases he)
      (fun _ he => by cases he) (fun _ hno => absurd hcalls hno) ht
  | popUp =>
    obtain ⟨hcalls, ht⟩ := Option.ite_none_right_eq_some.1 ht
    exact h.wheelStep (e := .popUp) trivial (fun _ _ he => by cases he)
      (fun _ he => by cases he) (fun _ hno => absurd hcalls hno) ht

/-! ## Runs -/

/-- The callback has run once in each tick in which it is due, and in no other: up to the last tick,
and in this tick too once the timer call is over. -/
structure Exact (s : TimerRun) (cb : ℕ) (c : Schedule) : Prop where
  once : (s.runsOf cb).Pairwise (· < ·)
  due : ∀ n ∈ s.runsOf cb, c.Due n ∧ n ≤ s.wheel.ticks
  all : ∀ n, c.Due n → n < s.wheel.ticks ∨ n = s.wheel.ticks ∧ s.wheel.Idle → n ∈ s.runsOf cb

theorem due_iff {n : ℕ} :
    c.Due n ↔ ∃ i, (c.repeats = false → i = 0) ∧ n = c.tick + (i + 1) * ⌊c.delay⌋₊ := by
  unfold Schedule.Due
  cases c.repeats with
  | true => simp
  | false => simp

/-- `RunAfter` runs its callback once. -/
theorem Stage.le_one (h : Stage s cb c j) (hrepeats : c.repeats = false) : j ≤ 1 := by
  cases h with
  | waiting _ _ _ _ hj => exact (hj hrepeats).trans_le (Nat.zero_le 1)
  | calling _ _ _ hj => exact (hj hrepeats).le
  | done _ _ _ hj => exact hj.le

/-- A tick that is over has been among the first ones. -/
theorem Tracked.lt_of_due (h : Tracked s cb c j) (hpos : 1 ≤ ⌊c.delay⌋₊) {i : ℕ}
    (hi : c.repeats = false → i = 0)
    (hn : c.tick + (i + 1) * ⌊c.delay⌋₊ < s.wheel.ticks ∨
      c.tick + (i + 1) * ⌊c.delay⌋₊ = s.wheel.ticks ∧ s.wheel.Idle) : i < j := by
  by_contra hge
  have hmul : (j + 1) * ⌊c.delay⌋₊ ≤ (i + 1) * ⌊c.delay⌋₊ := Nat.mul_le_mul_right _ (by omega)
  cases h.stage with
  | waiting k _ _ hdue _ =>
    -- the next tick that is due has not come, or its timer call is not over
    rcases hn with hlt | ⟨heq, hidle⟩
    · have := hdue.le
      omega
    · have := hdue.lt_of_idle hidle
      omega
  | calling _ _ hticks _ =>
    rw [Nat.add_mul, Nat.one_mul] at hmul
    omega
  | done _ _ hrepeats hj =>
    have := hi hrepeats
    omega

theorem Tracked.exact (h : Tracked s cb c j) (hpos : 1 ≤ ⌊c.delay⌋₊) : Exact s cb c := by
  refine ⟨?_, ?_, ?_⟩
  · rw [h.runs, Schedule.ticks, List.pairwise_map]
    refine List.pairwise_lt_range.imp ?_
    intro i i' hlt
    have := Nat.mul_lt_mul_of_pos_right (Nat.add_lt_add_right hlt 1) hpos
    omega
  · intro n hn
    rw [h.runs, Schedule.mem_ticks] at hn
    obtain ⟨i, hi, rfl⟩ := hn
    refine ⟨due_iff.2 ⟨i, fun hrepeats => ?_, rfl⟩, ?_⟩
    · have := h.stage.le_one hrepeats
      omega
    · have hmul : (i + 1) * ⌊c.delay⌋₊ ≤ j * ⌊c.delay⌋₊ := Nat.mul_le_mul_right _ hi
      have := h.past
      omega
  · intro n hdue hn
    obtain ⟨i, hi, rfl⟩ := due_iff.1 hdue
    rw [h.runs, Schedule.mem_ticks]
    exact ⟨i, h.lt_of_due hpos hi hn, rfl⟩

theorem Booked.insertCallback_isSome (h : Booked s) {delay : ℚ} (h1 : 1 ≤ delay)
    (h60 : delay < 60) (y : CallbackEntry) : (s.insertCallback delay y).isSome := by
  obtain ⟨t, ht, -⟩ := h.insertCallback h1 h60 y
  rw [ht]
  rfl

theorem Booked.cbReturns_isSome (h : Booked s) (hcalls : s.calls ≠ []) : s.cbReturns.isSome := by
  unfold TimerRun.cbReturns
  rcases hs : s.calls with _ | ⟨y, rest⟩
  · exact absurd hs hcalls
  have hlen := h.calls
  rw [hs] at hlen
  have hrest : rest = [] := List.length_eq_zero_iff.1 (by simpa using hlen)
  subst hrest
  obtain ⟨c, hc, hy⟩ := h.known y (.inr (by rw [hs]; exact List.mem_singleton_self _))
  obtain ⟨h1, h60⟩ := h.second c (List.mem_of_getElem? hc)
  simp only
  rcases hinterval : y.interval with _ | interval
  · rfl
  · -- the interval is the one that `RunEvery` has been called with
    have heq : interval = c.delay := by
      rw [hy, Schedule.made] at hinterval
      exact (Option.some.inj (Option.ite_none_right_eq_some.1 hinterval).2).symm
    subst heq
    exact h.returns.insertCallback_isSome h1 h60 _

/-- **Nothing is undefined.** What can happen next does. -/
theorem Booked.isSome (h : Booked s) {e : TimerEvent} (he : e.Second) (hcan : s.CanHappen e) :
    (s.step e).isSome := by
  cases e with
  | runAfter delay =>
    exact (h.schedule he.1 he.2 false).insertCallback_isSome he.1 he.2 _
  | runEvery interval =>
    exact (h.schedule he.1 he.2 true).insertCallback_isSome he.1 he.2 _
  | cbReturns => exact h.cbReturns_isSome hcan
  | insertEntry delay e =>
    obtain ⟨w, hw, -⟩ := (h.wheel.seated (otherEntry e)).insert_self he.1 he.2
    simp only [TimerRun.step, wheelStep, WheelRun.step]
    rw [hw]
    rfl
  | drop i =>
    simp only [TimerRun.step, TimerRun.drop, wheelStep]
    rw [if_pos hcan.1, List.getElem?_eq_getElem hcan.2, Option.bind_some, Option.isSome_map,
      Option.isSome_map]
    exact h.wheel.drop_isSome hcan.2
  | onTimer now =>
    simp only [TimerRun.step, wheelStep]
    rw [if_pos hcan.1, Option.isSome_map]
    exact h.wheel.onTimer_isSome hcan.2 now
  | popUp =>
    simp only [TimerRun.step, wheelStep]
    rw [if_pos hcan.1, Option.isSome_map]
    exact h.wheel.popUp_isSome hcan.2.1 hcan.2.2

/-- **Timers with delays below a minute are exact**, in every run. -/
theorem timers_exact {es : List TimerEvent} (hes : ∀ e ∈ es, e.Second)
    (h : run TimerRun.step {} es = some s) :
    (∀ cb c, s.schedules[cb]? = some c → Exact s cb c) ∧
      ∀ e, e.Second → s.CanHappen e → (s.step e).isSome := by
  have hs : Timely s := run_inv_of_meets Timely (fun _ _ _ hc he hd => hc.step he hd) timely_new
    (meets_of_forall hes) h
  refine ⟨?_, fun e he hcan => hs.booked.isSome he hcan⟩
  intro cb c hc
  obtain ⟨j, hj⟩ := hs.tracked cb c hc
  have h1 := (hs.booked.second c (List.mem_of_getElem? hc)).1
  exact hj.exact (Nat.le_floor (by exact_mod_cast h1))

/-- A callback of `RunEvery` that calls `RunAfter` in its first run, beside a `RunAfter`. -/
def twoTicks : List TimerEvent :=
  [.runAfter 2, .runEvery 1, .onTimer 1, .onTimer 1001, .drop 0, .runAfter 1, .cbReturns,
    .onTimer 2001, .drop 0, .cbReturns, .drop 0, .cbReturns, .drop 0, .cbReturns]

theorem timers_exact_two : (∀ e ∈ twoTicks, e.Second) ∧
    ∃ s, run TimerRun.step {} twoTicks = some s ∧ s.runs = [(1, 1), (1, 2), (2, 2), (0, 2)] ∧
      (∀ cb c, s.schedules[cb]? = some c → Exact s cb c) ∧
        ∀ e, e.Second → s.CanHappen e → (s.step e).isSome := by
  have hes : ∀ e ∈ twoTicks, e.Second := by
    norm_num [twoTicks, TimerEvent.Second]
  have hrun : (run TimerRun.step {} twoTicks).map TimerRun.runs =
      some [(1, 1), (1, 2), (2, 2), (0, 2)] := by decide +kernel
  obtain ⟨s, hs, hruns⟩ := Option.map_eq_some_iff.1 hrun
  exact ⟨hes, s, hs, hruns, timers_exact hes hs⟩

end TimerRun

end HttpNest
