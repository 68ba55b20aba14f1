import HttpNest.Lib.EventRun

/-!
# `TimingWheel`

Four wheels of slots. An entry is a pointer: the wheel drops its references in `PopUp`,
and what then happens is the destructor's doing, which for the entries that the wheel
makes itself is another `InsertEntry`.

A `WheelRun` takes `OnTimer` apart where foreign code runs: `PopUp` has swapped a slot
out, its references are dropped one by one in any order, and callbacks may insert
entries meanwhile; then the wheel that `OnTimer` selects next is popped.
-/

namespace HttpNest

inductive TimingType
  | kTimingTypeSecond
  | kTimingTypeMinute
  | kTimingTypeHour
  | kTimingTypeDay
  deriving DecidableEq, Repr

def kTimingMinute : ℕ := 60

def kTimingHour : ℕ := 60 * 60

def kTimingDay : ℕ := 60 * 60 * 24

/-- A pointer in a slot: `null`, one that was passed to `InsertEntry`, or a new
`CallbackEntry` whose destructor inserts `entry` with the delay `second`. -/
inductive EntryPtr
  | null
  | user (entry : ℕ)
  | callback (second entry : ℕ)
  deriving DecidableEq, Repr

/-- The entry that a pointer keeps alive. -/
def EntryPtr.entry? : EntryPtr → Option ℕ
  | null => none
  | user e => some e
  | callback _ e => some e

abbrev WheelEntry := List EntryPtr

/-- `std::unordered_set::emplace`; a new `CallbackEntry` is equal to none. -/
def WheelEntry.emplace (slot : WheelEntry) : EntryPtr → WheelEntry
  | .callback second e => .callback second e :: slot
  | p => List.insert p slot

abbrev Wheel := List WheelEntry

structure TimingWheel where
  wheels : TimingType → Wheel
  lastTs : ℤ := 0
  tick : ℕ := 0

namespace TimingWheel

/-- The constructor. -/
def new : TimingWheel where
  wheels
    | .kTimingTypeSecond => List.replicate 60 []
    | .kTimingTypeMinute => List.replicate 60 []
    | .kTimingTypeHour => List.replicate 24 []
    | .kTimingTypeDay => List.replicate 30 []

/-- `wheels_[type][i].emplace(p)`; `none` where `i` is out of range. -/
def emplaceAt (w : TimingWheel) (type : TimingType) (i : ℕ) (p : EntryPtr) :
    Option TimingWheel :=
  if i < (w.wheels type).length then
    some { w with
      wheels :=
        Function.update w.wheels type ((w.wheels type).modify i fun slot => slot.emplace p) }
  else none

/-- `delay - 1` is an `uint32_t`. -/
def insertSecondEntry (w : TimingWheel) (delay : BitVec 32) (p : EntryPtr) : Option TimingWheel :=
  w.emplaceAt .kTimingTypeSecond (delay - 1).toNat p

/-- `InsertMinuteEntry`, `InsertHourEntry` and `InsertDayEntry`. -/
def insertUnitEntry (w : TimingWheel) (type : TimingType) (unit : ℕ) (delay : BitVec 32)
    (entry : ℕ) : Option TimingWheel :=
  w.emplaceAt type (delay.toNat / unit - 1) (.callback (delay.toNat % unit) entry)

def insertMinuteEntry (w : TimingWheel) (delay : BitVec 32) (entry : ℕ) : Option TimingWheel :=
  w.insertUnitEntry .kTimingTypeMinute kTimingMinute delay entry

def insertHourEntry (w : TimingWheel) (delay : BitVec 32) (entry : ℕ) : Option TimingWheel :=
  w.insertUnitEntry .kTimingTypeHour kTimingHour delay entry

def insertDayEntry (w : TimingWheel) (delay : BitVec 32) (entry : ℕ) : Option TimingWheel :=
  w.insertUnitEntry .kTimingTypeDay kTimingDay delay entry

/-- A delay that `InsertEntry` does not log as an error. -/
def Supported (delay : BitVec 32) : Prop := delay.toNat / kTimingDay ≤ 30

instance (delay : BitVec 32) : Decidable (Supported delay) := inferInstanceAs (Decidable (_ ≤ _))

def insertEntry (w : TimingWheel) (delay : BitVec 32) (entry : ℕ) : Option TimingWheel :=
  if delay.toNat < kTimingMinute then
    w.insertSecondEntry delay (if delay ≤ 0 then .null else .user entry)
  else if delay.toNat < kTimingHour then w.insertMinuteEntry delay entry
  else if delay.toNat < kTimingDay then w.insertHourEntry delay entry
  else if ¬ Supported delay then some w
  else w.insertDayEntry delay entry

/-- `PopUp`: what is swapped out, and the wheel after it. -/
def popUp (w : TimingWheel) (type : TimingType) : Option (WheelEntry × TimingWheel) :=
  match w.wheels type with
  | [] => none
  | front :: rest =>
    some (front, { w with wheels := Function.update w.wheels type (rest ++ [[]]) })

/-- The wheel that `OnTimer` pops after the seconds. -/
def nextWheel (tick : ℕ) : Option TimingType :=
  if tick % kTimingMinute = 0 then some .kTimingTypeMinute
  else if tick % kTimingHour = 0 then some .kTimingTypeHour
  else if tick % kTimingDay = 0 then some .kTimingTypeDay
  else none

/-- `OnTimer` until `tick_` is increased; the flag says whether it is. -/
def onTimer (w : TimingWheel) (now : ℤ) : TimingWheel × Bool :=
  let lastTs := if w.lastTs = 0 then now else w.lastTs
  if now - lastTs < 1000 then ({ w with lastTs := lastTs }, false)
  else ({ w with lastTs := now, tick := (w.tick + 1) % 2 ^ 64 }, true)

end TimingWheel

/-- `released` holds the references of the last `PopUp` that are not dropped yet, `next`
the wheel still to be popped. `ticks`, `pops` and `accepted` count the ticks and the
`PopUp` calls, and list the insertions that were not refused. -/
structure WheelRun where
  wheel : TimingWheel := .new
  released : WheelEntry := []
  next : Option TimingType := none
  ticks : ℕ := 0
  pops : TimingType → ℕ := fun _ => 0
  accepted : List (BitVec 32 × ℕ) := []

inductive WheelEvent
  | insert (delay : BitVec 32) (entry : ℕ)
  | onTimer (now : ℤ)
  | drop (i : ℕ)
  | popUp

namespace WheelRun

open TimingWheel

/-- No `OnTimer` is running. -/
def Idle (s : WheelRun) : Prop := s.released = [] ∧ s.next = none

instance (s : WheelRun) : Decidable s.Idle := inferInstanceAs (Decidable (_ ∧ _))

def insert (s : WheelRun) (delay : BitVec 32) (entry : ℕ) : Option WheelRun :=
  (s.wheel.insertEntry delay entry).map fun w =>
    { s with
      wheel := w
      accepted := if Supported delay then (delay, entry) :: s.accepted else s.accepted }

def pop (s : WheelRun) (type : TimingType) (next : Option TimingType) : Option WheelRun :=
  (s.wheel.popUp type).map fun r =>
    { s with
      wheel := r.2, released := r.1, next := next
      pops := Function.update s.pops type (s.pops type + 1) }

/-- One step; `none` where it cannot happen, or is undefined behaviour. -/
def step (s : WheelRun) : WheelEvent → Option WheelRun
  | .insert delay entry => s.insert delay entry
  | .onTimer now =>
    if s.Idle then
      let (w, ticked) := s.wheel.onTimer now
      let s := { s with wheel := w }
      if ticked then { s with ticks := s.ticks + 1 }.pop .kTimingTypeSecond (nextWheel w.tick)
      else some s
    else none
  | .drop i =>
    match s.released[i]? with
    | none => none
    | some p =>
      let s := { s with released := s.released.eraseIdx i }
      match p with
      | .callback second entry => s.insert (BitVec.ofNat 32 second) entry
      | _ => some s
  | .popUp =>
    match s.released, s.next with
    | [], some type => s.pop type none
    | _, _ => none

end WheelRun

end HttpNest
