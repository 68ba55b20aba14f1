import HttpNest.Spec.IdleTimeout
import Mathlib.Data.Rat.Floor

/-!
# `RunAfter` and `RunEvery`

The wheel with the `CallbackEntry` objects that `RunAfter` and `RunEvery` put into it. Nothing
but the wheel refers to such an entry, so its destructor runs when the wheel drops the last
reference, and calls `cb_`. Until this call returns no other reference is dropped and no wheel is
popped; insertions are made at any time, by the callbacks and from outside. What `RunEvery`
passes as `cb_` ends with a call of `RunEvery`.

Delays and intervals are of type `double`: rational numbers, where they are finite.
-/

namespace HttpNest

/-- The conversion of a `double` to `uint32_t`, which is undefined behaviour out of range. -/
def toUInt32 (x : ℚ) : Option (BitVec 32) :=
  if -1 < x ∧ x < 2 ^ 32 then some (BitVec.ofNat 32 ⌊x⌋₊) else none

/-- `cb` is the number of the callback that has been passed, and `interval` what `RunEvery` has
captured with it. -/
structure CallbackEntry where
  cb : ℕ
  interval : Option ℚ
  deriving DecidableEq

/-- A call of `RunAfter`, or of `RunEvery` if it `repeats`, with the number of ticks before it. -/
structure Schedule where
  tick : ℕ
  delay : ℚ
  repeats : Bool

/-- The `CallbackEntry` objects have the odd numbers among the entries of the wheel. -/
def callbackEntry (k : ℕ) : ℕ := 2 * k + 1

/-- An entry that somebody else inserts. -/
def otherEntry (entry : ℕ) : ℕ := 2 * entry

/-- `entries` lists the `CallbackEntry` objects that have been made, `calls` those whose `cb_` has
not returned. `schedules` lists the calls of `RunAfter` and `RunEvery` that do not come from a
`RunEvery`, each with a callback of its own, and `runs` the calls of these callbacks with their
ticks. -/
structure TimerRun where
  wheel : WheelRun := {}
  entries : List CallbackEntry := []
  calls : List CallbackEntry := []
  schedules : List Schedule := []
  runs : List (ℕ × ℕ) := []

inductive TimerEvent
  | runAfter (delay : ℚ)
  | runEvery (interval : ℚ)
  | insertEntry (delay : BitVec 32) (entry : ℕ)
  | cbReturns
  | onTimer (now : ℤ)
  | drop (i : ℕ)
  | popUp

namespace TimerRun

/-- The `CallbackEntry` behind an entry of the wheel. -/
def callbackOf (s : TimerRun) (entry : ℕ) : Option CallbackEntry :=
  if entry % 2 = 1 then s.entries[entry / 2]? else none

/-- `~CallbackEntry`, up to the return of `cb_`. -/
def destroy (s : TimerRun) (c : CallbackEntry) : TimerRun :=
  { s with calls := c :: s.calls, runs := s.runs ++ [(c.cb, s.wheel.ticks)] }

/-- A shared pointer to the entry is gone. -/
def release (s : TimerRun) (entry : ℕ) : TimerRun :=
  if s.wheel.owns entry then s
  else match s.callbackOf entry with
    | some c => s.destroy c
    | none => s

/-- `std::make_shared<CallbackEntry>`, `InsertEntry`, and the end of `cbEntry`. -/
def insertCallback (s : TimerRun) (delay : ℚ) (c : CallbackEntry) : Option TimerRun :=
  (toUInt32 delay).bind fun delay =>
    (s.wheel.insert delay (callbackEntry s.entries.length)).map fun w =>
      { s with wheel := w, entries := s.entries ++ [c] }.release (callbackEntry s.entries.length)

def runAfter (s : TimerRun) (delay : ℚ) (cb : ℕ) : Option TimerRun :=
  s.insertCallback delay { cb := cb, interval := none }

def runEvery (s : TimerRun) (interval : ℚ) (cb : ℕ) : Option TimerRun :=
  s.insertCallback interval { cb := cb, interval := some interval }

/-- The callback returns to the one that `RunAfter` or `RunEvery` has made of it. -/
def cbReturns (s : TimerRun) : Option TimerRun :=
  match s.calls with
  | [] => none
  | c :: calls =>
    let s := { s with calls := calls }
    match c.interval with
    | none => some s
    | some interval => s.runEvery interval c.cb

def wheelStep (s : TimerRun) (e : WheelEvent) : Option TimerRun :=
  (s.wheel.step e).map fun w => { s with wheel := w }

/-- The destructor of `tmp` in `PopUp` goes on with one of its references. -/
def drop (s : TimerRun) (i : ℕ) : Option TimerRun :=
  (s.wheel.released[i]?).bind fun p =>
    (s.wheelStep (.drop i)).map fun t =>
      match p.entry? with
      | some entry => t.release entry
      | none => t

/-- A new schedule, whose callback gets the next number. -/
def schedule (s : TimerRun) (delay : ℚ) (repeats : Bool) : TimerRun :=
  { s with schedules := s.schedules ++ [⟨s.wheel.ticks, delay, repeats⟩] }

/-- One step; `none` where it cannot happen, or is undefined behaviour. -/
def step (s : TimerRun) : TimerEvent → Option TimerRun
  | .runAfter delay => (s.schedule delay false).runAfter delay s.schedules.length
  | .runEvery interval => (s.schedule interval true).runEvery interval s.schedules.length
  | .insertEntry delay entry => s.wheelStep (.insert delay (otherEntry entry))
  | .cbReturns => s.cbReturns
  | .onTimer now => if s.calls = [] then s.wheelStep (.onTimer now) else none
  | .drop i => if s.calls = [] then s.drop i else none
  | .popUp => if s.calls = [] then s.wheelStep .popUp else none

/-- What can happen next, where nothing is undefined. -/
def CanHappen (s : TimerRun) : TimerEvent → Prop
  | .runAfter _ | .runEvery _ | .insertEntry _ _ => True
  | .cbReturns => s.calls ≠ []
  | .onTimer _ => s.calls = [] ∧ s.wheel.Idle
  | .drop i => s.calls = [] ∧ i < s.wheel.released.length
  | .popUp => s.calls = [] ∧ s.wheel.released = [] ∧ s.wheel.next ≠ none

/-- The ticks of the runs of a callback. -/
def runsOf (s : TimerRun) (cb : ℕ) : List ℕ := (s.runs.filter fun r => r.1 = cb).map Prod.snd

end TimerRun

/-- The delays that stay in the seconds wheel. -/
def TimerEvent.Second : TimerEvent → Prop
  | runAfter delay | runEvery delay => 1 ≤ delay ∧ delay < 60
  | insertEntry delay _ => 1 ≤ delay.toNat ∧ delay.toNat ≤ 59
  | cbReturns | onTimer _ | drop _ | popUp => True

/-- The ticks in which the callback of a schedule is due. A delay counts by its whole seconds. -/
def Schedule.Due (c : Schedule) (n : ℕ) : Prop :=
  if c.repeats then ∃ k, n = c.tick + (k + 1) * ⌊c.delay⌋₊ else n = c.tick + ⌊c.delay⌋₊

end HttpNest
