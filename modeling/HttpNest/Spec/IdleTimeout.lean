import HttpNest.Spec.TimingWheel

/-!
# `EnableCheckIdleTimeout`

One connection and the wheel of its loop. The shared pointers to the connection's
`TimeoutEntry` are the references in the wheel and the released ones; `timeoutEntry_` is a weak
pointer, and locking it succeeds as long as there is one. The destructor of the entry runs when
the last one is dropped, and calls `OnTimeout`.

The other entries of the wheel may be inserted at any time, also from a dropped callback. The
connection is not closed by anything else, and is there until the loop ends.
-/

namespace HttpNest

/-- The connection's `TimeoutEntry`; the others are numbered from one. -/
def timeoutEntry : ℕ := 0

/-- `enabled` says that `EnableCheckIdleTimeout` has been called. `lastActive` is the number
of ticks at that call or at the last read or write of the open connection, and `timeouts` holds
the number of ticks at each call of `OnTimeout`. Both only record what happens. -/
structure IdleRun where
  wheel : WheelRun := {}
  enabled : Bool := false
  maxIdleTime : BitVec 32 := 30
  isClosed : Bool := false
  lastActive : ℕ := 0
  timeouts : List ℕ := []

inductive IdleEvent
  | enableCheckIdleTimeout (maxTime : BitVec 32)
  | onRead
  | onWrite
  | other (e : WheelEvent)

/-- The maximal idle times that stay in the seconds wheel. -/
def IdleEvent.Short : IdleEvent → Prop
  | enableCheckIdleTimeout maxTime => 1 ≤ maxTime.toNat ∧ maxTime.toNat ≤ 59
  | onRead | onWrite | other _ => True

namespace WheelRun

def timingTypes : List TimingType :=
  [.kTimingTypeSecond, .kTimingTypeMinute, .kTimingTypeHour, .kTimingTypeDay]

/-- Is there a reference to the entry, in a slot or among those that are being dropped? -/
def owns (s : WheelRun) (entry : ℕ) : Bool :=
  (timingTypes.any fun type => (s.wheel.wheels type).any fun slot =>
    slot.any fun p => p.entry? = some entry) ||
      s.released.any fun p => p.entry? = some entry

end WheelRun

namespace IdleRun

/-- `loop_->InsertEntry(maxIdleTime_, tp)` -/
def insert (s : IdleRun) : Option IdleRun :=
  (s.wheel.insert s.maxIdleTime timeoutEntry).map fun w => { s with wheel := w }

/-- `timeoutEntry_.lock()`, and the insertion if there is an entry. -/
def extendLife (s : IdleRun) : Option IdleRun :=
  if s.wheel.owns timeoutEntry then s.insert else some s

/-- `OnRead` and `OnWrite`, up to what they do with the socket. -/
def active (s : IdleRun) : Option IdleRun :=
  if s.isClosed then some s else { s with lastActive := s.wheel.ticks }.extendLife

/-- `OnTimeout` calls `OnClose`. -/
def onTimeout (s : IdleRun) : IdleRun :=
  { s with isClosed := true, timeouts := s.timeouts ++ [s.wheel.ticks] }

/-- A step of the wheel. If it drops the last reference to the entry, the entry is destroyed. -/
def wheelStep (s : IdleRun) (e : WheelEvent) : Option IdleRun :=
  (s.wheel.step e).map fun w =>
    if s.wheel.owns timeoutEntry ∧ ¬ w.owns timeoutEntry then { s with wheel := w }.onTimeout
    else { s with wheel := w }

/-- One step; `none` where it cannot happen, or is undefined behaviour. -/
def step (s : IdleRun) : IdleEvent → Option IdleRun
  | .enableCheckIdleTimeout maxTime =>
    if s.enabled then none
    else { s with enabled := true, maxIdleTime := maxTime, lastActive := s.wheel.ticks }.insert
  | .onRead | .onWrite => s.active
  | .other (.insert delay entry) =>
    if entry = timeoutEntry then none else s.wheelStep (.insert delay entry)
  | .other e => s.wheelStep e

end IdleRun

end HttpNest
