import HttpNest.Spec.IdleTimeout

/-!
# Several calls of `EnableCheckIdleTimeout`

One connection and the wheel of its loop, as in an `IdleRun`, but `EnableCheckIdleTimeout` may be
called again. Each call makes a `TimeoutEntry` of its own, and `timeoutEntry_` refers to that of the
last call; the earlier ones stay in the wheel until it drops them. The destructor of each of them
calls `OnTimeout`, which closes the connection if it is open.

The connection may also be closed by something else. Behind that it may be gone, which its entries
do not tell from being closed.
-/

namespace HttpNest

/-- The entries of the connection have the odd numbers among the entries of the wheel. -/
def ownEntry (i : ℕ) : ℕ := 2 * i + 1

/-- An entry of somebody else. -/
def foreignEntry (entry : ℕ) : ℕ := 2 * entry

/-- An `OnTimeout` that has closed the connection: its tick, the tick of the last call of
`EnableCheckIdleTimeout` or activity before it, and the limit of the last call. -/
structure IdleClose where
  tick : ℕ
  lastActive : ℕ
  maxIdleTime : BitVec 32
  deriving DecidableEq

/-- `made` counts the entries, of which the last one is that of `timeoutEntry_`. `lastActive` is the
number of ticks at the last call of `EnableCheckIdleTimeout` or the last activity. -/
structure EnableRun where
  wheel : WheelRun := {}
  made : ℕ := 0
  maxIdleTime : BitVec 32 := 30
  isClosed : Bool := false
  lastActive : ℕ := 0
  closes : List IdleClose := []

inductive EnableEvent
  | enableCheckIdleTimeout (maxTime : BitVec 32)
  | onRead
  | onWrite
  | onClose
  | insertEntry (delay : BitVec 32) (entry : ℕ)
  | onTimer (now : ℤ)
  | drop (i : ℕ)
  | popUp

namespace EnableRun

/-- `OnTimeout` calls `OnClose`. -/
def onTimeout (s : EnableRun) : EnableRun :=
  if s.isClosed then s
  else { s with
    isClosed := true
    closes := s.closes ++ [⟨s.wheel.ticks, s.lastActive, s.maxIdleTime⟩] }

/-- A shared pointer to the entry is gone. -/
def release (s : EnableRun) (entry : ℕ) : EnableRun :=
  if s.wheel.owns entry then s
  else if entry % 2 = 1 ∧ entry / 2 < s.made then s.onTimeout
  else s

/-- The function ends with the destruction of `tp`. -/
def enableCheckIdleTimeout (s : EnableRun) (maxTime : BitVec 32) : Option EnableRun :=
  (s.wheel.insert maxTime (ownEntry s.made)).map fun w =>
    { s with
      wheel := w, made := s.made + 1, maxIdleTime := maxTime
      lastActive := s.wheel.ticks }.release (ownEntry s.made)

/-- `timeoutEntry_.lock()`, and the insertion if there is an entry. -/
def extendLife (s : EnableRun) : Option EnableRun :=
  if 0 < s.made ∧ s.wheel.owns (ownEntry (s.made - 1)) then
    (s.wheel.insert s.maxIdleTime (ownEntry (s.made - 1))).map fun w => { s with wheel := w }
  else some s

/-- `OnRead` and `OnWrite`, up to what they do with the socket. -/
def active (s : EnableRun) : Option EnableRun :=
  if s.isClosed then some s else { s with lastActive := s.wheel.ticks }.extendLife

def wheelStep (s : EnableRun) (e : WheelEvent) : Option EnableRun :=
  (s.wheel.step e).map fun w => { s with wheel := w }

/-- The destructor of `tmp` in `PopUp` goes on with one of its references. -/
def drop (s : EnableRun) (i : ℕ) : Option EnableRun :=
  (s.wheel.released[i]?).bind fun p =>
    (s.wheelStep (.drop i)).map fun t =>
      match p.entry? with
      | some entry => t.release entry
      | none => t

/-- One step; `none` where it cannot happen, or is undefined behaviour. -/
def step (s : EnableRun) : EnableEvent → Option EnableRun
  | .enableCheckIdleTimeout maxTime => s.enableCheckIdleTimeout maxTime
  | .onRead | .onWrite => s.active
  | .onClose => some { s with isClosed := true }
  | .insertEntry delay entry => s.wheelStep (.insert delay (foreignEntry entry))
  | .onTimer now => s.wheelStep (.onTimer now)
  | .drop i => s.drop i
  | .popUp => s.wheelStep .popUp

end EnableRun

/-- The limits that stay in the seconds wheel. -/
def EnableEvent.Short : EnableEvent → Prop
  | enableCheckIdleTimeout maxTime => 1 ≤ maxTime.toNat ∧ maxTime.toNat ≤ 59
  | onRead | onWrite | onClose | insertEntry _ _ | onTimer _ | drop _ | popUp => True

end HttpNest
