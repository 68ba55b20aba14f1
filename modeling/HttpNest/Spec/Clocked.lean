import HttpNest.Lib.SampledClock
import HttpNest.Spec.Timers

/-!
# Timers by the clock

Every event has a time, in milliseconds. `Loop` calls `OnTimer` with the time that it has just
read, which is positive, and the clock is not set back. So the wheel of a loop counts seconds as a
`SampledClock` does: `lastTs_` is its last mark, and `tick_` the number of marks behind the first.

`noted` are the events whose times the results are about: the calls of `RunAfter` and `RunEvery`,
and the activity of a connection that checks its idle time.
-/

namespace HttpNest

open EventRun

/-- A machine with a wheel. -/
structure WheelUser (σ ε : Type*) where
  step : σ → ε → Option σ
  wheel : σ → WheelRun
  timestamp : ε → Option ℤ
  noted : σ → ε → Bool

structure Clocked (σ : Type*) where
  state : σ
  clock : SampledClock := {}

namespace Clocked

variable {σ ε : Type*}

/-- What an event is for the clock. -/
def tell (u : WheelUser σ ε) (s : σ) (x : ℤ) (e : ε) (clock : SampledClock) : SampledClock :=
  match u.timestamp e with
  | some now => clock.read 1000 now
  | none => if u.noted s e then clock.note x else clock.wait x

def step (u : WheelUser σ ε) (s : Clocked σ) (e : ℤ × ε) : Option (Clocked σ) :=
  if s.clock.time ≤ e.1 ∧ ∀ now ∈ u.timestamp e.2, now = e.1 ∧ 0 < now then
    (u.step s.state e.2).map fun t => ⟨t, tell u s.state e.1 e.2 s.clock⟩
  else none

end Clocked

/-- The timers of a loop; the clock notes the calls of `RunAfter` and `RunEvery`. -/
def TimerRun.user : WheelUser TimerRun TimerEvent where
  step := TimerRun.step
  wheel := TimerRun.wheel
  timestamp
    | .onTimer now => some now
    | _ => none
  noted _
    | .runAfter _ | .runEvery _ => true
    | _ => false

/-- A connection that checks its idle time; the clock notes its activity while it is open. -/
def IdleRun.user : WheelUser IdleRun IdleEvent where
  step := IdleRun.step
  wheel := IdleRun.wheel
  timestamp
    | .other (.onTimer now) => some now
    | _ => none
  noted c
    | .enableCheckIdleTimeout _ => true
    | .onRead | .onWrite => !c.isClosed
    | .other _ => false

end HttpNest
