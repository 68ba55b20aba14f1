import HttpNest.Lib.EventRun

/-!
# `Connection::Active` and `Deactive`

Any number of threads `τ` that call `Active` and `Deactive` on one connection whose
`activeCb_` is set; `loop` is the thread of its event loop. `Active` is two steps: to test
`active_`, and to call `RunInLoop` with the activation, which stores `true` and calls
`activeCb_`. On the loop's thread `RunInLoop` is a plain call, any other thread pushes the
activation, and has to wait while `RunFuctions` holds the lock.
-/

namespace HttpNest

/-- `tested t` says that the thread has found `active_` false and not yet called `RunInLoop`;
`queue` counts the activations in `fns_` that have not been called, `calling` says that an
activation has stored `true` and not yet called `activeCb_`, and `depth` counts the calls of
`activeCb_` that have not returned. `transitions` and `callbacks` count what the two names say,
and `last` is whether the last call was one of `Active`. -/
structure Activity (τ : Type*) where
  active : Bool := false
  tested : τ → Bool := fun _ => false
  queue : ℕ := 0
  draining : Bool := false
  calling : Bool := false
  depth : ℕ := 0
  transitions : ℕ := 0
  callbacks : ℕ := 0
  last : Bool := false

inductive ActiveStep (τ : Type*)
  /-- `Active` begins, and is over where `active_` is true. -/
  | test (t : τ)
  /-- `RunInLoop` of an `Active` that has found it false. -/
  | post (t : τ)
  | deactive (t : τ)
  /-- The loop's thread calls `activeCb_`, which returns later. -/
  | callback
  | returns
  /-- `RunFuctions`: its lock, the function in front, and its end. -/
  | lock
  | front
  | unlock
  deriving DecidableEq

namespace Activity

variable {τ : Type*} [DecidableEq τ]

/-- The thread is not in the middle of an `Active` or an activation. -/
def Free (loop : τ) (s : Activity τ) (t : τ) : Prop :=
  s.tested t = false ∧ (t = loop → s.calling = false)

instance (loop : τ) (s : Activity τ) (t : τ) : Decidable (s.Free loop t) :=
  inferInstanceAs (Decidable (_ ∧ _))

/-- `active_.store(true)` of an activation. -/
def store (s : Activity τ) : Activity τ :=
  { s with
    active := true
    calling := true
    transitions := if s.active then s.transitions else s.transitions + 1 }

/-- One step; `none` where it cannot happen. -/
def step (loop : τ) (s : Activity τ) : ActiveStep τ → Option (Activity τ)
  | .test t =>
    if s.Free loop t then
      some { s with
        tested := if s.active then s.tested else Function.update s.tested t true
        last := true }
    else none
  | .post t =>
    if s.tested t then
      let s := { s with tested := Function.update s.tested t false }
      if t = loop then some s.store
      else if s.draining then none
      else some { s with queue := s.queue + 1 }
    else none
  | .deactive t =>
    if s.Free loop t then some { s with active := false, last := false } else none
  | .callback =>
    if s.calling then
      some { s with calling := false, callbacks := s.callbacks + 1, depth := s.depth + 1 }
    else none
  | .returns =>
    if s.Free loop loop ∧ 0 < s.depth then some { s with depth := s.depth - 1 } else none
  | .lock =>
    if s.Free loop loop ∧ s.depth = 0 ∧ s.draining = false then some { s with draining := true }
    else none
  | .front =>
    if s.Free loop loop ∧ s.depth = 0 ∧ s.draining ∧ 0 < s.queue then
      some { s with queue := s.queue - 1 }.store
    else none
  | .unlock =>
    if s.Free loop loop ∧ s.depth = 0 ∧ s.draining ∧ s.queue = 0 then
      some { s with draining := false }
    else none

/-- No activation has been decided on and not yet stored. -/
def NoneInFlight (s : Activity τ) : Prop := (∀ t, s.tested t = false) ∧ s.queue = 0

/-- `activeCb_` has run for each transition of `active_` to true, or is about to, and with no
activation left `active_` is what the last call was for. -/
structure Faithful (s : Activity τ) : Prop where
  callbacks : s.callbacks + (if s.calling then 1 else 0) = s.transitions
  active : s.NoneInFlight → s.calling = false → (s.active = true ↔ s.last = true)

/-- A call of `Active` or `Deactive` is made while no activation is in flight. -/
def Alone (s : Activity τ) : ActiveStep τ → Prop
  | .test _ | .deactive _ => s.NoneInFlight
  | .post _ | .callback | .returns | .lock | .front | .unlock => True

end Activity

end HttpNest
