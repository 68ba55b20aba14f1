import HttpNest.Lib.EventRun
import HttpNest.Lib.Pipe

/-!
# Waking up a loop through its pipe

An event loop whose `PipeEvent` is registered, and the threads that post to it. A post locks
`mtx_`, pushes the function and wakes the loop up, which writes eight bytes to the pipe;
between the push and the write it is `posting`. The loop waits in `epoll_wait`, handles what
it has been notified of, the pipe among it or not, and then runs the posted functions with
`mtx_` locked. The wheel's timers are at the beginning of `waiting`.

`pending` is the notification of the pipe, which is registered edge-triggered: the kernel says
which writes are one, several of them until the next `epoll_wait` are one together, and
`epoll_wait` takes it and names the pipe if there are unread bytes. It may return for other
reasons at any time.
-/

namespace HttpNest

inductive WakePhase
  | waiting
  | handling (piped : Bool)
  | running
  deriving DecidableEq, Repr

/-- `F` is what a posted function is. -/
structure WakeLoop (F : Type*) where
  fns : List F := []
  posting : Bool := false
  pipe : Pipe := {}
  pending : Bool := false
  phase : WakePhase := .waiting

inductive WakeStep (F : Type*)
  /-- `RunInLoop` up to `WakeUp`. -/
  | push (fn : F)
  /-- `WakeUp`, and the end of `RunInLoop`. -/
  | write
  /-- `epoll_wait` returns. -/
  | poll
  /-- `PipeEvent::OnRead` -/
  | onRead
  /-- `RunFuctions` up to its loop, one turn of it, and its end. -/
  | lock
  | runFront
  | unlock

namespace WakeLoop

variable {F : Type*}

def step (K : PipeKernel) (s : WakeLoop F) : WakeStep F → Option (WakeLoop F)
  | .push fn =>
    if s.posting = false ∧ s.phase ≠ .running then
      some { s with fns := s.fns ++ [fn], posting := true }
    else none
  | .write =>
    if s.posting = true then
      -- `Write` does not look whether it is refused
      some { s with
        pipe := (s.pipe.write K.slots K.page).getD s.pipe
        pending := s.pending || K.notifies s.pipe
        posting := false }
    else none
  | .poll =>
    if s.phase = .waiting then
      some { s with phase := .handling (s.pending && 0 < s.pipe.unread), pending := false }
    else none
  | .onRead =>
    if s.phase = .handling true then
      some { s with pipe := s.pipe.read, phase := .handling false }
    else none
  | .lock =>
    if s.phase = .handling false ∧ s.posting = false then some { s with phase := .running }
    else none
  | .runFront =>
    match s.phase, s.fns with
    | .running, _ :: fns => some { s with fns := fns }
    | _, _ => none
  | .unlock =>
    if s.phase = .running ∧ s.fns = [] then some { s with phase := .waiting } else none

/-- A loop that is about to wait with functions in its queue has a notification of unread
bytes pending. A post that holds `mtx_` has its write still to come. -/
def Woken (s : WakeLoop F) : Prop :=
  s.phase = .waiting → s.posting = false → s.fns ≠ [] → s.pending = true ∧ 0 < s.pipe.unread

/-- If the write of a post notifies nobody, a notification is pending or the loop has still to
run its functions before it waits. -/
def WriteHeard (K : PipeKernel) (s : WakeLoop F) : WakeStep F → Prop
  | .write =>
    s.posting = true → K.notifies s.pipe = true ∨ s.pending = true ∨ s.phase ≠ .waiting
  | _ => True

end WakeLoop

end HttpNest
