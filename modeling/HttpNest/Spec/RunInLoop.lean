import HttpNest.Lib.EventRun
import HttpNest.Lib.Mutex

/-!
# `RunInLoop` and `RunFuctions`

Any number of event loops, each with the thread it belongs to. What a thread executes is,
as far as other loops are concerned, the list of the calls of `RunInLoop` that it makes
(`Fn`): a function that has been posted, or a handler or timer callback.

A thread is outside `RunFuctions` (`handling`), at the lock there (`locking`), or inside,
with its `mtx_` locked (`running`). A call of `RunInLoop` on another loop is two steps:
to lock that loop's `mtx_`, and to push, wake up and unlock (`pushing`). A thread that has
no loop is one that never calls `RunFuctions`.
-/

namespace HttpNest

variable {ι : Type*}

/-- A function, as the calls of `RunInLoop` that it makes. -/
inductive Fn (ι : Type*)
  | done
  | runInLoop (loop : ι) (fn rest : Fn ι)
  deriving DecidableEq

namespace Fn

/-- One function and then another. -/
def seq : Fn ι → Fn ι → Fn ι
  | done, g => g
  | runInLoop loop fn rest, g => runInLoop loop fn (rest.seq g)

/-- What the thread of the loop `i` posts to other loops while it executes the function.
On its own loop `RunInLoop` is a plain call. -/
def Posts (i : ι) : Fn ι → ι → Prop
  | done, _ => False
  | runInLoop loop fn rest, j =>
    (loop = i ∧ fn.Posts i j) ∨ (loop ≠ i ∧ loop = j) ∨ rest.Posts i j

end Fn

inductive LoopPlace
  | handling
  | locking
  | running
  deriving DecidableEq, Repr

/-- `fns` is `fns_`, `code` what is left of the function the thread is executing, and
`pushing` the loop whose `mtx_` it has locked in `RunInLoop`, with the function to push. -/
structure EventLoop (ι : Type*) where
  fns : List (Fn ι) := []
  place : LoopPlace := .handling
  code : Option (Fn ι) := none
  pushing : Option (ι × Fn ι) := none

/-- `mtx i` is the owner of the `mtx_` of the loop `i`. -/
structure Loops (ι : Type*) where
  loop : ι → EventLoop ι
  mtx : ι → Option ι

/-- A step of the thread of a loop. -/
inductive LoopStep (ι : Type*)
  /-- A handler or a timer callback is called. -/
  | handle (i : ι) (code : Fn ι)
  /-- The next call that the thread makes, or the return of the function. -/
  | call (i : ι)
  | push (i : ι)
  /-- `RunFuctions` up to, and behind, its lock. -/
  | runFuctions (i : ι)
  | lock (i : ι)
  | front (i : ι)
  | unlock (i : ι)

namespace Loops

variable [DecidableEq ι]

/-- Loops with functions in their queues, before any of the threads does anything. -/
def start (queues : ι → List (Fn ι)) : Loops ι where
  loop i := { fns := queues i }
  mtx _ := none

def modify (s : Loops ι) (i : ι) (f : EventLoop ι → EventLoop ι) : Loops ι :=
  { s with loop := Function.update s.loop i (f (s.loop i)) }

def setMtx (s : Loops ι) (i : ι) (owner : Option ι) : Loops ι :=
  { s with mtx := Function.update s.mtx i owner }

/-- `RunInLoop` on the loop `j`, by the thread of the loop `i`, with `rest` to do after it. -/
def runInLoop (s : Loops ι) (i j : ι) (fn rest : Fn ι) : Option (Loops ι) :=
  if j = i then some (s.modify i fun l => { l with code := some (fn.seq rest) })
  else if s.mtx j = none then
    some ((s.setMtx j i).modify i fun l =>
      { l with code := some rest, pushing := some (j, fn) })
  else none

/-- The function returns; in `RunFuctions` it is popped. -/
def finish (l : EventLoop ι) : EventLoop ι :=
  { l with code := none, fns := if l.place = .running then l.fns.tail else l.fns }

def step (s : Loops ι) : LoopStep ι → Option (Loops ι)
  | .handle i code =>
    if (s.loop i).place = .handling ∧ (s.loop i).code = none then
      some (s.modify i fun l => { l with code := some code })
    else none
  | .call i =>
    match (s.loop i).pushing, (s.loop i).code with
    | none, some (.runInLoop j fn rest) => s.runInLoop i j fn rest
    | none, some .done => some (s.modify i finish)
    | _, _ => none
  | .push i =>
    match (s.loop i).pushing with
    | some (j, fn) =>
      some (((s.modify j fun l => { l with fns := l.fns ++ [fn] }).setMtx j none).modify i fun l =>
        { l with pushing := none })
    | none => none
  | .runFuctions i =>
    if (s.loop i).place = .handling ∧ (s.loop i).code = none ∧ (s.loop i).pushing = none then
      some (s.modify i fun l => { l with place := .locking })
    else none
  | .lock i =>
    if (s.loop i).place = .locking ∧ s.mtx i = none then
      some ((s.setMtx i i).modify i fun l => { l with place := .running })
    else none
  | .front i =>
    if (s.loop i).place = .running ∧ (s.loop i).code = none ∧ (s.loop i).pushing = none then
      (s.loop i).fns.head?.map fun fn => s.modify i fun l => { l with code := some fn }
    else none
  | .unlock i =>
    if (s.loop i).place = .running ∧ (s.loop i).code = none ∧ (s.loop i).pushing = none ∧
        (s.loop i).fns = [] then
      some ((s.setMtx i none).modify i fun l => { l with place := .handling })
    else none

/-- The loop whose `mtx_` the thread of the loop `i` is about to lock. -/
def wants (s : Loops ι) (i : ι) : Option ι :=
  if (s.loop i).pushing.isSome then none
  else if (s.loop i).place = .locking then some i
  else match (s.loop i).code with
    | some (.runInLoop j _ _) => if j = i then none else some j
    | _ => none

/-- Threads wait for each other. -/
def Deadlocked (s : Loops ι) : Prop := Mutex.Deadlocked s.wants s.mtx

/-- The function that a loop takes from its queue posts to other loops only along `R`. -/
def PostsAlong (R : ι → ι → Prop) (s : Loops ι) : LoopStep ι → Prop
  | .front i => ∀ fn, (s.loop i).fns.head? = some fn → ∀ j, fn.Posts i j → R i j
  | _ => True

end Loops

end HttpNest
