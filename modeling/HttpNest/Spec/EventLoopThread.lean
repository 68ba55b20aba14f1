import HttpNest.Lib.Progress

/-!
# `EventLoopThread`

One object with its own thread, the worker, and the threads that call `Run`, one of which
destroys it. The worker executes `StartEventLoop`: it locks `mtx_`, waits on `condition_` until
`isRunning_`, makes its loop known, and runs it, all of this with `mtx_` locked. `Run` is
`call_once`: one caller tells the worker to go on and waits for the promise, and callers that
come in the meantime wait for this one.

`condition_.wait` may return without a notification. Loads and stores are taken to happen one
after the other, `isLooping_` and `loop_` among them, which are no atomics. The members that are
declared behind `thread_` are there when the worker gets to them. The turns of `Loop()` are what
can be seen of them here.
-/

namespace HttpNest

/-- Where the worker is in `StartEventLoop`, and in `Loop()`. -/
inductive WorkerPlace
  /-- Before it locks `mtx_`. -/
  | starting
  /-- At the test of `isRunning_`. -/
  | testing
  /-- In `condition_.wait`, with `mtx_` unlocked. -/
  | sleeping (notified : Bool)
  /-- Woken up, before it locks `mtx_` again. -/
  | waking
  | settingLoop
  | settingValue
  /-- In `Loop()`, before `isLooping_ = true`. -/
  | entering
  | looping
  /-- Behind `Loop()`. -/
  | clearing
  | unlocking
  | ended
  deriving DecidableEq, Repr

/-- `notify_all` -/
def WorkerPlace.notify : WorkerPlace → WorkerPlace
  | .sleeping _ => .sleeping true
  | w => w

/-- Where a thread is in `Run`, and behind it in the destructor. -/
inductive CallerPlace
  | outside
  /-- In the function that is called once: at the lock, at `isRunning_ = true`, at the
  notification, at the end of the block, and at `f.get()`. -/
  | locking
  | telling
  | notifying
  | unlocking
  | getting
  /-- At `call_once`, while another thread executes the function. -/
  | blocked
  | returned
  /-- In the destructor: at `loop_->Quit()`, at `join`, and at its end. -/
  | quitting
  | joining
  | destroyed
  deriving DecidableEq, Repr

/-- `once_`; `active` is the thread that executes the function. -/
inductive OnceFlag (ι : Type*)
  | fresh
  | active (i : ι)
  | done
  deriving DecidableEq

/-- The owner of `mtx_`. -/
inductive MtxOwner (ι : Type*)
  | worker
  | caller (i : ι)
  deriving DecidableEq

/-- `loop` says that `loop_` is not null, `promise` that the value has been set, and `destroyer`
is the thread that has called the destructor. -/
structure EventLoopThread (ι : Type*) where
  worker : WorkerPlace := .starting
  caller : ι → CallerPlace := fun _ => .outside
  mtx : Option (MtxOwner ι) := none
  isRunning : Bool := false
  loop : Bool := false
  promise : Bool := false
  isLooping : Bool := false
  once : OnceFlag ι := .fresh
  destroyer : Option ι := none

inductive ThreadStep (ι : Type*)
  /-- The next step of the worker. -/
  | work
  /-- A turn of `Loop()`, and a wake-up without a notification. -/
  | turn
  | wakeSpuriously
  /-- `Run` is called, or returns from `call_once` to a thread that has waited there. -/
  | run (i : ι)
  | resume (i : ι)
  /-- The next step in the function that is called once. -/
  | call (i : ι)
  /-- The destructor is called, which calls `Run`; and its next step behind that. -/
  | destroy (i : ι)
  | finish (i : ι)
  deriving DecidableEq

namespace EventLoopThread

variable {ι : Type*} [DecidableEq ι]

def setCaller (s : EventLoopThread ι) (i : ι) (p : CallerPlace) : EventLoopThread ι :=
  { s with caller := Function.update s.caller i p }

/-- `lk` is locked where `mtx_` is free. -/
def workerLock (s : EventLoopThread ι) : Option (EventLoopThread ι) :=
  if s.mtx = none then some { s with worker := .testing, mtx := some .worker } else none

def work (s : EventLoopThread ι) : Option (EventLoopThread ι) :=
  match s.worker with
  | .starting => s.workerLock
  | .testing =>
    if s.isRunning then some { s with worker := .settingLoop }
    else some { s with worker := .sleeping false, mtx := none }
  | .sleeping notified => if notified then some { s with worker := .waking } else none
  | .waking => s.workerLock
  | .settingLoop => some { s with worker := .settingValue, loop := true }
  | .settingValue => some { s with worker := .entering, promise := true }
  | .entering => some { s with worker := .looping, isLooping := true }
  | .looping => if s.isLooping then none else some { s with worker := .clearing }
  | .clearing => some { s with worker := .unlocking, loop := false }
  | .unlocking => some { s with worker := .ended, mtx := none }
  | .ended => none

/-- The function that is called once, by the thread `i`. -/
def callOnce (s : EventLoopThread ι) (i : ι) : Option (EventLoopThread ι) :=
  match s.caller i with
  | .locking =>
    if s.mtx = none then some ({ s with mtx := some (.caller i) }.setCaller i .telling) else none
  | .telling => some ({ s with isRunning := true }.setCaller i .notifying)
  | .notifying => some ({ s with worker := s.worker.notify }.setCaller i .unlocking)
  | .unlocking => some ({ s with mtx := none }.setCaller i .getting)
  | .getting => if s.promise then some ({ s with once := .done }.setCaller i .returned) else none
  | _ => none

/-- `~EventLoopThread`, behind `Run`. -/
def finishDestroy (s : EventLoopThread ι) (i : ι) : Option (EventLoopThread ι) :=
  match s.caller i with
  | .returned => some (s.setCaller i (if s.loop then .quitting else .joining))
  | .quitting => some ({ s with isLooping := false }.setCaller i .joining)
  | .joining => if s.worker = .ended then some (s.setCaller i .destroyed) else none
  | _ => none

/-- The object is used only by the thread that destroys it, and by this one alone when it
does. -/
def step [Fintype ι] (s : EventLoopThread ι) : ThreadStep ι → Option (EventLoopThread ι)
  | .work => s.work
  | .turn => if s.worker = .looping ∧ s.isLooping = true then some s else none
  | .wakeSpuriously =>
    match s.worker with
    | .sleeping _ => some { s with worker := .waking }
    | _ => none
  | .run i =>
    if s.caller i = .outside ∧ (s.destroyer = none ∨ s.destroyer = some i) then
      match s.once with
      | .fresh => some ({ s with once := .active i }.setCaller i .locking)
      | .active _ => some (s.setCaller i .blocked)
      | .done => some (s.setCaller i .returned)
    else none
  | .resume i =>
    if s.caller i = .blocked ∧ s.once = .done then some (s.setCaller i .returned) else none
  | .call i => s.callOnce i
  | .destroy i =>
    if s.destroyer = none ∧ ∀ j, s.caller j = .outside ∨ s.caller j = .returned then
      some { s with destroyer := some i }
    else none
  | .finish i => if s.destroyer = some i then s.finishDestroy i else none

/-- What is waited for in `Run`, or in the destructor. -/
def InRun (p : CallerPlace) : Prop :=
  p = .locking ∨ p = .telling ∨ p = .notifying ∨ p = .unlocking ∨ p = .getting ∨ p = .blocked

instance (p : CallerPlace) : Decidable (InRun p) := inferInstanceAs (Decidable (_ ∨ _))

end EventLoopThread

end HttpNest
