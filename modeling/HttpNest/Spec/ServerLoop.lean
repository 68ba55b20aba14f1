import HttpNest.Lib.EventRun

/-!
# The owners of connections

An event loop with a `TcpServer`, and other threads that hold references to its connections.
The owners of a connection are `connections_`, `channels_`, the vector that `Poll` has
returned, which lives until the end of the loop's body, the arguments of the callbacks that are
being called, what the callbacks of the loop have kept, and the references of the other threads.
The `weak_ptr` of a `TimeoutEntry` is none, and neither is a function that `Send` or `ForceClose`
has posted: it captures `this`.

A handler, a posted function or a callback of a timer is a call of the loop (`calling`), in
which connections are accepted, closed, kept and shared. A connection calls a callback with
`shared_from_this()`, which is dropped when the callback returns; a `Callback` is such a call.
Behind `closeCb_` the connection closes its descriptor in `OnClose`, and needs an owner for that.

`RunFuctions` holds `mtx_` while it empties the queue, so nothing is posted meanwhile.
The last reference cannot be dropped by another thread: the destructor calls `OnClose`, and
`AssertInLoopThread` there calls `exit`.
-/

namespace HttpNest

variable {ι : Type*}

/-- A function in `fns_`; `other` is not one of a connection. -/
inductive Posted (ι : Type*)
  | send (c : ι)
  | forceClose (c : ι)
  | other
  deriving DecidableEq, Repr

/-- The connection whose `this` the function has captured. -/
def Posted.this : Posted ι → Option ι
  | send c | forceClose c => some c
  | other => none

/-- A callback that has not returned, and the connection of its argument. `closing` is `closeCb_`,
called by `OnClose`. -/
inductive Callback (ι : Type*)
  | callback (c : ι)
  | closing (c : ι)
  deriving DecidableEq, Repr

/-- The connection that the argument keeps. -/
def Callback.con : Callback ι → ι
  | callback c | closing c => c

/-- Where the loop's body is. -/
inductive LoopPart
  | poll
  | handleEvents
  | runFuctions
  | onTimer
  deriving DecidableEq, Repr

/-- `batch` is the vector of `Loop`, and `todo` those of its channels that have not been
handled. `running` is the function that `RunFuctions` is calling, and `frames` are the callbacks
in a call, the innermost first. `kept` and `refs` count the references of the callbacks and of
other threads. -/
structure ServerLoop (ι : Type*) where
  part : LoopPart := .poll
  calling : Bool := false
  running : Option (Posted ι) := none
  frames : List (Callback ι) := []
  todo : List ι := []
  fns : List (Posted ι) := []
  accepted : Finset ι := ∅
  isClosed : Finset ι := ∅
  connections : Finset ι := ∅
  channels : Finset ι := ∅
  batch : List ι := []
  kept : ι → ℕ := fun _ => 0
  refs : ι → ℕ := fun _ => 0

inductive ServerLoopStep (ι : Type*)
  /-- `Poll` finds connections ready. -/
  | poll (ready : List ι)
  /-- `HandleEvent` of the next connection in the vector, or of another channel. -/
  | handleEvent
  | handleOther
  | runFuctions
  /-- `RunFuctions` calls the function in front. -/
  | front
  | onTimer
  /-- `OnTimer` calls a callback, or destroys an entry. -/
  | timer
  /-- The end of the loop's body. -/
  | next
  /-- The call of the loop returns. -/
  | ret
  /-- A connection calls a callback, and the innermost callback returns. -/
  | enter (c : ι)
  | leave
  /-- What happens in a call. -/
  | accept (c : ι)
  | close (c : ι)
  | keep (c : ι)
  | release (c : ι)
  | share (c : ι)
  /-- What another thread does. -/
  | copy (c : ι)
  | post (fn : Posted ι)
  | drop (c : ι)

namespace ServerLoop

variable [DecidableEq ι]

/-- The reference count. -/
def owners (s : ServerLoop ι) (c : ι) : ℕ :=
  (if c ∈ s.connections then 1 else 0) + (if c ∈ s.channels then 1 else 0) +
    s.batch.count c + (s.frames.map Callback.con).count c + s.kept c + s.refs c

/-- `TcpConnection::OnClose` up to the end of `OnConnectionClose`, where `destroyConnectionCb_` is
called. What an object that is not there any more does is left open: it changes no owner. -/
def onClose (s : ServerLoop ι) (c : ι) : ServerLoop ι :=
  if c ∈ s.isClosed ∨ s.owners c = 0 then s
  else
    { s with
      isClosed := insert c s.isClosed
      frames := .closing c :: s.frames
      connections := s.connections.erase c
      channels := s.channels.erase c }

/-- `f()`, up to the callbacks in it; `SendInLoop` closes nothing. -/
def execute (s : ServerLoop ι) : Posted ι → ServerLoop ι
  | .forceClose c => s.onClose c
  | _ => s

def addKept (s : ServerLoop ι) (c : ι) : ServerLoop ι :=
  { s with kept := Function.update s.kept c (s.kept c + 1) }

def addRef (s : ServerLoop ι) (c : ι) : ServerLoop ι :=
  { s with refs := Function.update s.refs c (s.refs c + 1) }

/-- The call is in a callback, a handler or a function of somebody else. A function that `Send` or
`ForceClose` has posted does nothing by itself but to call its connection. -/
def Open (s : ServerLoop ι) : Prop := s.frames ≠ [] ∨ ∀ fn ∈ s.running, fn.this = none

instance (s : ServerLoop ι) : Decidable s.Open :=
  inferInstanceAs (Decidable (_ ∨ ∀ fn, s.running = some fn → fn.this = none))

/-- The steps between the calls. -/
def bodyStep (s : ServerLoop ι) : ServerLoopStep ι → Option (ServerLoop ι)
  | .poll ready =>
    if s.part = .poll ∧ ready.Nodup ∧ ∀ c ∈ ready, c ∈ s.channels then
      some { s with part := .handleEvents, batch := ready, todo := ready }
    else none
  | .handleEvent =>
    match s.part, s.todo with
    | .handleEvents, _ :: todo => some { s with todo := todo, calling := true }
    | _, _ => none
  | .handleOther => if s.part = .handleEvents then some { s with calling := true } else none
  | .runFuctions =>
    if s.part = .handleEvents ∧ s.todo = [] then some { s with part := .runFuctions } else none
  | .front =>
    -- `pop` is behind the call, but nobody sees the queue before
    match s.part, s.fns with
    | .runFuctions, fn :: fns =>
      some ({ s with fns := fns, calling := true, running := some fn }.execute fn)
    | _, _ => none
  | .onTimer =>
    if s.part = .runFuctions ∧ s.fns = [] then some { s with part := .onTimer } else none
  | .timer => if s.part = .onTimer then some { s with calling := true } else none
  | .next => if s.part = .onTimer then some { s with part := .poll, batch := [] } else none
  | _ => none

/-- The steps in a call. -/
def callStep (s : ServerLoop ι) : ServerLoopStep ι → Option (ServerLoop ι)
  | .ret => if s.frames = [] then some { s with calling := false, running := none } else none
  | .enter c =>
    -- `SendInLoop` calls `writeCompleteCb_`
    if (s.Open ∨ s.running = some (.send c)) ∧ 0 < s.owners c then
      some { s with frames := .callback c :: s.frames }
    else none
  | .leave =>
    match s.frames with
    | _ :: frames => some { s with frames := frames }
    | [] => none
  | .accept c =>
    -- `OnAccet` has a reference of its own until `newConnectionCb_` has returned
    if s.Open ∧ c ∉ s.accepted then
      some { s with
        accepted := insert c s.accepted
        frames := .callback c :: s.frames
        connections := insert c s.connections
        channels := insert c s.channels }
    else none
  | .close c => if s.Open ∧ 0 < s.owners c then some (s.onClose c) else none
  | .keep c => if s.Open ∧ 0 < s.owners c then some (s.addKept c) else none
  | .release c =>
    if 0 < s.kept c then some { s with kept := Function.update s.kept c (s.kept c - 1) } else none
  | .share c => if s.Open ∧ 0 < s.owners c then some (s.addRef c) else none
  | _ => none

/-- The steps of other threads. -/
def otherStep (s : ServerLoop ι) : ServerLoopStep ι → Option (ServerLoop ι)
  | .copy c => if 0 < s.refs c then some (s.addRef c) else none
  | .post fn =>
    if s.part ≠ .runFuctions ∧ ∀ c ∈ fn.this, 0 < s.refs c then
      some { s with fns := s.fns ++ [fn] }
    else none
  | .drop c =>
    if 0 < s.refs c ∧ 1 < s.owners c then
      some { s with refs := Function.update s.refs c (s.refs c - 1) }
    else none
  | _ => none

def step (s : ServerLoop ι) (e : ServerLoopStep ι) : Option (ServerLoop ι) :=
  match e with
  | .copy _ | .post _ | .drop _ => s.otherStep e
  | .ret | .enter _ | .leave | .accept _ | .close _ | .keep _ | .release _ | .share _ =>
    if s.calling = true then s.callStep e else none
  | _ => if s.calling = true then none else s.bodyStep e

/-- The posted function that is in the `OnClose` of its connection, if that goes on when the
innermost callback returns. -/
def resumed (s : ServerLoop ι) : Option (Posted ι) :=
  match s.frames with
  | .closing c :: _ => s.running.filter fun fn => fn.this = some c
  | _ => none

/-- The function that the step calls has an object, and so has one that goes on in `OnClose`. -/
def Owned (s : ServerLoop ι) : ServerLoopStep ι → Prop
  | .front => s.part = .runFuctions → s.calling = false →
      ∀ fn ∈ s.fns.head?, ∀ c ∈ fn.this, 0 < s.owners c
  | .leave => ∀ t, s.step .leave = some t → ∀ fn ∈ s.resumed, ∀ c ∈ fn.this, 0 < t.owners c
  | _ => True

/-! ## The condition -/

/-- The references to `c` that a step drops. What `OnClose` drops are not the last ones, as
`closeCb_` has one in its argument. -/
def drops (s : ServerLoop ι) (c : ι) : ServerLoopStep ι → ℕ
  | .leave => if (s.frames.map Callback.con).head? = some c then 1 else 0
  | .release k | .drop k => if k = c then 1 else 0
  | .next => s.batch.count c
  | _ => 0

/-- The queue behind the step, up to what it adds. -/
def queued (s : ServerLoop ι) : ServerLoopStep ι → List (Posted ι)
  | .front => s.fns.tail
  | _ => s.fns

/-- The functions that need their connections behind the step: those in the queue, and one that
goes on in `OnClose`. -/
def behind (s : ServerLoop ι) : ServerLoopStep ι → List (Posted ι)
  | .leave => s.resumed.toList ++ s.fns
  | e => s.queued e

/-- The last reference to a connection is not dropped while a function of it is in the queue, or
has still to close the descriptor. For a `drop` of another thread this is always so. -/
def Held (s : ServerLoop ι) (e : ServerLoopStep ι) : Prop :=
  (s.step e).isSome → ∀ fn ∈ s.behind e, ∀ c ∈ fn.this, s.drops c e < s.owners c

end ServerLoop

end HttpNest
