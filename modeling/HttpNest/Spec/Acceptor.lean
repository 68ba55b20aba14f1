import HttpNest.Spec.Channel

/-!
# `Acceptor`

The listening socket of a server in its event loop. `backlog` are the connections that wait to
be accepted, in the order in which they have arrived, and `taken` those that have left it: with
`true` by `accept`, which hands them to `acceptCb_`, and with `false` because the socket was
closed. `OnClose` opens another socket at once; where `socket` fails there, the process ends.

The channel is added before `bind` and `listen`, when epoll may take the socket for ready.
-/

namespace HttpNest

open Epoll

/-- `κ` is what a connection is. -/
structure Acceptor (κ : Type*) where
  opened : Bool := false
  backlog : List κ := []
  error : Bool := false
  hangup : Bool := false
  item : Item := {}
  phase : LoopPhase := .idle
  taken : List (κ × Bool) := []

/-- What `accept4` returns: a descriptor, or one of the errors that `OnRead` tells apart. -/
inductive AcceptAnswer
  | connection
  | eagain
  | eintr
  | other
  deriving DecidableEq, Repr

/-- `again` says whether an arrival wakes a socket up that has others waiting, and `ready`
whether epoll takes a socket for ready that is opened in the step. -/
inductive AcceptorEvent (κ : Type*)
  | start (ready : Bool)
  | arrives (c : κ) (again : Bool)
  | fails
  | hangsUp
  | epollWait
  | handleEvent (ready : Bool)
  | accept (answer : AcceptAnswer) (ready : Bool)

namespace Acceptor

variable {κ : Type*}

/-- The socket, as epoll sees it. -/
def sock (a : Acceptor κ) : Socket where
  unread := a.backlog.length
  error := a.error
  hangup := a.hangup

/-- `Open`; the old socket is closed. -/
def openSocket (a : Acceptor κ) (ready : Bool) : Acceptor κ where
  opened := true
  item := ({} : Item).ctl kEventRead ({ writable := ready, hangup := ready } : Socket).ready
  taken := a.taken ++ a.backlog.map fun c => (c, false)

/-- What the kernel can answer. -/
def Answers (a : Acceptor κ) : AcceptAnswer → Prop
  | .connection => a.backlog ≠ []
  | .eagain => a.backlog = []
  | .eintr | .other => True

instance (a : Acceptor κ) : DecidablePred a.Answers
  | .connection => inferInstanceAs (Decidable (a.backlog ≠ []))
  | .eagain => inferInstanceAs (Decidable (a.backlog = []))
  | .eintr | .other => isTrue trivial

/-- One turn of the loop in `OnRead`. -/
def acceptTurn (a : Acceptor κ) (answer : AcceptAnswer) (ready : Bool) : Acceptor κ :=
  match answer, a.backlog with
  | .connection, c :: cs => { a with backlog := cs, taken := a.taken ++ [(c, true)] }
  | .other, _ => a.openSocket ready
  | _, _ => { a with phase := .idle }

/-- `HandleEvent`; `OnError` and `OnClose` are `Stop` and `Open`. -/
def dispatch (a : Acceptor κ) (ready : Bool) : Option Handler → Acceptor κ
  | some .onError | some .onClose => a.openSocket ready
  | some .onRead => { a with phase := .reading }
  | some .onWrite | none => { a with phase := .idle }

def step (a : Acceptor κ) : AcceptorEvent κ → Option (Acceptor κ)
  | .start ready => if a.opened = false then some (a.openSocket ready) else none
  | .arrives c again =>
    if a.opened = true then
      some { a with
        backlog := a.backlog ++ [c], item := a.item.wake (a.sock.wakes (.arrives 1 again)) }
    else none
  | .fails =>
    if a.opened = true then some { a with error := true, item := a.item.wake (a.sock.wakes .fails) }
    else none
  | .hangsUp =>
    if a.opened = true then
      some { a with hangup := true, item := a.item.wake (a.sock.wakes .hangsUp) }
    else none
  | .epollWait =>
    if a.phase = .idle ∧ a.item.queued = true then
      let (revents, item) := a.item.wait a.sock.ready
      some { a with item := item, phase := if revents = ∅ then .idle else .handed revents }
    else none
  | .handleEvent ready =>
    match a.phase with
    | .handed revents => some (a.dispatch ready (HttpNest.handleEvent revents))
    | _ => none
  | .accept answer ready =>
    if a.phase = .reading ∧ a.Answers answer then some (a.acceptTurn answer ready) else none

/-- A connection that waits while no handler is running has a notification pending. -/
def Noticed (a : Acceptor κ) : Prop :=
  a.phase = .idle → a.backlog ≠ [] →
    a.item.queued = true ∧ .epollin ∈ (a.item.wait a.sock.ready).1

/-- `accept4` is not interrupted while a connection waits that nothing else tells of. -/
def Uninterrupted (a : Acceptor κ) : AcceptorEvent κ → Prop
  | .accept .eintr _ => a.phase = .reading → a.backlog ≠ [] → a.item.queued = true
  | _ => True

/-- The connections that have arrived. -/
def arrived (es : List (AcceptorEvent κ)) : List κ :=
  es.filterMap fun
    | .arrives c _ => some c
    | _ => none

/-- The event can make the acceptor open another socket. -/
def Disturbs : AcceptorEvent κ → Prop
  | .fails | .hangsUp | .accept .other _ => True
  | _ => False

end Acceptor

end HttpNest
