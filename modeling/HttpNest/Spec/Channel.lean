import HttpNest.Lib.Epoll
import HttpNest.Lib.EventRun
import HttpNest.Spec.TcpConnection

/-!
# A connection in its event loop

`Channel` is a connection together with its socket, its epoll item and what its loop is
doing with it: `idle`, `handed` a notification that `HandleEvent` has not taken up yet, or
inside the loop of `OnRead` or `OnWrite`. `event_` is always what has been registered
last, and is kept in the item.

A step is a kernel event, an `epoll_wait`, a `HandleEvent`, one turn of one of the loops,
or a call from other code: a callback of this connection inside `OnRead`, or any code of
the loop between handlers. The callbacks at the end of `OnWrite` and `SendInLoop` are the
step after them.
-/

namespace HttpNest

open Epoll

/-- `EPOLLIN|EPOLLPRI|EPOLLET` -/
def kEventRead : Finset Flag := {.epollin, .epollpri, .epollet}

/-- `EPOLLOUT|EPOLLET` -/
def kEventWrite : Finset Flag := {.epollout, .epollet}

inductive LoopPhase
  | idle
  | handed (revents : Finset Flag)
  | reading
  | writing
  deriving DecidableEq

structure Channel where
  conn : TcpConnection := {}
  sock : Socket := {}
  item : Item := {}
  phase : LoopPhase := .idle
  deriving DecidableEq

/-- The virtual functions that `HandleEvent` calls. -/
inductive Handler
  | onError
  | onClose
  | onRead
  | onWrite
  deriving DecidableEq, Repr

/-- `HandleEvent`, as far as `revents_` decides it. -/
def handleEvent (revents : Finset Flag) : Option Handler :=
  if .epollerr ∈ revents then some .onError
  else if .epollhup ∈ revents ∧ .epollin ∉ revents then some .onClose
  else if .epollin ∈ revents ∨ .epollpri ∈ revents then some .onRead
  else if .epollout ∈ revents then some .onWrite
  else none

/-- What the kernel can answer to a `readv`: it takes bytes that are there, and says that
nothing is there only if nothing is. The descriptor of a closed connection is `-1`. -/
def ReadAnswer (c : TcpConnection) (sock : Socket) : Answer → Prop
  | .count 0 => c.isClosed = false ∧ sock.unread = 0 ∧ sock.eof = true
  | .count n => c.isClosed = false ∧ n ≤ sock.unread
  | .error .eintr => c.isClosed = false
  | .error (.other _) => True
  | .error _ => c.isClosed = false ∧ ¬ sock.Readable

instance (c : TcpConnection) (sock : Socket) : DecidablePred (ReadAnswer c sock)
  | .count 0 => inferInstanceAs (Decidable (_ ∧ _ ∧ _))
  | .count (_ + 1) => inferInstanceAs (Decidable (_ ∧ _))
  | .error .eintr => inferInstanceAs (Decidable (_ = _))
  | .error (.other _) => inferInstanceAs (Decidable True)
  | .error .eagain => inferInstanceAs (Decidable (_ ∧ _))
  | .error .ewouldblock => inferInstanceAs (Decidable (_ ∧ _))

/-- The socket after the answer to a `readv`. -/
def afterRead (sock : Socket) : Answer → Socket
  | .count n => { sock with unread := sock.unread - n }
  | .error _ => sock

/-- The socket after the answer to a `write` or a `writev`. -/
def afterWrite (sock : Socket) : Answer → Socket
  | .error .eagain | .error .ewouldblock => { sock with writable := false }
  | _ => sock

inductive LoopEvent
  | kernel (e : SocketEvent)
  | epollWait
  | handleEvent
  | readv (answer : Answer)
  | writev (answer : Answer)
  | send (buf size : BitVec 64) (answer : Answer)
  | sendList (list : List Iovec)
  | close

namespace Channel

/-- `EventLoop::EnableChannelWriting` -/
def enableWriting (c : Channel) (enable : Bool) : Channel :=
  { c with
    item := c.item.ctl (if enable then c.item.events ∪ kEventWrite else c.item.events \ kEventWrite)
      c.sock.ready }

/-- `EventLoop::AddChannel` -/
def addChannel (c : Channel) : Channel :=
  { c with item := c.item.ctl (c.item.events ∪ kEventRead) c.sock.ready }

/-- A new connection on a socket, added to the loop. -/
def added (sock : Socket) : Channel := { sock := sock : Channel }.addChannel

/-- What an effect of the connection does to its channel. -/
def apply (c : Channel) : Effect → Channel
  | .enableWriting enable => c.enableWriting enable
  | _ => c

/-- The channel after a function of the connection. -/
def effect (c : Channel) (r : TcpConnection × List Effect) : Channel :=
  r.2.foldl apply { c with conn := r.1 }

/-- `HandleEvent` with the functions of `TcpConnection`. -/
def dispatch (c : Channel) : Option Handler → Channel
  | some .onError | some .onClose => { c.effect c.conn.onClose with phase := .idle }
  | some .onRead => { c with phase := if c.conn.isClosed then .idle else .reading }
  | some .onWrite =>
    let (conn, effects, again) := c.conn.onWrite
    { c.effect (conn, effects) with phase := if again then .writing else .idle }
  | none => { c with phase := .idle }

/-- One turn of the loop in `OnRead`. -/
def readTurn (c : Channel) (answer : Answer) : Channel :=
  let (conn, effects, again) := c.conn.onReadTurn answer
  { { c with sock := afterRead c.sock answer }.effect (conn, effects) with
    phase := if again then .reading else .idle }

/-- One turn of the loop in `OnWrite`. -/
def writeTurn (c : Channel) (answer : Answer) : Option Channel :=
  (c.conn.onWriteTurn answer).map fun (conn, effects, again) =>
    { { c with sock := afterWrite c.sock answer }.effect (conn, effects) with
      phase := if again then .writing else .idle }

/-- `Send`, if it comes to a `write`. -/
def Direct (c : Channel) : Prop := c.conn.isClosed = false ∧ c.conn.iovecList = []

instance (c : Channel) : Decidable c.Direct := inferInstanceAs (Decidable (_ ∧ _))

def step (c : Channel) : LoopEvent → Option Channel
  | .kernel e => some { c with sock := c.sock.after e, item := c.item.wake (c.sock.wakes e) }
  | .epollWait =>
    if c.phase = .idle ∧ c.conn.isClosed = false ∧ c.item.queued = true then
      let (revents, item) := c.item.wait c.sock.ready
      some { c with item := item, phase := if revents = ∅ then .idle else .handed revents }
    else none
  | .handleEvent =>
    match c.phase with
    | .handed revents => some (c.dispatch (HttpNest.handleEvent revents))
    | _ => none
  | .readv answer =>
    if c.phase = .reading ∧ ReadAnswer c.conn c.sock answer then some (c.readTurn answer) else none
  | .writev answer =>
    if c.phase = .writing ∧ answer.Valid (TcpConnection.iovecSize c.conn.iovecList) then
      c.writeTurn answer
    else none
  | .send buf size answer =>
    if c.phase ≠ .writing ∧ answer.Valid size.toNat then
      let sock := if c.Direct then afterWrite c.sock answer else c.sock
      some ({ c with sock := sock }.effect (c.conn.sendInLoop buf size answer))
    else none
  | .sendList list =>
    if c.phase ≠ .writing then some (c.effect (c.conn.sendListInLoop list)) else none
  | .close => if c.phase ≠ .writing then some (c.effect c.conn.onClose) else none

/-- A notification that carries the flag is pending: `epoll_wait` would hand it out. -/
def Pending (c : Channel) (flag : Flag) : Prop :=
  c.item.queued = true ∧ flag ∈ (c.item.wait c.sock.ready).1

end Channel

end HttpNest
