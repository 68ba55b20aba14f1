import HttpNest.Lib.Descriptors
import HttpNest.Spec.TcpClient

/-!
# The channels of an event loop

A `Reactor` is an event loop's `Epoller` with the descriptors of the process, and all channel
objects that use the loop, of the five classes that open descriptors. The objects exist from
the beginning; a `TcpConnection` is used once, by the `accept` that makes it.

`OnClose` of a connection calls its callback before it closes the descriptor, and the
callback may do anything with any object. So it is two steps: up to the callback, after which
the object is `closing`, and `finishClose`, which is `Channel::Close`. Other callbacks are the
last thing that a function does, and are the steps after it.

A step is `none` where it cannot happen, as when the kernel does not hand out the descriptor,
and where the code calls `exit`.
-/

namespace HttpNest

open Epoll

/-- The classes. `tcpConnection` is a connection that a `TcpServer` has accepted. -/
inductive ChannelClass
  | tcpConnection
  | tcpClient
  | udpServer
  | udpClient
  | acceptor
  deriving DecidableEq, Repr

/-- The fields of all classes. `descriptors` are the serial numbers of the files that the
object has opened or been made for, and `destroyed` counts the calls of
`destroyConnectionCb_`. -/
structure ChannelObject where
  fd : ℤ := -1
  isClosed : Bool := false
  status : TcpConStatus := .kTcpConStatusInit
  connected : Bool := false
  closing : Bool := false
  accepted : Bool := false
  descriptors : List ℕ := []
  destroyed : ℕ := 0
  deriving DecidableEq

/-- `channels` is `Epoller::channels_`, `skipped` counts the calls of `AddChannel` that have
returned early, and `connections` is `TcpServer::connections_`. -/
structure Reactor (ι : Type*) where
  object : ι → ChannelObject
  channels : ℤ → Option ι := fun _ => none
  kernel : Descriptors := {}
  skipped : ℕ := 0
  connections : Finset ι := ∅

/-- `sock` is what `socket` or `accept` returns, `none` for `-1`. In `handleEvent`, `fails`
says whether the handler meets the end of the stream or an error that closes the object, and
`sock` is the descriptor with which an acceptor opens again. -/
inductive ReactorStep (ι : Type*)
  | accept (o : ι) (sock : ℤ)
  | connect (o : ι) (sock : Option ℤ) (answer : ConnectAnswer)
  | start (o : ι) (sock : Option ℤ)
  | stop (o : ι)
  | handleEvent (o : ι) (revents : Finset Flag) (fails : Bool) (sock : Option ℤ)
  | timeout (o : ι)
  | forceClose (o : ι)
  | finishClose (o : ι)

namespace Reactor

variable {ι : Type*} [DecidableEq ι]

def init : Reactor ι where
  object _ := {}

/-! ## Descriptors and `Epoller` -/

def modify (s : Reactor ι) (o : ι) (f : ChannelObject → ChannelObject) : Reactor ι :=
  { s with object := Function.update s.object o (f (s.object o)) }

/-- `fd_ = ::socket(..)`, and the same for a descriptor that `accept` returns. -/
def openDescriptor (s : Reactor ι) (o : ι) : Option ℤ → Option (Reactor ι)
  | none => some (s.modify o fun c => { c with fd := -1 })
  | some fd =>
    if s.kernel.Free fd then
      let t := s.modify o fun c =>
        { c with fd := fd, descriptors := s.kernel.next :: c.descriptors }
      some { t with kernel := s.kernel.opened fd }
    else none

/-- `Channel::Close` -/
def close (s : Reactor ι) (o : ι) : Reactor ι :=
  if 0 < (s.object o).fd then
    let t := s.modify o fun c => { c with fd := -1 }
    { t with kernel := s.kernel.close (s.object o).fd }
  else s

def addChannel (s : Reactor ι) (o : ι) : Option (Reactor ι) :=
  let fd := (s.object o).fd
  match s.channels fd with
  | some _ => some { s with skipped := s.skipped + 1 }
  | none => (s.kernel.ctlAdd fd).map fun kernel =>
    { s with kernel := kernel, channels := Function.update s.channels fd (some o) }

def removeChannel (s : Reactor ι) (o : ι) : Option (Reactor ι) :=
  let fd := (s.object o).fd
  match s.channels fd with
  | none => some s
  | some _ => (s.kernel.ctlDel fd).map fun kernel =>
    { s with kernel := kernel, channels := Function.update s.channels fd none }

def updateChannel (s : Reactor ι) (o : ι) : Option (Reactor ι) :=
  let fd := (s.object o).fd
  match s.channels fd with
  | none => some s
  | some _ => (s.kernel.ctlMod fd).map fun kernel => { s with kernel := kernel }

/-! ## `OnClose` -/

/-- `TcpServer::OnConnectionClose` -/
def onConnectionClose (s : Reactor ι) (o : ι) : Option (Reactor ι) :=
  let t := { s with connections := s.connections.erase o }
  (t.removeChannel o).map fun t => t.modify o fun c => { c with destroyed := c.destroyed + 1 }

/-- `OnClose` of `TcpConnection`, with `closeCb_` what the object has been given, and of
`UdpSocket`; up to `Channel::Close`. -/
def baseOnClose (s : Reactor ι) (o : ι) (closeCb : Reactor ι → Option (Reactor ι)) :
    Option (Reactor ι) :=
  if (s.object o).isClosed = true then some s
  else closeCb (s.modify o fun c => { c with isClosed := true, closing := true })

/-- `TcpClient::OnClose` -/
def clientOnClose (s : Reactor ι) (o : ι) : Option (Reactor ι) :=
  let removed :=
    if (s.object o).status = .kTcpConStatusConnecting ∨
        (s.object o).status = .kTcpConStatusConnected then s.removeChannel o
    else some s
  removed.bind fun s =>
    (s.modify o fun c => { c with status := .kTcpConStatusDisConnected }).baseOnClose o some

/-- `UdpClient::OnClose` -/
def udpClientOnClose (s : Reactor ι) (o : ι) : Option (Reactor ι) :=
  if (s.object o).connected = true then do
    let s ← s.removeChannel o
    let s := s.modify o fun c => { c with connected := false }
    s.baseOnClose o some
  else some s

/-- `Acceptor::Open` -/
def acceptorOpen (s : Reactor ι) (o : ι) (sock : Option ℤ) : Option (Reactor ι) :=
  match sock with
  | none => none
  | some fd => do
    let s ← (s.close o).openDescriptor o (some fd)
    s.addChannel o

/-- The virtual `OnClose`. -/
def onClose (kind : ι → ChannelClass) (s : Reactor ι) (o : ι) (sock : Option ℤ) :
    Option (Reactor ι) :=
  match kind o with
  | .tcpConnection => s.baseOnClose o fun s => s.onConnectionClose o
  | .tcpClient => s.clientOnClose o
  | .udpServer => s.baseOnClose o some
  | .udpClient => s.udpClientOnClose o
  | .acceptor => do
    let s ← s.removeChannel o
    s.acceptorOpen o sock

/-- What `OnClose` does behind its callback. -/
def finishClose (s : Reactor ι) (o : ι) : Option (Reactor ι) :=
  if (s.object o).closing = true then
    some ((s.close o).modify o fun c => { c with closing := false })
  else none

/-! ## Opening -/

/-- `TcpServer::OnAccet`, for a new connection object. -/
def accept (s : Reactor ι) (o : ι) (sock : ℤ) : Option (Reactor ι) :=
  if (s.object o).accepted = true then none
  else do
    let s ← (s.modify o fun c => { c with accepted := true }).openDescriptor o (some sock)
    let s := { s with connections := insert o s.connections }
    s.addChannel o

/-- `TcpClient::ConnectInLoop` -/
def clientConnect (s : Reactor ι) (o : ι) (sock : Option ℤ) (answer : ConnectAnswer) :
    Option (Reactor ι) := do
  let s ← s.openDescriptor o sock
  if sock = none then s.clientOnClose o
  else
    let s ← (s.modify o fun c => { c with status := .kTcpConStatusConnecting }).addChannel o
    let s ← s.updateChannel o
    match answer with
    | .connected => some (s.modify o fun c => { c with status := .kTcpConStatusConnected })
    | .inProgress => some s
    | _ => s.clientOnClose o

/-- `UdpServer::Open` -/
def udpServerOpen (s : Reactor ι) (o : ι) (sock : Option ℤ) : Option (Reactor ι) := do
  let s ← s.openDescriptor o sock
  if sock = none then s.baseOnClose o some else s.addChannel o

/-- `UdpClient::ConnectInLoop` -/
def udpClientConnect (s : Reactor ι) (o : ι) (sock : Option ℤ) : Option (Reactor ι) := do
  let s ← s.openDescriptor o sock
  if sock = none then s.udpClientOnClose o
  else (s.modify o fun c => { c with connected := true }).addChannel o

/-! ## Events -/

/-- What `OnRead` and `OnWrite` do to the registration of the object. -/
def onReady (kind : ι → ChannelClass) (s : Reactor ι) (o : ι) (handler : Handler) (fails : Bool)
    (sock : Option ℤ) : Option (Reactor ι) :=
  match kind o with
  | .tcpConnection | .udpServer | .udpClient =>
    if (s.object o).isClosed = false ∧ fails = true then s.onClose kind o sock else some s
  | .tcpClient =>
    match (s.object o).status with
    | .kTcpConStatusConnecting =>
      -- `CheckError`, or `UpdateConnectionStatus`
      if fails = true then s.onClose kind o sock
      else some (s.modify o fun c => { c with status := .kTcpConStatusConnected })
    | .kTcpConStatusConnected =>
      if (s.object o).isClosed = false ∧ fails = true then s.onClose kind o sock else some s
    | _ => some s
  | .acceptor => if handler = .onRead ∧ fails = true then s.onClose kind o sock else some s

/-- The object has been constructed. -/
def Made (kind : ι → ChannelClass) (s : Reactor ι) (o : ι) : Prop :=
  kind o = .tcpConnection → (s.object o).accepted = true

instance (kind : ι → ChannelClass) (s : Reactor ι) : DecidablePred (s.Made kind) :=
  fun _ => inferInstanceAs (Decidable (_ → _))

/-- `HandleEvent` -/
def onEvent (kind : ι → ChannelClass) (s : Reactor ι) (o : ι) (revents : Finset Flag)
    (fails : Bool) (sock : Option ℤ) : Option (Reactor ι) :=
  match HttpNest.handleEvent revents with
  | some .onError | some .onClose => s.onClose kind o sock
  | some handler => s.onReady kind o handler fails sock
  | none => some s

def step (kind : ι → ChannelClass) (s : Reactor ι) : ReactorStep ι → Option (Reactor ι)
  | .accept o sock => if kind o = .tcpConnection then s.accept o sock else none
  | .connect o sock answer =>
    match kind o with
    | .tcpClient => s.clientConnect o sock answer
    | .udpClient => s.udpClientConnect o sock
    | _ => none
  | .start o sock =>
    match kind o with
    | .udpServer => s.udpServerOpen o sock
    | .acceptor => s.acceptorOpen o sock
    | _ => none
  | .stop o =>
    match kind o with
    | .udpServer => do
      let s ← s.removeChannel o
      s.baseOnClose o some
    | .acceptor => s.removeChannel o
    | _ => none
  | .handleEvent o revents fails sock =>
    if s.Made kind o then s.onEvent kind o revents fails sock else none
  | .timeout o | .forceClose o =>
    if kind o ≠ .acceptor ∧ s.Made kind o then s.onClose kind o none else none
  | .finishClose o => s.finishClose o

end Reactor

end HttpNest
