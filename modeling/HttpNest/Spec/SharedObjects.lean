import HttpNest.Lib.EventRun
import HttpNest.Lib.SharedHeap
import HttpNest.Spec.TcpClient

/-!
# Who keeps a connection

`contexts_` of a connection keeps its `HttpContext`, and that keeps the connection. Besides, a
connection of an `HttpServer` is kept by `connections_`, the one of an `HttpClient` by
`tcpClient_`, and both by `channels_` while they are registered. All other references (the vector
of `Poll`, arguments of callbacks, copies that other threads have, the results of `GetContext`)
are counted in `kept`. `Connect` keeps nothing: its function captures `this`.

What has no owner behind an event is destroyed before the next one. The close callback of an
`HttpClient` is that of its user, who may keep and release references but leaves `contexts_` alone.
-/

namespace HttpNest

/-- The connection `c`, or the `HttpContext` that has been made for it. -/
inductive SharedObject (ι : Type*)
  | connection (c : ι)
  | context (c : ι)
  deriving DecidableEq

/-- `created` are the connections that have been made, `served` those of a server, and `posted`
those of clients whose `ConnectInLoop` has not been called. `attached` are the connections whose
`contexts_` has an `HttpContext`. -/
structure SharedObjects (ι : Type*) where
  alive : Finset (SharedObject ι) := ∅
  created : Finset ι := ∅
  served : Finset ι := ∅
  posted : Finset ι := ∅
  isClosed : Finset ι := ∅
  connections : Finset ι := ∅
  tcpClients : Finset ι := ∅
  channels : Finset ι := ∅
  attached : Finset ι := ∅
  status : ι → TcpConStatus := fun _ => .kTcpConStatusInit
  kept : SharedObject ι → ℕ := fun _ => 0

inductive OwnerEvent (ι : Type*)
  /-- `TcpServer::OnAccet`, with `HttpServer::OnNewConnection` -/
  | accept (c : ι)
  /-- `HttpClient::CreateTcpClient`; `tcpClient_` was `old`. -/
  | get (old : Option ι) (c : ι)
  /-- `TcpClient::ConnectInLoop`, up to `AddChannel` -/
  | connect (c : ι)
  /-- `TcpClient::UpdateConnectionStatus`, with `HttpClient::OnConnection` -/
  | connected (c : ι)
  /-- `OnClose` of the connection -/
  | close (c : ι)
  /-- The destructor of the `HttpClient` -/
  | destroyClient (c : ι)
  | keep (o : SharedObject ι)
  | release (o : SharedObject ι)
  deriving DecidableEq

namespace SharedObjects

open SharedObject

variable {ι : Type*} [DecidableEq ι]

def heap (s : SharedObjects ι) : SharedHeap (SharedObject ι) where
  alive := s.alive
  roots
    | connection c => (if c ∈ s.connections then 1 else 0) + (if c ∈ s.tcpClients then 1 else 0) +
        (if c ∈ s.channels then 1 else 0) + s.kept (connection c)
    | context c => s.kept (context c)
  owns
    | connection c => if c ∈ s.attached then {context c} else ∅
    | context c => {connection c}

/-- The references to the connection and to its context that are in neither of them. -/
def references (s : SharedObjects ι) (c : ι) : ℕ :=
  s.heap.roots (connection c) + s.heap.roots (context c)

/-- `OnClose`: of a server's connection, with `OnConnectionClose` and `OnDestroyed`, which clears
the context, or of a `TcpClient`. -/
def onClose (s : SharedObjects ι) (c : ι) : SharedObjects ι :=
  if c ∈ s.served then
    if c ∈ s.isClosed then s
    else
      { s with
        isClosed := insert c s.isClosed
        connections := s.connections.erase c
        channels := s.channels.erase c
        attached := s.attached.erase c }
  else
    { s with
      isClosed := insert c s.isClosed
      channels :=
        if s.status c = .kTcpConStatusConnecting ∨ s.status c = .kTcpConStatusConnected then
          s.channels.erase c
        else s.channels
      status := Function.update s.status c .kTcpConStatusDisConnected }

/-- What the event does, before objects are destroyed. -/
def act (s : SharedObjects ι) : OwnerEvent ι → Option (SharedObjects ι)
  | .accept c =>
    if c ∈ s.created then none
    else
      some { s with
        alive := insert (connection c) (insert (context c) s.alive)
        created := insert c s.created
        served := insert c s.served
        connections := insert c s.connections
        channels := insert c s.channels
        attached := insert c s.attached }
  | .get old c =>
    if c ∈ s.created ∨ ¬ ∀ o ∈ old, o ∈ s.tcpClients then none
    else
      some { s with
        alive := insert (connection c) s.alive
        created := insert c s.created
        posted := insert c s.posted
        tcpClients := insert c (old.elim s.tcpClients s.tcpClients.erase) }
  | .connect c =>
    if connection c ∈ s.alive ∧ c ∈ s.posted then
      some { s with
        posted := s.posted.erase c
        channels := insert c s.channels
        status := Function.update s.status c .kTcpConStatusConnecting }
    else none
  | .connected c =>
    if connection c ∈ s.alive ∧ s.status c = .kTcpConStatusConnecting then
      some { s with
        alive := insert (context c) s.alive
        attached := insert c s.attached
        status := Function.update s.status c .kTcpConStatusConnected }
    else none
  | .close c => if connection c ∈ s.alive then some (s.onClose c) else none
  | .destroyClient c =>
    if c ∈ s.tcpClients then some { s with tcpClients := s.tcpClients.erase c } else none
  | .keep o =>
    if o ∈ s.alive then some { s with kept := Function.update s.kept o (s.kept o + 1) } else none
  | .release o =>
    if 0 < s.kept o then some { s with kept := Function.update s.kept o (s.kept o - 1) } else none

def step (s : SharedObjects ι) (e : OwnerEvent ι) : Option (SharedObjects ι) :=
  (s.act e).map fun s => { s with alive := s.heap.settle }

end SharedObjects

end HttpNest
