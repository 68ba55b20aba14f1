import HttpNest.Spec.Channel

/-!
# `TcpClient`

A client is a channel and a status. While it is connecting, `OnRead` and `OnWrite` ask
the socket for an error and take the connection as established, whatever has been
reported; after that they are those of `TcpConnection`.

A run starts with `Connect`, which is called once.
-/

namespace HttpNest

open Epoll

inductive TcpConStatus
  | kTcpConStatusInit
  | kTcpConStatusConnecting
  | kTcpConStatusConnected
  | kTcpConStatusDisConnected
  deriving DecidableEq, Repr

/-- How `ConnectInLoop` ends: there is no descriptor, or `connect` returns `0`, fails with
`EINPROGRESS`, or fails. -/
inductive ConnectAnswer
  | noSocket
  | connected
  | inProgress
  | failed
  deriving DecidableEq, Repr

structure TcpClient where
  channel : Channel := {}
  status : TcpConStatus := .kTcpConStatusInit
  deriving DecidableEq

/-- `ready` says whether epoll takes the socket for ready before it is connecting. -/
inductive ClientEvent
  | connect (ready : Bool) (answer : ConnectAnswer)
  | loop (e : LoopEvent)

namespace TcpClient

/-- `OnClose` -/
def onClose (c : TcpClient) : TcpClient where
  channel := { c.channel.effect c.channel.conn.onClose with phase := .idle }
  status := .kTcpConStatusDisConnected

/-- `UpdateConnectionStatus`; its callback is the next step. -/
def updateConnectionStatus (c : TcpClient) : TcpClient where
  channel := { c.channel with phase := .idle }
  status := .kTcpConStatusConnected

/-- `CheckError` -/
def checkError (c : TcpClient) : Bool := c.channel.sock.error

/-- `ConnectInLoop` -/
def connectInLoop (c : TcpClient) (ready : Bool) (answer : ConnectAnswer) : TcpClient :=
  if answer = .noSocket then c.onClose
  else
    -- the socket as it is when it is added, and after `connect`
    let before : Socket := { writable := ready, hangup := ready }
    let after : Socket := { writable := answer = .connected }
    let channel := ({ c.channel with sock := before }.addChannel).enableWriting true
    let c : TcpClient := ⟨{ channel with sock := after }, .kTcpConStatusConnecting⟩
    match answer with
    | .connected => c.updateConnectionStatus
    | .inProgress => c
    | _ => c.onClose

/-- `OnRead` and `OnWrite` of a client that is connecting. -/
def onEstablished (c : TcpClient) : TcpClient :=
  if c.checkError then c.onClose else c.updateConnectionStatus

/-- A step of the channel; `OnClose` is virtual, and changes the status too. -/
def follow (c : TcpClient) (channel : Channel) : TcpClient where
  channel := channel
  status := if channel.conn.isClosed then .kTcpConStatusDisConnected else c.status

def step (c : TcpClient) : ClientEvent → Option TcpClient
  | .connect ready answer =>
    if c.status = .kTcpConStatusInit then some (c.connectInLoop ready answer) else none
  | .loop e =>
    if c.status = .kTcpConStatusInit then none
    else match e, c.status with
      | .handleEvent, .kTcpConStatusConnecting =>
        match c.channel.phase with
        | .handed revents =>
          match HttpNest.handleEvent revents with
          | some .onRead | some .onWrite => some c.onEstablished
          | handler => some (c.follow (c.channel.dispatch handler))
        | _ => none
      | .send _ _ _, .kTcpConStatusConnecting | .sendList _, .kTcpConStatusConnecting => some c
      | e, _ => (c.channel.step e).map c.follow

end TcpClient

end HttpNest
