import HttpNest.Lib.AnsweredLoop
import HttpNest.Spec.BufferOps
import HttpNest.Spec.TcpConnection

/-!
# `UdpSocket`

`sendInLoop` and `sendListInLoop` are what the two `Send`s run on the loop's thread;
`onWriteTurn` is a turn of the loop in `OnWrite`. A function that calls `sendto` takes its
`Answer`.

A `UdpRun` is a socket with two histories: the datagrams that `sendto` has taken, and those
that have been passed to `Send`.

A `UdpReader` is what `OnRead` works on: the message buffer, which is one of a family of
buffers that a callback can use, and whether the callback is running.
-/

namespace HttpNest

open AnsweredLoop

/-- `UdpBufferNode`, and the arguments of a `sendto`. -/
structure UdpBufferNode where
  addr : BitVec 64
  size : ℕ
  sockAddr : BitVec 64
  sockLen : ℕ
  deriving DecidableEq, Repr

structure UdpSocket where
  isClosed : Bool := false
  bufferList : List UdpBufferNode := []
  deriving DecidableEq, Repr

/-- `sendto` takes a datagram whole, or fails. -/
def Answer.SendTo (node : UdpBufferNode) : Answer → Prop
  | .count n => n = node.size
  | .error _ => True

instance (node : UdpBufferNode) : DecidablePred (Answer.SendTo node)
  | .count _ => inferInstanceAs (Decidable (_ = _))
  | .error _ => inferInstanceAs (Decidable True)

/-- The datagram has been taken. -/
def Answer.success : Answer → Bool
  | .count _ => true
  | .error _ => false

namespace UdpSocket

def onClose (s : UdpSocket) : UdpSocket × List Effect :=
  if s.isClosed then (s, []) else ({ s with isClosed := true }, [.close])

/-- `SendInLoop(buf, size, saddr, len)`; `answer` is the kernel's to the `sendto`, if there is
one. -/
def sendInLoop (s : UdpSocket) (node : UdpBufferNode) (answer : Answer) :
    UdpSocket × List Effect :=
  let taken := match answer with
    | .count n => decide (n > 0)
    | .error _ => false
  if s.bufferList = [] ∧ taken = true then (s, [])
  else ({ s with bufferList := s.bufferList ++ [node] }, [.enableWriting true])

/-- `SendInLoop(list)` -/
def sendListInLoop (s : UdpSocket) (list : List UdpBufferNode) : UdpSocket × List Effect :=
  let s := { s with bufferList := s.bufferList ++ list }
  (s, if s.bufferList = [] then [] else [.enableWriting true])

/-- One turn of the loop in `OnWrite`; the flag says whether the loop goes on. -/
def onWriteTurn (s : UdpSocket) (answer : Answer) : UdpSocket × List Effect × Bool :=
  match s.bufferList, answer with
  | [], _ => (s, [.writeComplete], false)
  | _ :: rest, .count n =>
    let s := if n > 0 then { s with bufferList := rest } else s
    if s.bufferList = [] then (s, [.writeComplete], false) else (s, [], true)
  | _ :: _, .error e =>
    if e.transient then (s, [], false) else (s.onClose.1, s.onClose.2, false)

/-- A turn without its effects. -/
def writeTurn (s : UdpSocket) (answer : Answer) : Option (UdpSocket × Bool) :=
  some ((s.onWriteTurn answer).1, (s.onWriteTurn answer).2.2)

/-- The answers are those of `sendto` to the datagrams that it is given. -/
def Answered (s : UdpSocket) (answers : ℕ → Answer) : Prop :=
  Lawful writeTurn (fun s a => ∀ node ∈ s.bufferList.take 1, a.SendTo node) answers (s, true)

/-- The loop of `OnWrite`, entered with this queue, is left under all answers. -/
def Returns (s : UdpSocket) : Prop :=
  ∀ answers, s.Answered answers → ∃ k t, after writeTurn answers (s, true) k = some (t, false)

end UdpSocket

/-! ## Runs -/

structure UdpRun where
  socket : UdpSocket := {}
  writing : Bool := false
  passed : List UdpBufferNode := []
  sent : List UdpBufferNode := []
  deriving DecidableEq

/-- `answer` is what `sendto` answers, if it is called. -/
inductive UdpEvent
  | send (node : UdpBufferNode) (answer : Answer)
  | sendList (list : List UdpBufferNode)
  | onWrite
  | sendTo (answer : Answer)

namespace UdpRun

/-- One event on an open socket: a `Send`, the begin of `OnWrite`, or a turn of its loop. -/
def step (s : UdpRun) : UdpEvent → Option UdpRun
  | .send node answer =>
    if s.socket.isClosed = false ∧ s.writing = false ∧ answer.SendTo node then
      some { s with
        socket := (s.socket.sendInLoop node answer).1
        passed := s.passed ++
          if s.socket.bufferList = [] ∧ answer.success = true then [node] else []
        sent := s.sent ++ [node] }
    else none
  | .sendList list =>
    if s.socket.isClosed = false ∧ s.writing = false then
      some { s with socket := (s.socket.sendListInLoop list).1, sent := s.sent ++ list }
    else none
  | .onWrite =>
    if s.socket.isClosed = false ∧ s.writing = false then some { s with writing := true } else none
  | .sendTo answer =>
    if s.writing = true ∧ ∀ node ∈ s.socket.bufferList.take 1, answer.SendTo node then
      some { s with
        socket := (s.socket.onWriteTurn answer).1
        writing := (s.socket.onWriteTurn answer).2.2
        passed := s.passed ++ if answer.success then s.socket.bufferList.take 1 else [] }
    else none

end UdpRun

/-! ## Receiving -/

/-- `messageBufferSize_` -/
def messageBufferSize : ℕ := 65535

/-- The buffers in use, and whether `messageCb_` has the message buffer. -/
structure UdpReader (ι : Type) where
  pool : Pool ι
  inCallback : Bool := false

/-- A datagram that `recvfrom` delivers, a call that `messageCb_` makes on a buffer, and its
return, which `RetrieveAll` follows. -/
inductive UdpReadEvent (ι : Type)
  | recvfrom (data : Bytes)
  | callback (op : Op ι)
  | returns

variable {ι : Type} [DecidableEq ι]

/-- The operation swaps the buffer `i`. -/
def Op.Swaps (i : ι) : Op ι → Prop
  | .swap j k => j = i ∨ k = i
  | _ => False

instance (i : ι) : DecidablePred (Op.Swaps i)
  | .swap _ _ => inferInstanceAs (Decidable (_ ∨ _))
  | .append _ _ | .appendBuffer _ _ | .appendInt _ _ _ | .addInFront _ _ | .addInFrontInt _ _ _
  | .retrieve _ _ | .retrieveUntil _ _ | .retrieveAll _ | .read _ _ | .readInt _ _
  | .ensureWritableBytes _ _ | .hasWritten _ _ | .unwrite _ _ | .readFd _ _ | .readFdError _ =>
    inferInstanceAs (Decidable False)

namespace UdpReader

/-- A new socket, whose message buffer is the buffer `i`. -/
def start (L : ι → ℕ) : UdpReader ι := { pool := .init L }

/-- One event; `i` is the message buffer. `none` where `recvfrom` writes outside the vector. -/
def step (e : ByteOrder.Endian) (i : ι) (s : UdpReader ι) : UdpReadEvent ι → Option (UdpReader ι)
  | .recvfrom data =>
    if s.inCallback = false ∧ 0 < data.length ∧ data.length ≤ messageBufferSize then
      ((s.pool.buf i).fill data).map fun b =>
        { pool := s.pool.set i (b.hasWritten data.length), inCallback := true }
    else none
  | .callback op =>
    if s.inCallback = true ∧ op.Allowed s.pool ∧ ¬ op.Swaps i then
      (op.step e s.pool).map fun pool => { s with pool := pool }
    else none
  | .returns =>
    if s.inCallback = true then
      some { pool := s.pool.set i (s.pool.buf i).retrieveAll, inCallback := false }
    else none

end UdpReader

end HttpNest
