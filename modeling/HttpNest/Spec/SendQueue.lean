import HttpNest.Lib.EventRun
import HttpNest.Spec.TcpConnection

/-!
# Runs of a connection that sends

A `SendQueue` is a connection with two histories: the bytes that the kernel has
accepted, and the buffers that have been passed to `Send` while the connection was
open. A step is a call of `Send`, the begin of `OnWrite`, or one `writev` of its loop,
so that the states between two `writev` calls are moments of a run too.

The callbacks run at the end of `SendInLoop` and `OnWrite`: a `Send` from one of them is
the next step.
-/

namespace HttpNest

abbrev Memory := BitVec 64 → UInt8

/-- The bytes at `base`. -/
def Memory.load (mem : Memory) (base : BitVec 64) (n : ℕ) : List UInt8 :=
  (List.range n).map fun i => mem (base + BitVec.ofNat 64 i)

/-- The bytes that an `iovec` describes. -/
def Iovec.bytes (mem : Memory) (v : Iovec) : List UInt8 := mem.load v.iovBase v.iovLen.toNat

/-- The bytes that a list of `iovec`s describes. -/
def iovecBytes (mem : Memory) (vs : List Iovec) : List UInt8 := (vs.map (Iovec.bytes mem)).flatten

structure SendQueue where
  conn : TcpConnection := {}
  writing : Bool := false
  accepted : List UInt8 := []
  sent : List UInt8 := []

/-- `answer` is what the kernel answers, if the call comes to a `write`. -/
inductive SendEvent
  | send (buf size : BitVec 64) (answer : Answer)
  | sendList (list : List Iovec)
  | onWrite
  | writev (answer : Answer)
  | close

namespace SendQueue

/-- The kernel takes what it says from the front of what it is offered. -/
def take (offered : List UInt8) : Answer → List UInt8
  | .count n => offered.take n
  | .error _ => []

/-- Does `Send` write directly? -/
def Direct (s : SendQueue) : Prop :=
  s.writing = false ∧ s.conn.isClosed = false ∧ s.conn.iovecList = []

instance (s : SendQueue) : Decidable s.Direct := inferInstanceAs (Decidable (_ ∧ _ ∧ _))

def step (mem : Memory) (s : SendQueue) : SendEvent → Option SendQueue
  | .send buf size answer =>
    if s.writing = false ∧ answer.Valid size.toNat then
      some { s with
        conn := (s.conn.sendInLoop buf size answer).1
        accepted := s.accepted ++ if s.Direct then take (mem.load buf size.toNat) answer else []
        sent := s.sent ++ if s.conn.isClosed then [] else mem.load buf size.toNat }
    else none
  | .sendList list =>
    if s.writing = false then
      some { s with
        conn := (s.conn.sendListInLoop list).1
        sent := s.sent ++ if s.conn.isClosed then [] else iovecBytes mem list }
    else none
  | .onWrite =>
    if s.writing = false then
      some { s with conn := s.conn.onWrite.1, writing := s.conn.onWrite.2.2 }
    else none
  | .writev answer =>
    if s.writing = true ∧ answer.Valid (TcpConnection.iovecSize s.conn.iovecList) then
      (s.conn.onWriteTurn answer).map fun r =>
        { s with
          conn := r.1, writing := r.2.2
          accepted := s.accepted ++ take (iovecBytes mem s.conn.iovecList) answer }
    else none
  | .close =>
    if s.writing = false then some { s with conn := s.conn.onClose.1 } else none

end SendQueue

end HttpNest
