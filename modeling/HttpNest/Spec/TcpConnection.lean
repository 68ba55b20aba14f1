import Mathlib

/-!
# `TcpConnection`

`sendInLoop` is what `Send` runs on the loop's thread; `onWrite` and `onWriteTurn` are
`OnWrite` up to its loop, and one turn of the loop; `onReadTurn` is a turn of the loop
in `OnRead`. The system calls are not part of the model: a function that makes one takes
its `Answer`.

The calls that leave the connection, on its channel and its callbacks, are the
`Effect`s that a function returns, in order.
-/

namespace HttpNest

/-- `struct iovec` -/
structure Iovec where
  iovBase : BitVec 64
  iovLen : BitVec 64
  deriving DecidableEq, Repr

inductive Errno
  | eintr
  | eagain
  | ewouldblock
  | other (code : ℕ)
  deriving DecidableEq, Repr

/-- `errno == EINTR || errno == EAGAIN || errno == EWOULDBLOCK` -/
def Errno.transient : Errno → Bool
  | .other _ => false
  | _ => true

/-- What a system call returns: a number of bytes, or `-1` and `errno`. -/
inductive Answer
  | count (n : ℕ)
  | error (e : Errno)
  deriving DecidableEq, Repr

namespace Answer

/-- The answers to a call that offers `offered` bytes; the result is a `ssize_t`. -/
def Valid (offered : ℕ) : Answer → Prop
  | count n => n ≤ offered ∧ n < 2 ^ 63
  | error _ => True

instance (offered : ℕ) : DecidablePred (Valid offered)
  | count _ => inferInstanceAs (Decidable (_ ∧ _))
  | error _ => inferInstanceAs (Decidable True)

/-- The result, stored in a `size_t`. -/
def toSizeT : Answer → BitVec 64
  | count n => BitVec.ofNat 64 n
  | error _ => -1

/-- A failure that is not `transient`. -/
def isHard : Answer → Bool
  | count _ => false
  | error e => !e.transient

end Answer

inductive Effect
  | enableWriting (enable : Bool)
  | message (n : ℕ)
  | writeComplete
  | close
  deriving DecidableEq, Repr

structure TcpConnection where
  isClosed : Bool := false
  iovecList : List Iovec := []
  deriving DecidableEq, Repr

namespace TcpConnection

def onClose (c : TcpConnection) : TcpConnection × List Effect :=
  if c.isClosed then (c, []) else ({ c with isClosed := true }, [.close])

/-- `iovecList_.push_back(vec); EnableWriting(true);` -/
def push (c : TcpConnection) (vec : Iovec) : TcpConnection × List Effect :=
  ({ c with iovecList := c.iovecList ++ [vec] }, [.enableWriting true])

/-- `SendInLoop(buf, size)`; `answer` is the kernel's to the `write`, if there is one.
`len` is a `size_t`, so that `len < 0` compares unsigned numbers. -/
def sendInLoop (c : TcpConnection) (buf size : BitVec 64) (answer : Answer) :
    TcpConnection × List Effect :=
  if c.isClosed then (c, [])
  else if c.iovecList = [] then
    let len := answer.toSizeT
    if len < 0 ∧ answer.isHard then c.onClose
    else
      let len := if len < 0 then 0 else len
      let size := size - len
      if size = 0 then (c, [.writeComplete]) else c.push ⟨buf + len, size⟩
  else if size > 0 then c.push ⟨buf, size⟩
  else (c, [])

/-- `SendInLoop(list)` -/
def sendListInLoop (c : TcpConnection) (list : List Iovec) : TcpConnection × List Effect :=
  if c.isClosed then (c, [])
  else
    let c := { c with iovecList := c.iovecList ++ list }
    (c, if c.iovecList = [] then [] else [.enableWriting true])

/-- The number of bytes that a list of `iovec`s describes. -/
def iovecSize (vs : List Iovec) : ℕ := (vs.map fun v => v.iovLen.toNat).sum

/-- `while (ret > 0)` over the front of `iovecList_`; `none` where `front()` is called on
an empty vector. -/
def consume : List Iovec → ℕ → Option (List Iovec)
  | vs, 0 => some vs
  | [], _ + 1 => none
  | v :: vs, n + 1 =>
    if v.iovLen.toNat > n + 1 then
      some (⟨v.iovBase + BitVec.ofNat 64 (n + 1), v.iovLen - BitVec.ofNat 64 (n + 1)⟩ :: vs)
    else consume vs (n + 1 - v.iovLen.toNat)

/-- `OnWrite` up to its loop; the flag says whether the loop is entered. -/
def onWrite (c : TcpConnection) : TcpConnection × List Effect × Bool :=
  if c.isClosed then (c, [], false)
  else if c.iovecList = [] then (c, [.enableWriting false, .writeComplete], false)
  else (c, [], true)

/-- One turn of the loop in `OnWrite`; the flag says whether the loop goes on. -/
def onWriteTurn (c : TcpConnection) : Answer → Option (TcpConnection × List Effect × Bool)
  | .count n => (consume c.iovecList n).map fun vs =>
    ({ c with iovecList := vs },
      if vs = [] then ([.enableWriting false, .writeComplete], false) else ([], true))
  | .error e => some (if e.transient then (c, [], false)
    else (c.onClose.1, c.onClose.2, false))

/-- One turn of the loop in `OnRead`; the flag says whether the loop goes on. -/
def onReadTurn (c : TcpConnection) : Answer → TcpConnection × List Effect × Bool
  | .count n =>
    if n > 0 then (c, [.message n], true) else (c.onClose.1, c.onClose.2, false)
  | .error e =>
    if e.transient then (c, [], false) else (c.onClose.1, c.onClose.2, false)

end TcpConnection

end HttpNest
