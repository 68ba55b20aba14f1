import HttpNest.Lib.AnsweredLoop
import HttpNest.Spec.SendQueue

/-!
# One call of `OnWrite`

`afterWrites c answers k` is `OnWrite`, called on the connection `c`, after `k` calls of
`writev`, which the kernel answers with `answers`; the flag says whether the loop goes on.
-/

namespace HttpNest

open AnsweredLoop

namespace TcpConnection

def writeTurn (c : TcpConnection) (answer : Answer) : Option (TcpConnection × Bool) :=
  (c.onWriteTurn answer).map fun r => (r.1, r.2.2)

def afterWrites (c : TcpConnection) (answers : ℕ → Answer) (k : ℕ) :
    Option (TcpConnection × Bool) :=
  after writeTurn answers (c.onWrite.1, c.onWrite.2.2) k

/-- Every answer is one that `V` allows for the vectors that are offered. -/
def Answered (V : List Iovec → Answer → Prop) (c : TcpConnection) (answers : ℕ → Answer) : Prop :=
  Lawful writeTurn (fun c => V c.iovecList) answers (c.onWrite.1, c.onWrite.2.2)

end TcpConnection

/-- `-1`, or at least one of the bytes offered if there are any. -/
def Answer.Takes (vs : List Iovec) : Answer → Prop
  | .count n => n ≤ TcpConnection.iovecSize vs ∧ (n = 0 → TcpConnection.iovecSize vs = 0)
  | .error _ => True

/-- `IOV_MAX` -/
def iovMax : ℕ := 1024

/-- `EINVAL` -/
def einval : Errno := .other 22

/-- What Linux answers to a `writev` on a healthy connection. -/
def Answer.Linux (vs : List Iovec) : Answer → Prop
  | .count n => vs.length ≤ iovMax ∧ (Answer.count n).Takes vs
  | .error e => if vs.length ≤ iovMax then e = .eagain else e = einval

end HttpNest
