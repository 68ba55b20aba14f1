import HttpNest.Lib.FeedLoop
import HttpNest.Spec.HttpRequest

/-!
# `SplitStringWithFSM`

The machine with the variables of the source. `pos` is an `int`: it becomes a `size_t` where it
is compared with a size or used as an index, and there is none past `INT_MAX`. A turn at a
delimiter changes the state only; the turn after it ends the piece and moves on.
-/

namespace HttpNest.StringUtils

/-- The enumeration of the source. The loop is entered in `kStateNormal`. -/
inductive FsmState
  | kStateInit
  | kStateNormal
  | kStateDelimiter
  | kStateEnd
  deriving DecidableEq, Repr

structure Fsm where
  result : List Bytes := []
  state : FsmState := .kStateInit
  tmp : Bytes := []
  pos : ℤ := 0
  deriving DecidableEq

inductive FsmFault
  /-- `at` throws `std::out_of_range`. -/
  | outOfRange
  /-- `pos++` at `INT_MAX`. -/
  | overflow
  deriving DecidableEq

/-- An `int` as a `size_t`. -/
def toSize (i : ℤ) : ℕ := (i % 2 ^ 64).toNat

/-- `s.at(pos)` -/
def charAt (s : Bytes) (pos : ℤ) : Except FsmFault UInt8 :=
  match s[toSize pos]? with
  | some c => .ok c
  | none => .error .outOfRange

/-- `pos++` -/
def increment (pos : ℤ) : Except FsmFault ℤ :=
  if pos + 1 < 2 ^ 31 then .ok (pos + 1) else .error .overflow

namespace Fsm

/-- The variables in front of the loop. -/
def start : Fsm := { state := .kStateNormal }

/-- The body of the loop; `kStateInit` and `kStateEnd` have no branch. -/
def turn (s : Bytes) (delimiter : UInt8) (m : Fsm) : Except FsmFault Fsm :=
  match m.state with
  | .kStateNormal => do
    let c ← charAt s m.pos
    if c = delimiter then
      return { m with state := .kStateDelimiter }
    let pos ← increment m.pos
    return { m with tmp := m.tmp ++ [c], pos := pos }
  | .kStateDelimiter => do
    let pos ← increment m.pos
    return { result := m.result ++ [m.tmp], tmp := [], state := .kStateNormal, pos := pos }
  | .kStateInit | .kStateEnd => return m

/-- The `for` loop. Nothing is fed to it. -/
def loop (s : Bytes) (delimiter : UInt8) : FeedLoop Fsm Empty FsmFault where
  guard m := toSize m.pos < s.length
  body := turn s delimiter
  recv _ p := p.elim

/-- What is returned behind the loop. -/
def returned (m : Fsm) : List Bytes := if m.tmp = [] then m.result else m.result ++ [m.tmp]

end Fsm

/-- The call leaves its loop and returns `r`. -/
def SplitStringWithFSM (s : Bytes) (delimiter : UInt8) (r : List Bytes) : Prop :=
  ∃ m, (Fsm.loop s delimiter).Completes Fsm.start [] m ∧ m.returned = r

end HttpNest.StringUtils
