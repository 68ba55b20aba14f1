import HttpNest.Lib.EventRun

/-!
# `EventLoopThreadPool`

The choice of the next loop. `GetNextLoop` loads `loopIndex_`, increments it, and takes the
loaded index modulo the number of threads: two atomic steps, with other calls between them
perhaps. `loopIndex_` is an `int32_t`, and as an operand of `%` it is converted to `size_t`.
-/

namespace HttpNest

/-- The position of a loop in `threads_` for an index. -/
def loopPosition (size : ℕ) (index : BitVec 32) : ℕ := (BitVec.ofInt 64 index.toInt).toNat % size

/-- `inFlight` are the threads between the two steps of `GetNextLoop`, and `given` the positions
of the loops that are returned, in the order of the loads. -/
structure EventLoopThreadPool (τ : Type*) where
  size : ℕ
  loopIndex : BitVec 32 := 0
  inFlight : List τ := []
  given : List ℕ := []

inductive PoolStep (τ : Type*)
  | load (t : τ)
  | increment (t : τ)

namespace EventLoopThreadPool

variable {τ : Type*}

/-- The constructor. -/
def new (threadNum : ℤ) : EventLoopThreadPool τ where
  size := if threadNum ≤ 0 then 1 else threadNum.toNat

def step [DecidableEq τ] (s : EventLoopThreadPool τ) :
    PoolStep τ → Option (EventLoopThreadPool τ)
  | .load t =>
    if t ∈ s.inFlight then none
    else some { s with
      inFlight := t :: s.inFlight, given := s.given ++ [loopPosition s.size s.loopIndex] }
  | .increment t =>
    if t ∈ s.inFlight then
      some { s with inFlight := s.inFlight.erase t, loopIndex := s.loopIndex + 1 }
    else none

/-- The two steps of `GetNextLoop` for `n` calls of one thread, one after the other. -/
def calls (t : τ) : ℕ → List (PoolStep τ)
  | 0 => []
  | n + 1 => calls t n ++ [.load t, .increment t]

/-- The loops are returned in turn. -/
def InTurn (s : EventLoopThreadPool τ) : Prop :=
  s.given = (List.range s.given.length).map (· % s.size)

instance (s : EventLoopThreadPool τ) : Decidable s.InTurn := inferInstanceAs (Decidable (_ = _))

/-- The thread that loads the index finds as many calls between their steps as do not matter. -/
def LoadsInTurn [DecidableEq τ] (s : EventLoopThreadPool τ) : PoolStep τ → Prop
  | .load t => t ∉ s.inFlight → s.size ∣ s.inFlight.length
  | .increment _ => True

instance [DecidableEq τ] :
    ∀ (s : EventLoopThreadPool τ) (e : PoolStep τ), Decidable (s.LoadsInTurn e)
  | s, .load t => inferInstanceAs (Decidable (t ∉ s.inFlight → _))
  | _, .increment _ => isTrue trivial

end EventLoopThreadPool

end HttpNest
