import HttpNest.Lib.ForwardCopy
import HttpNest.Spec.Machine

/-!
# The copies within a `MsgBuffer`

`std::copy` moves the readable bytes in `EnsureWritableBytes` and in `AddInFront`. A `Copy` is
such a call, by its positions in the vector, and `RoomCall.copies` lists those that a call makes,
in the buffers that it makes itself too.
-/

namespace HttpNest

/-- `std::copy(begin() + first, begin() + last, begin() + result)`. -/
structure Copy where
  first : ℕ
  last : ℕ
  result : ℕ
  deriving DecidableEq, Repr

/-- The precondition of `std::copy`, and that the copy, element by element, moves the bytes
unchanged. -/
def Copy.Sound (v : Bytes) (c : Copy) : Prop :=
  Vec.Apart c.first c.last c.result ∧
    ∃ w, Vec.copyForward (c.last - c.first) v c.first c.result = some w ∧
      Vec.slice w c.result (c.result + (c.last - c.first)) = Vec.slice v c.first c.last

namespace SizeArith

variable (A : SizeArith)

/-- The copies of `EnsureWritableBytes` to a call depth, each with the vector that it is
made in. -/
def ensureCopiesTo : ℕ → MsgBuffer → ℕ → List (Bytes × Copy)
  | 0, _, _ => []
  | depth + 1, b, len =>
    if A.writableBytes b ≥ len then []
    else if A.add b.head (A.writableBytes b) ≥ A.add len kBufferOffset then
      [(b.buffer, ⟨b.head, b.tail, kBufferOffset⟩)]
    else ensureCopiesTo depth (A.new (A.grownLen b len)) (A.readableBytes b)

/-- As in `ensureWritableBytes`, the calls nest once. -/
def ensureCopies (b : MsgBuffer) (len : ℕ) : List (Bytes × Copy) := A.ensureCopiesTo 2 b len

/-- The copies of `AddInFront`, which appends to a new buffer twice where it grows. -/
def addInFrontCopies (b : MsgBuffer) (buf : Bytes) : List (Bytes × Copy) :=
  if b.head ≥ buf.length then []
  else if buf.length ≤ A.writableBytes b then
    [(b.buffer, ⟨b.head, b.tail, b.head + buf.length⟩)]
  else
    let newBuf := A.new (A.frontLen b buf.length)
    A.ensureCopies newBuf buf.length ++
      (A.append newBuf buf).elim [] fun newBuf => A.ensureCopies newBuf (A.readableBytes b)

end SizeArith

/-- The calls that make room, with any `size_t` for `EnsureWritableBytes`. -/
inductive RoomCall
  | ensureWritableBytes (len : BitVec 64)
  | addInFront (buf : Bytes)
  deriving DecidableEq, Repr

def RoomCall.copies (b : MsgBuffer) : RoomCall → List (Bytes × Copy)
  | ensureWritableBytes len => SizeArith.sizeT.ensureCopies b len.toNat
  | addInFront buf => SizeArith.sizeT.addInFrontCopies b buf

end HttpNest
