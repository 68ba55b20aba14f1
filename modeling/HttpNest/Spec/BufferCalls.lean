import HttpNest.Spec.Machine

/-!
# Typed values and asserted calls of a `MsgBuffer`

A `Value` is what `AppendInt8` … `AppendInt64` and `Append` take and `ReadInt8` …
`ReadInt64` and `Read` give back. An `Accessor` is a call that checks its argument by an
assertion, with the sums of `size_t`: `Asserts` is the assertion, `reads` the positions of the
vector that the call reads and `after` the buffer that it leaves.
-/

namespace HttpNest

open ByteOrder

/-! ## Typed values -/

/-- An unsigned integer of one of the four widths, or a byte string. -/
inductive Value
  | int (w : Width) (v : BitVec (8 * w.bytes))
  | str (s : Bytes)
  deriving DecidableEq, Repr

namespace Value

variable {ι : Type}

def append (i : ι) : Value → Op ι
  | int w v => .appendInt w i v.toNat
  | str s => .append i s

def addInFront (i : ι) : Value → Op ι
  | int w v => .addInFrontInt w i v.toNat
  | str s => .addInFront i s

/-- The call that reads a value of this kind back; a string by its length. -/
def read (i : ι) : Value → Op ι
  | int w _ => .readInt w i
  | str s => .read i s.length

/-- What that call should return. -/
def output : Value → Output
  | int _ v => .int v.toNat
  | str s => .bytes s

/-- The value in network order: the most significant byte of an integer first. -/
def bytes : Value → Bytes
  | int w v => beBytes w.bytes v.toNat
  | str s => s

end Value

/-! ## Asserted calls -/

inductive Accessor
  | peekInt (w : Width)
  | readInt (w : Width)
  | index (offset : ℕ)
  | retrieveUntil (pos : ℕ)
  | hasWritten (len : ℕ)
  | unwrite (offset : ℕ)
  deriving DecidableEq, Repr

namespace Accessor

/-- The assertions of the call. -/
def Asserts (b : MsgBuffer) : Accessor → Prop
  | peekInt w => SizeArith.sizeT.readableBytes b ≥ w.bytes
  | readInt w => SizeArith.sizeT.readableBytes b ≥ w.bytes
  | index offset => SizeArith.sizeT.readableBytes b ≥ offset
  | retrieveUntil pos => b.head ≤ pos ∧ pos ≤ b.tail
  | hasWritten len => len ≤ SizeArith.sizeT.writableBytes b
  | unwrite offset => SizeArith.sizeT.readableBytes b ≥ offset

instance (b : MsgBuffer) : (c : Accessor) → Decidable (c.Asserts b)
  | peekInt _ | readInt _ | index _ | unwrite _ => inferInstanceAs (Decidable (_ ≥ _))
  | hasWritten _ => inferInstanceAs (Decidable (_ ≤ _))
  | retrieveUntil _ => inferInstanceAs (Decidable (_ ∧ _))

/-- The positions of the vector that the call reads: the bytes at `Peek()` of an integer, the
one at `Peek() + offset`. -/
def reads (b : MsgBuffer) : Accessor → List ℕ
  | peekInt w => List.range' b.head w.bytes
  | readInt w => List.range' b.head w.bytes
  | index offset => [b.head + offset]
  | retrieveUntil _ => []
  | hasWritten _ => []
  | unwrite _ => []

/-- The buffer after the call. -/
def after (e : Endian) (b : MsgBuffer) : Accessor → MsgBuffer
  | peekInt _ => b
  | readInt w => (SizeArith.sizeT.readWidth e w b).2
  | index _ => b
  | retrieveUntil pos => SizeArith.sizeT.retrieveUntil b pos
  | hasWritten len => SizeArith.sizeT.hasWritten b len
  | unwrite offset => SizeArith.sizeT.unwrite b offset

end Accessor

end HttpNest
