import HttpNest.Lib.EventRun
import HttpNest.Spec.MsgBuffer

/-!
# Sequences of `MsgBuffer` operations

`Op` is one call on one buffer of a family (`Swap` and `Append(const MsgBuffer&)`
take two), `SizeArith.step` what the code does and `SizeArith.Allowed` what its
assertions ask of the caller; `Op.step` and `Op.Allowed` are those of sizes that do
not wrap around. `ListModel` says what a message buffer is for: a byte list that grows at
either end and is consumed from either end.
-/

namespace HttpNest

open ByteOrder

inductive Width
  | int8
  | int16
  | int32
  | int64
  deriving DecidableEq, Repr

/-- `sizeof`. -/
def Width.bytes : Width → ℕ
  | int8 => 1
  | int16 => 2
  | int32 => 4
  | int64 => 8

namespace SizeArith

variable (A : SizeArith)

def appendWidth (e : Endian) : Width → MsgBuffer → ℕ → Option MsgBuffer
  | .int8 => A.appendInt8 e
  | .int16 => A.appendInt16 e
  | .int32 => A.appendInt32 e
  | .int64 => A.appendInt64 e

def addInFrontWidth (e : Endian) : Width → MsgBuffer → ℕ → Option MsgBuffer
  | .int8 => A.addInFrontInt8 e
  | .int16 => A.addInFrontInt16 e
  | .int32 => A.addInFrontInt32 e
  | .int64 => A.addInFrontInt64 e

def readWidth (e : Endian) : Width → MsgBuffer → ℕ × MsgBuffer
  | .int8 => A.readInt8 e
  | .int16 => A.readInt16 e
  | .int32 => A.readInt32 e
  | .int64 => A.readInt64 e

end SizeArith

namespace MsgBuffer

def appendWidth (e : Endian) : Width → MsgBuffer → ℕ → Option MsgBuffer :=
  SizeArith.exact.appendWidth e

def addInFrontWidth (e : Endian) : Width → MsgBuffer → ℕ → Option MsgBuffer :=
  SizeArith.exact.addInFrontWidth e

def readWidth (e : Endian) : Width → MsgBuffer → ℕ × MsgBuffer := SizeArith.exact.readWidth e

end MsgBuffer

inductive Op (ι : Type)
  | append (i : ι) (buf : Bytes)
  | appendBuffer (i j : ι)
  | appendInt (w : Width) (i : ι) (v : ℕ)
  | addInFront (i : ι) (buf : Bytes)
  | addInFrontInt (w : Width) (i : ι) (v : ℕ)
  | retrieve (i : ι) (len : ℕ)
  | retrieveUntil (i : ι) (offset : ℕ)
  | retrieveAll (i : ι)
  | read (i : ι) (len : ℕ)
  | readInt (w : Width) (i : ι)
  | ensureWritableBytes (i : ι) (len : ℕ)
  | hasWritten (i : ι) (buf : Bytes)
  | unwrite (i : ι) (offset : ℕ)
  | swap (i j : ι)
  | readFd (i : ι) (data : Bytes)
  | readFdError (i : ι)

/-- What a reading operation returns. -/
inductive Output
  | bytes (s : Bytes)
  | int (v : ℕ)
  deriving DecidableEq, Repr

/-- A family of buffers and what has been read from them. -/
structure Pool (ι : Type) where
  buf : ι → MsgBuffer
  out : List Output

variable {ι : Type} [DecidableEq ι]

/-- Buffers constructed with the given lengths. -/
def SizeArith.init (A : SizeArith) (L : ι → ℕ) : Pool ι := ⟨fun i => A.new (L i), []⟩

def Pool.init (L : ι → ℕ) : Pool ι := SizeArith.exact.init L

def Pool.set (s : Pool ι) (i : ι) (b : MsgBuffer) : Pool ι :=
  { s with buf := Function.update s.buf i b }

def Pool.put (s : Pool ι) (o : Output) : Pool ι := { s with out := s.out ++ [o] }

/-- One call; `none` where it writes outside a vector. -/
def SizeArith.step (A : SizeArith) (e : Endian) (s : Pool ι) : Op ι → Option (Pool ι)
  | .append i buf => (A.append (s.buf i) buf).map (s.set i)
  | .appendBuffer i j => (A.append (s.buf i) (s.buf j).readable).map (s.set i)
  | .appendInt w i v => (A.appendWidth e w (s.buf i) v).map (s.set i)
  | .addInFront i buf => (A.addInFront (s.buf i) buf).map (s.set i)
  | .addInFrontInt w i v => (A.addInFrontWidth e w (s.buf i) v).map (s.set i)
  | .retrieve i len => some (s.set i (A.retrieve (s.buf i) len))
  | .retrieveUntil i offset =>
    some (s.set i (A.retrieveUntil (s.buf i) ((s.buf i).head + offset)))
  | .retrieveAll i => some (s.set i (A.retrieveAll (s.buf i)))
  | .read i len =>
    let r := A.read (s.buf i) len
    some ((s.put (.bytes r.1)).set i r.2)
  | .readInt w i =>
    let r := A.readWidth e w (s.buf i)
    some ((s.put (.int r.1)).set i r.2)
  | .ensureWritableBytes i len => (A.ensureWritableBytes (s.buf i) len).map (s.set i)
  | .hasWritten i buf => ((s.buf i).fill buf).map fun b => s.set i (A.hasWritten b buf.length)
  | .unwrite i offset => some (s.set i (A.unwrite (s.buf i) offset))
  | .swap i j =>
    let r := (s.buf i).swap (s.buf j)
    some ((s.set i r.1).set j r.2)
  | .readFd i data => (A.readFd (s.buf i) data).map (s.set i)
  | .readFdError _ => some s

def Op.step (e : Endian) (s : Pool ι) (op : Op ι) : Option (Pool ι) := SizeArith.exact.step e s op

/-- The assertions, and the limits of a `readv` answer. -/
def SizeArith.Allowed (A : SizeArith) (s : Pool ι) : Op ι → Prop
  | .retrieveUntil i offset => offset ≤ A.readableBytes (s.buf i)
  | .readInt w i => w.bytes ≤ A.readableBytes (s.buf i)
  | .hasWritten i buf => buf.length ≤ A.writableBytes (s.buf i)
  | .unwrite i offset => offset ≤ A.readableBytes (s.buf i)
  | .readFd i data => data.length ≤ A.offered (s.buf i) ∧ data.length < 2 ^ 31
  | _ => True

instance (A : SizeArith) (s : Pool ι) : DecidablePred (A.Allowed s)
  | .retrieveUntil _ _ | .readInt _ _ | .hasWritten _ _ | .unwrite _ _ =>
    inferInstanceAs (Decidable (_ ≤ _))
  | .readFd _ _ => inferInstanceAs (Decidable (_ ∧ _))
  | .append _ _ | .appendBuffer _ _ | .appendInt _ _ _ | .addInFront _ _ | .addInFrontInt _ _ _
  | .retrieve _ _ | .retrieveAll _ | .read _ _ | .ensureWritableBytes _ _ | .swap _ _
  | .readFdError _ => inferInstanceAs (Decidable True)

def Op.Allowed (s : Pool ι) (op : Op ι) : Prop := SizeArith.exact.Allowed s op

instance (s : Pool ι) (op : Op ι) : Decidable (op.Allowed s) :=
  inferInstanceAs (Decidable (SizeArith.exact.Allowed s op))

/-! ## The byte-list model -/

/-- A family of byte lists and what has been read from them. -/
structure ListModel (ι : Type) where
  buf : ι → Bytes
  out : List Output

def ListModel.init : ListModel ι := ⟨fun _ => [], []⟩

def ListModel.set (m : ListModel ι) (i : ι) (s : Bytes) : ListModel ι :=
  { m with buf := Function.update m.buf i s }

def ListModel.put (m : ListModel ι) (o : Output) : ListModel ι := { m with out := m.out ++ [o] }

def ListModel.step (m : ListModel ι) : Op ι → ListModel ι
  | .append i buf => m.set i (m.buf i ++ buf)
  | .appendBuffer i j => m.set i (m.buf i ++ m.buf j)
  | .appendInt w i v => m.set i (m.buf i ++ beBytes w.bytes v)
  | .addInFront i buf => m.set i (buf ++ m.buf i)
  | .addInFrontInt w i v => m.set i (beBytes w.bytes v ++ m.buf i)
  | .retrieve i len => m.set i ((m.buf i).drop len)
  | .retrieveUntil i offset => m.set i ((m.buf i).drop offset)
  | .retrieveAll i => m.set i []
  | .read i len => (m.put (.bytes ((m.buf i).take len))).set i ((m.buf i).drop len)
  | .readInt w i =>
    (m.put (.int (ofBE ((m.buf i).take w.bytes)))).set i ((m.buf i).drop w.bytes)
  | .ensureWritableBytes _ _ => m
  | .hasWritten i buf => m.set i (m.buf i ++ buf)
  | .unwrite i offset => m.set i ((m.buf i).take ((m.buf i).length - offset))
  | .swap i j => (m.set i (m.buf j)).set j (m.buf i)
  | .readFd i data => m.set i (m.buf i ++ data)
  | .readFdError _ => m

end HttpNest
