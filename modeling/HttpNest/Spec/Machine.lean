import HttpNest.Spec.BufferOps

/-!
# `MsgBuffer` in a bounded memory

A `Machine` bounds the vectors that can be allocated. A call that would take a longer one throws
(`Machine.Throws`) before it changes a buffer; only `ReadFd` has filled its vector by then.
`Machine.step` is a call with the sums of `size_t`, and `Machine.Allowed` adds to the assertions
that an argument is a `size_t`, or bytes that are in the memory.
-/

namespace HttpNest

open ByteOrder

/-- The length of the longest vector that can be allocated. No machine has an address space of
`2^62` bytes. -/
structure Machine where
  limit : ℕ
  limit_lt : limit < 2 ^ 62

/-- The lower half of an address space of 48 bits. -/
def Machine.userSpace : Machine := ⟨2 ^ 47, by decide⟩

/-- The buffer that `ReadFd` appends the rest of a read to: its vector is full. -/
def MsgBuffer.filled (b : MsgBuffer) : MsgBuffer := { b with tail := b.buffer.length }

namespace Machine

variable (M : Machine) {ι : Type} [DecidableEq ι]

/-- `EnsureWritableBytes` asks for a vector that cannot be allocated. -/
def TooLong (b : MsgBuffer) (len : ℕ) : Prop :=
  SizeArith.sizeT.Grows b len ∧
    M.limit < SizeArith.sizeT.add (SizeArith.sizeT.grownLen b len) kBufferOffset

/-- `AddInFront` does. -/
def FrontTooLong (b : MsgBuffer) (len : ℕ) : Prop :=
  SizeArith.sizeT.FrontGrows b len ∧
    M.limit < SizeArith.sizeT.add (SizeArith.sizeT.frontLen b len) kBufferOffset

instance (b : MsgBuffer) (len : ℕ) : Decidable (M.TooLong b len) :=
  inferInstanceAs (Decidable (_ ∧ _))

instance (b : MsgBuffer) (len : ℕ) : Decidable (M.FrontTooLong b len) :=
  inferInstanceAs (Decidable (_ ∧ _))

/-- The call throws. -/
def Throws (s : Pool ι) : Op ι → Prop
  | .append i buf => M.TooLong (s.buf i) buf.length
  | .appendBuffer i j => M.TooLong (s.buf i) (s.buf j).readable.length
  | .appendInt w i _ => M.TooLong (s.buf i) w.bytes
  | .addInFront i buf => M.FrontTooLong (s.buf i) buf.length
  | .addInFrontInt w i _ => M.FrontTooLong (s.buf i) w.bytes
  | .ensureWritableBytes i len => M.TooLong (s.buf i) len
  | .readFd i data => SizeArith.sizeT.writableBytes (s.buf i) < data.length ∧
    M.TooLong (s.buf i).filled
      (SizeArith.sizeT.sub data.length (SizeArith.sizeT.writableBytes (s.buf i)))
  | .retrieve _ _ | .retrieveUntil _ _ | .retrieveAll _ | .read _ _ | .readInt _ _
  | .hasWritten _ _ | .unwrite _ _ | .swap _ _ | .readFdError _ => False

omit [DecidableEq ι] in
instance (s : Pool ι) : DecidablePred (M.Throws s)
  | .append _ _ | .appendBuffer _ _ | .appendInt _ _ _ | .ensureWritableBytes _ _ =>
    inferInstanceAs (Decidable (M.TooLong _ _))
  | .addInFront _ _ | .addInFrontInt _ _ _ => inferInstanceAs (Decidable (M.FrontTooLong _ _))
  | .readFd _ _ => inferInstanceAs (Decidable (_ ∧ _))
  | .retrieve _ _ | .retrieveUntil _ _ | .retrieveAll _ | .read _ _ | .readInt _ _
  | .hasWritten _ _ | .unwrite _ _ | .swap _ _ | .readFdError _ =>
    inferInstanceAs (Decidable False)

/-- What a call that throws leaves. -/
def thrown (s : Pool ι) : Op ι → Option (Pool ι)
  | .readFd i data =>
    (Vec.write (s.buf i).buffer (s.buf i).tail
      (data.take (SizeArith.sizeT.iovLen (s.buf i)))).map fun v =>
        s.set i { s.buf i with buffer := v, tail := v.length }
  | _ => some s

/-- One call; `none` where it writes outside a vector. -/
def step (e : Endian) (s : Pool ι) (op : Op ι) : Option (Pool ι) :=
  if M.Throws s op then thrown s op else SizeArith.sizeT.step e s op

/-- The buffers of the given lengths can be constructed. -/
def Constructs (L : ι → ℕ) : Prop :=
  ∀ i, L i < 2 ^ 64 ∧ SizeArith.sizeT.add (L i) kBufferOffset ≤ M.limit

instance [Fintype ι] (L : ι → ℕ) : Decidable (M.Constructs L) :=
  inferInstanceAs (Decidable (∀ _, _))

/-- The argument is a `size_t`, or bytes that are in the memory. -/
def Takes : Op ι → Prop
  | .append _ buf | .addInFront _ buf | .hasWritten _ buf => buf.length ≤ M.limit
  | .retrieve _ len | .read _ len | .ensureWritableBytes _ len => len < 2 ^ 64
  | _ => True

instance : DecidablePred (M.Takes (ι := ι))
  | .append _ _ | .addInFront _ _ | .hasWritten _ _ => inferInstanceAs (Decidable (_ ≤ _))
  | .retrieve _ _ | .read _ _ | .ensureWritableBytes _ _ => inferInstanceAs (Decidable (_ < _))
  | .appendBuffer _ _ | .appendInt _ _ _ | .addInFrontInt _ _ _ | .retrieveUntil _ _
  | .retrieveAll _ | .readInt _ _ | .unwrite _ _ | .swap _ _ | .readFd _ _ | .readFdError _ =>
    inferInstanceAs (Decidable True)

/-- The assertions of the call hold, on arguments that it can take. -/
def Allowed (s : Pool ι) (op : Op ι) : Prop := SizeArith.sizeT.Allowed s op ∧ M.Takes op

end Machine

end HttpNest
