import HttpNest.Lib.Search
import HttpNest.Proof.MsgBuffer
import HttpNest.Spec.HttpRequest

/-!
# Well-formed message buffers

A `WfBuffer` is a `MsgBuffer` with its invariant. On it the operations that the
HTTP code calls are total, and each of them acts on the readable bytes (`bytes`) as
its simp lemma says, so that the parser's proofs never look into the vector.
-/

namespace HttpNest

open ListSearch

/-- A buffer that keeps `head_ <= tail_ <= buffer_.size()`. -/
structure WfBuffer where
  val : MsgBuffer
  inv : val.Inv

namespace WfBuffer

variable (b : WfBuffer)

def bytes : Bytes := b.val.readable

def readableBytes : ℕ := b.val.readableBytes

def new (len : ℕ) (h : kBufferOffset ≤ len) : WfBuffer := ⟨.new len, MsgBuffer.new_inv h⟩

theorem append_isSome (buf : Bytes) : (b.val.append buf).isSome := by
  obtain ⟨c, hc, -⟩ := MsgBuffer.append_spec b.inv buf
  rw [hc]; rfl

theorem append_inv (buf : Bytes) : ((b.val.append buf).get (b.append_isSome buf)).Inv := by
  obtain ⟨c, hc, hinv, -⟩ := MsgBuffer.append_spec b.inv buf
  simpa [hc] using hinv

def append (buf : Bytes) : WfBuffer :=
  ⟨(b.val.append buf).get (b.append_isSome buf), b.append_inv buf⟩

def retrieve (len : ℕ) : WfBuffer := ⟨b.val.retrieve len, (MsgBuffer.retrieve_spec b.inv len).1⟩

/-- `RetrieveUntil` of the position `offset` bytes after `Peek()`. -/
def retrieveUntil (offset : ℕ) : WfBuffer :=
  ⟨b.val.retrieveUntil (b.val.head + offset), (MsgBuffer.retrieveUntil_spec b.inv offset).1⟩

def retrieveAll : WfBuffer := ⟨b.val.retrieveAll, (MsgBuffer.retrieveAll_spec b.inv).1⟩

/-- `FindCRLF`, as an offset from `Peek()`. -/
def findCRLF : Option ℕ := find CRLF b.bytes

@[simp] theorem readableBytes_eq : b.readableBytes = b.bytes.length :=
  (MsgBuffer.length_readable b.inv).symm

@[simp] theorem bytes_new (len : ℕ) (h : kBufferOffset ≤ len) : (new len h).bytes = [] :=
  MsgBuffer.readable_new len

@[simp] theorem bytes_append (buf : Bytes) : (b.append buf).bytes = b.bytes ++ buf := by
  obtain ⟨c, hc, -, hread⟩ := MsgBuffer.append_spec b.inv buf
  simpa [append, bytes, hc] using hread

@[simp] theorem bytes_retrieve (len : ℕ) : (b.retrieve len).bytes = b.bytes.drop len :=
  (MsgBuffer.retrieve_spec b.inv len).2

@[simp] theorem bytes_retrieveUntil (offset : ℕ) :
    (b.retrieveUntil offset).bytes = b.bytes.drop offset :=
  (MsgBuffer.retrieveUntil_spec b.inv offset).2

@[simp] theorem bytes_retrieveAll : b.retrieveAll.bytes = [] :=
  (MsgBuffer.retrieveAll_spec b.inv).2

end WfBuffer

end HttpNest
