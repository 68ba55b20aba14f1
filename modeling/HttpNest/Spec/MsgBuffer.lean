import HttpNest.Lib.CNumeral
import HttpNest.Lib.Endian
import HttpNest.Lib.Slice

/-!
# `MsgBuffer`

The vector `buffer`, the readable region `[head, tail)` and the constructor's
length `initCap`. An operation is `none` where the code would write outside the
vector. Assertions are not part of the operations: `Op.Allowed` is what they require
of a caller.

The operations are those of a `SizeArith`, which says what a sum, a difference or a
product of sizes is. `SizeArith.sizeT` is the code's. The operations of `MsgBuffer`
itself take `SizeArith.exact`: it is the same on buffers within their vectors and
sizes below `2^62`.
-/

namespace HttpNest

open CNumeral ByteOrder

abbrev Bytes := List UInt8

structure MsgBuffer where
  head : ℕ
  initCap : ℕ
  buffer : Bytes
  tail : ℕ
  deriving DecidableEq, Repr

def kBufferOffset : ℕ := 8

/-- `char extBuffer[8192]` of `ReadFd`. -/
def extBufferSize : ℕ := 8192

namespace MsgBuffer

/-- The bytes from `Peek()` to `BeginWrite()`. -/
def readable (b : MsgBuffer) : Bytes := Vec.slice b.buffer b.head b.tail

/-- `Swap`: the two buffers after exchanging every field. -/
def swap (b c : MsgBuffer) : MsgBuffer × MsgBuffer :=
  (⟨c.head, c.initCap, c.buffer, c.tail⟩, ⟨b.head, b.initCap, b.buffer, b.tail⟩)

/-- What a caller of `HasWritten` does before: write at `BeginWrite()`. -/
def fill (b : MsgBuffer) (buf : Bytes) : Option MsgBuffer := do
  let v ← Vec.write b.buffer b.tail buf
  some { b with buffer := v }

/-- The `k` bytes at `Peek()`, as they lie in memory. -/
def peekRaw (e : Endian) (k : ℕ) (b : MsgBuffer) : ℕ :=
  e.load (Vec.slice b.buffer b.head (b.head + k))

/-- `PeekInt*`: the value of the `k` bytes at `Peek()`, from network order. -/
def peekInt (e : Endian) (k : ℕ) (b : MsgBuffer) : ℕ := e.hton k (peekRaw e k b)

def peekInt8 (e : Endian) : MsgBuffer → ℕ := peekRaw e 1
def peekInt16 (e : Endian) : MsgBuffer → ℕ := peekInt e 2
def peekInt32 (e : Endian) : MsgBuffer → ℕ := peekInt e 4
def peekInt64 (e : Endian) : MsgBuffer → ℕ := peekInt e 8

end MsgBuffer

/-! ## The operations -/

/-- How sizes are added, subtracted and multiplied. -/
structure SizeArith where
  add : ℕ → ℕ → ℕ
  sub : ℕ → ℕ → ℕ
  mul : ℕ → ℕ → ℕ

namespace SizeArith

/-- `size_t` -/
def sizeT : SizeArith where
  add a b := (a + b) % 2 ^ 64
  sub a b := (a + (2 ^ 64 - b)) % 2 ^ 64
  mul a b := a * b % 2 ^ 64

/-- Nothing wraps around. -/
def exact : SizeArith where
  add a b := a + b
  sub a b := a - b
  mul a b := a * b

variable (A : SizeArith)

/-- The constructor: `buffer_(len + head_)`. -/
def new (len : ℕ) : MsgBuffer :=
  ⟨kBufferOffset, len, List.replicate (A.add len kBufferOffset) 0, kBufferOffset⟩

def readableBytes (b : MsgBuffer) : ℕ := A.sub b.tail b.head

def writableBytes (b : MsgBuffer) : ℕ := A.sub b.buffer.length b.tail

/-- `Append(buf, len)`, given the `EnsureWritableBytes` it calls. -/
def appendWith (ensure : MsgBuffer → ℕ → Option MsgBuffer) (b : MsgBuffer) (buf : Bytes) :
    Option MsgBuffer := do
  let b ← ensure b buf.length
  let v ← Vec.write b.buffer b.tail buf
  some { b with buffer := v, tail := A.add b.tail buf.length }

/-- The length `EnsureWritableBytes` gives a new buffer. -/
def grownLen (b : MsgBuffer) (len : ℕ) : ℕ :=
  if A.mul b.buffer.length 2 > A.add (A.add kBufferOffset (A.readableBytes b)) len then
    A.mul b.buffer.length 2
  else A.add (A.add kBufferOffset (A.readableBytes b)) len

/-- `EnsureWritableBytes` moves the content to the reserved front's end. -/
def Moves (b : MsgBuffer) (len : ℕ) : Prop :=
  A.writableBytes b < len ∧ A.add len kBufferOffset ≤ A.add b.head (A.writableBytes b)

/-- `EnsureWritableBytes` takes a new buffer. -/
def Grows (b : MsgBuffer) (len : ℕ) : Prop :=
  A.writableBytes b < len ∧ A.add b.head (A.writableBytes b) < A.add len kBufferOffset

instance (b : MsgBuffer) (len : ℕ) : Decidable (A.Moves b len) :=
  inferInstanceAs (Decidable (_ ∧ _))

instance (b : MsgBuffer) (len : ℕ) : Decidable (A.Grows b len) :=
  inferInstanceAs (Decidable (_ ∧ _))

/-- `EnsureWritableBytes` to a call depth: growing appends to a new buffer, which
asks that buffer for room in turn. -/
def ensureWritableBytesTo : ℕ → MsgBuffer → ℕ → Option MsgBuffer
  | 0, _, _ => none
  | depth + 1, b, len =>
    if A.writableBytes b ≥ len then some b
    else if A.add b.head (A.writableBytes b) ≥ A.add len kBufferOffset then do
      let v ← Vec.write b.buffer kBufferOffset b.readable
      some { b with
        buffer := v, head := kBufferOffset, tail := A.add kBufferOffset (A.sub b.tail b.head) }
    else do
      let newbuffer ←
        A.appendWith (ensureWritableBytesTo depth) (A.new (A.grownLen b len)) b.readable
      some (b.swap newbuffer).1

/-- The new buffer has room for the old content, so the calls nest once. -/
def ensureWritableBytes (b : MsgBuffer) (len : ℕ) : Option MsgBuffer :=
  A.ensureWritableBytesTo 2 b len

def append (b : MsgBuffer) (buf : Bytes) : Option MsgBuffer :=
  A.appendWith A.ensureWritableBytes b buf

def retrieveAll (b : MsgBuffer) : MsgBuffer :=
  { b with
    buffer := if b.buffer.length > A.mul b.initCap 2 then Vec.resize b.buffer b.initCap 0
      else b.buffer
    head := kBufferOffset
    tail := kBufferOffset }

def retrieve (b : MsgBuffer) (len : ℕ) : MsgBuffer :=
  if len ≥ A.readableBytes b then A.retrieveAll b else { b with head := A.add b.head len }

/-- `RetrieveUntil(end)`; a pointer into the vector is a position in it. -/
def retrieveUntil (b : MsgBuffer) (pos : ℕ) : MsgBuffer := A.retrieve b (pos - b.head)

def read (b : MsgBuffer) (len : ℕ) : Bytes × MsgBuffer :=
  let len := if len > A.readableBytes b then A.readableBytes b else len
  (Vec.slice b.buffer b.head (b.head + len), A.retrieve b len)

def hasWritten (b : MsgBuffer) (len : ℕ) : MsgBuffer := { b with tail := A.add b.tail len }

def unwrite (b : MsgBuffer) (offset : ℕ) : MsgBuffer := { b with tail := A.sub b.tail offset }

/-- The length `AddInFront` gives a new buffer. -/
def frontLen (b : MsgBuffer) (len : ℕ) : ℕ :=
  if A.add len (A.readableBytes b) < b.initCap then b.initCap
  else A.add len (A.readableBytes b)

/-- `AddInFront` takes a new buffer. -/
def FrontGrows (b : MsgBuffer) (len : ℕ) : Prop := b.head < len ∧ A.writableBytes b < len

instance (b : MsgBuffer) (len : ℕ) : Decidable (A.FrontGrows b len) :=
  inferInstanceAs (Decidable (_ ∧ _))

def addInFront (b : MsgBuffer) (buf : Bytes) : Option MsgBuffer :=
  if b.head ≥ buf.length then do
    let v ← Vec.write b.buffer (b.head - buf.length) buf
    some { b with buffer := v, head := A.sub b.head buf.length }
  else if buf.length ≤ A.writableBytes b then do
    let v ← Vec.write b.buffer (b.head + buf.length) b.readable
    let v ← Vec.write v b.head buf
    some { b with buffer := v, tail := A.add b.tail buf.length }
  else do
    let newBuf ← A.append (A.new (A.frontLen b buf.length)) buf
    let newBuf ← A.append newBuf b.readable
    some (b.swap newBuf).1

/-- The length of the first vector `ReadFd` offers: `static_cast<int>(writable)`,
converted to `size_t`. -/
def iovLen (b : MsgBuffer) : ℕ := (toInt32 (A.writableBytes b) % 2 ^ 64).toNat

/-- The bytes `ReadFd` offers to `readv`: the free part of the vector and, where that
is shorter than `extBuffer`, `extBuffer` too. -/
def offered (b : MsgBuffer) : ℕ :=
  A.iovLen b + if A.writableBytes b < extBufferSize then extBufferSize else 0

/-- `ReadFd` when `readv` delivers `data`, filling its vectors in order. -/
def readFd (b : MsgBuffer) (data : Bytes) : Option MsgBuffer := do
  let v ← Vec.write b.buffer b.tail (data.take (A.iovLen b))
  let extBuffer := data.drop (A.iovLen b)
  if data.length ≤ A.writableBytes b then
    some { b with buffer := v, tail := A.add b.tail data.length }
  else
    A.append { b with buffer := v, tail := v.length }
      (extBuffer.take (A.sub data.length (A.writableBytes b)))

/-! ### Integers -/

/-- `AppendInt*`: the value in network order, `k` bytes. -/
def appendInt (e : Endian) (k : ℕ) (b : MsgBuffer) (v : ℕ) : Option MsgBuffer :=
  A.append b (e.store k (e.hton k v))

def appendInt8 (e : Endian) (b : MsgBuffer) (v : ℕ) : Option MsgBuffer :=
  A.append b (e.store 1 v)
def appendInt16 (e : Endian) : MsgBuffer → ℕ → Option MsgBuffer := A.appendInt e 2
def appendInt32 (e : Endian) : MsgBuffer → ℕ → Option MsgBuffer := A.appendInt e 4
def appendInt64 (e : Endian) : MsgBuffer → ℕ → Option MsgBuffer := A.appendInt e 8

/-- `AddInFrontInt*`. -/
def addInFrontInt (e : Endian) (k : ℕ) (b : MsgBuffer) (v : ℕ) : Option MsgBuffer :=
  A.addInFront b (e.store k (e.hton k v))

def addInFrontInt8 (e : Endian) (b : MsgBuffer) (v : ℕ) : Option MsgBuffer :=
  A.addInFront b (e.store 1 v)
def addInFrontInt16 (e : Endian) : MsgBuffer → ℕ → Option MsgBuffer := A.addInFrontInt e 2
def addInFrontInt32 (e : Endian) : MsgBuffer → ℕ → Option MsgBuffer := A.addInFrontInt e 4
def addInFrontInt64 (e : Endian) : MsgBuffer → ℕ → Option MsgBuffer := A.addInFrontInt e 8

def readInt8 (e : Endian) (b : MsgBuffer) : ℕ × MsgBuffer := (b.peekInt8 e, A.retrieve b 1)
def readInt16 (e : Endian) (b : MsgBuffer) : ℕ × MsgBuffer := (b.peekInt16 e, A.retrieve b 2)
def readInt32 (e : Endian) (b : MsgBuffer) : ℕ × MsgBuffer := (b.peekInt32 e, A.retrieve b 4)
def readInt64 (e : Endian) (b : MsgBuffer) : ℕ × MsgBuffer := (b.peekInt64 e, A.retrieve b 8)

end SizeArith

/-! ## Sizes that do not wrap around -/

namespace MsgBuffer

def new (len : ℕ) : MsgBuffer := SizeArith.exact.new len
def readableBytes (b : MsgBuffer) : ℕ := SizeArith.exact.readableBytes b
def writableBytes (b : MsgBuffer) : ℕ := SizeArith.exact.writableBytes b

def appendWith (ensure : MsgBuffer → ℕ → Option MsgBuffer) (b : MsgBuffer) (buf : Bytes) :
    Option MsgBuffer :=
  SizeArith.exact.appendWith ensure b buf

def grownLen (b : MsgBuffer) (len : ℕ) : ℕ := SizeArith.exact.grownLen b len

def ensureWritableBytesTo : ℕ → MsgBuffer → ℕ → Option MsgBuffer :=
  SizeArith.exact.ensureWritableBytesTo

def ensureWritableBytes (b : MsgBuffer) (len : ℕ) : Option MsgBuffer :=
  SizeArith.exact.ensureWritableBytes b len

def append (b : MsgBuffer) (buf : Bytes) : Option MsgBuffer := SizeArith.exact.append b buf
def retrieveAll (b : MsgBuffer) : MsgBuffer := SizeArith.exact.retrieveAll b
def retrieve (b : MsgBuffer) (len : ℕ) : MsgBuffer := SizeArith.exact.retrieve b len
def retrieveUntil (b : MsgBuffer) (pos : ℕ) : MsgBuffer := SizeArith.exact.retrieveUntil b pos
def read (b : MsgBuffer) (len : ℕ) : Bytes × MsgBuffer := SizeArith.exact.read b len
def hasWritten (b : MsgBuffer) (len : ℕ) : MsgBuffer := SizeArith.exact.hasWritten b len
def unwrite (b : MsgBuffer) (offset : ℕ) : MsgBuffer := SizeArith.exact.unwrite b offset
def frontLen (b : MsgBuffer) (len : ℕ) : ℕ := SizeArith.exact.frontLen b len

def addInFront (b : MsgBuffer) (buf : Bytes) : Option MsgBuffer :=
  SizeArith.exact.addInFront b buf

def iovLen (b : MsgBuffer) : ℕ := SizeArith.exact.iovLen b
def offered (b : MsgBuffer) : ℕ := SizeArith.exact.offered b
def readFd (b : MsgBuffer) (data : Bytes) : Option MsgBuffer := SizeArith.exact.readFd b data

/-! ### Their bodies -/

variable (b : MsgBuffer) (buf : Bytes) (len : ℕ)

theorem new_def :
    new len = ⟨kBufferOffset, len, List.replicate (len + kBufferOffset) 0, kBufferOffset⟩ := rfl

theorem readableBytes_def : b.readableBytes = b.tail - b.head := rfl

theorem writableBytes_def : b.writableBytes = b.buffer.length - b.tail := rfl

theorem appendWith_def (ensure : MsgBuffer → ℕ → Option MsgBuffer) :
    appendWith ensure b buf = (ensure b buf.length).bind fun b =>
      (Vec.write b.buffer b.tail buf).bind fun v =>
        some { b with buffer := v, tail := b.tail + buf.length } := rfl

theorem grownLen_def : b.grownLen len =
    if b.buffer.length * 2 > kBufferOffset + b.readableBytes + len then b.buffer.length * 2
    else kBufferOffset + b.readableBytes + len := rfl

theorem ensureWritableBytesTo_succ (depth : ℕ) : ensureWritableBytesTo (depth + 1) b len =
    if b.writableBytes ≥ len then some b
    else if b.head + b.writableBytes ≥ len + kBufferOffset then
      (Vec.write b.buffer kBufferOffset b.readable).bind fun v => some { b with
        buffer := v, head := kBufferOffset, tail := kBufferOffset + (b.tail - b.head) }
    else
      (appendWith (ensureWritableBytesTo depth) (new (b.grownLen len)) b.readable).bind
        fun newbuffer => some (b.swap newbuffer).1 := rfl

theorem ensureWritableBytes_def : b.ensureWritableBytes len = ensureWritableBytesTo 2 b len := rfl

theorem append_def : b.append buf = appendWith ensureWritableBytes b buf := rfl

theorem retrieveAll_def : b.retrieveAll = { b with
    buffer := if b.buffer.length > b.initCap * 2 then Vec.resize b.buffer b.initCap 0
      else b.buffer
    head := kBufferOffset
    tail := kBufferOffset } := rfl

theorem retrieve_def : b.retrieve len =
    if len ≥ b.readableBytes then b.retrieveAll else { b with head := b.head + len } := rfl

theorem retrieveUntil_def (pos : ℕ) : b.retrieveUntil pos = b.retrieve (pos - b.head) := rfl

theorem unwrite_def (offset : ℕ) : b.unwrite offset = { b with tail := b.tail - offset } := rfl

theorem frontLen_def : b.frontLen len =
    if len + b.readableBytes < b.initCap then b.initCap else len + b.readableBytes := rfl

theorem addInFront_def : b.addInFront buf =
    if b.head ≥ buf.length then
      (Vec.write b.buffer (b.head - buf.length) buf).bind fun v =>
        some { b with buffer := v, head := b.head - buf.length }
    else if buf.length ≤ b.writableBytes then
      (Vec.write b.buffer (b.head + buf.length) b.readable).bind fun v =>
        (Vec.write v b.head buf).bind fun v =>
          some { b with buffer := v, tail := b.tail + buf.length }
    else
      ((new (b.frontLen buf.length)).append buf).bind fun newBuf =>
        (newBuf.append b.readable).bind fun newBuf => some (b.swap newBuf).1 := rfl

theorem iovLen_def : b.iovLen = (toInt32 b.writableBytes % 2 ^ 64).toNat := rfl

theorem offered_def :
    b.offered = b.iovLen + if b.writableBytes < extBufferSize then extBufferSize else 0 := rfl

theorem readFd_def (data : Bytes) : b.readFd data =
    (Vec.write b.buffer b.tail (data.take b.iovLen)).bind fun v =>
      if data.length ≤ b.writableBytes then
        some { b with buffer := v, tail := b.tail + data.length }
      else
        append { b with buffer := v, tail := v.length }
          ((data.drop b.iovLen).take (data.length - b.writableBytes)) := rfl

end MsgBuffer

end HttpNest
