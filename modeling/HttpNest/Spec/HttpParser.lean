import HttpNest.Spec.WfBuffer

/-!
# `HttpParser`

One call of `Parse` on a parser and its buffer. A call ends in a `Fault` where the
code has undefined behaviour or allocates with a negative size: a member call
through the null `req_`, `Packet::NewPacket` of a negative size, and a `memcpy`
whose length is negative or exceeds its source or its target.

Sizes read from text go through the code's conversions: `stoull` and `strtol`
results are cut to `int32_t` (`toInt32`), and so is `ReadableBytes()` in the body
states.
-/

namespace HttpNest

open CNumeral ListSearch

inductive Fault
  | nullRequest
  | negativePacket
  | copyRange
  deriving DecidableEq, Repr

/-! ## `Packet` -/

/-- `data` is what `Data()` holds up to `size_`. -/
structure Packet where
  capacity : ℤ
  data : Bytes
  deriving DecidableEq, Repr

namespace Packet

def newPacket (size : ℤ) : Except Fault Packet :=
  if size < 0 then .error .negativePacket else .ok ⟨size, []⟩

/-- `size_` -/
def packetSize (pk : Packet) : ℤ := pk.data.length

def space (pk : Packet) : ℤ := toInt32 (pk.capacity - pk.packetSize)

/-- `memcpy(Data() + PacketSize(), buf.Peek(), size)` and `UpdatePacketSize(size)`. -/
def copyIn (pk : Packet) (buf : WfBuffer) (size : ℤ) : Except Fault Packet :=
  if size < 0 ∨ buf.readableBytes < size ∨ pk.capacity - pk.packetSize < size then
    .error .copyRange
  else .ok { pk with data := pk.data ++ buf.bytes.take size.toNat }

end Packet

/-! ## The parser -/

inductive HttpParserState
  | kExpectHeaders
  | kExpectNormalBody
  | kExpectStreamBody
  | kExpectHttpComplete
  | kExpectChunkLen
  | kExpectChunkBody
  | kExpectChunkComplete
  | kExpectLastEmptyChunk
  | kExpectContinue
  | kExpectError
  deriving DecidableEq, Repr

/-- The codes that the parser gives as its `Reason()`. -/
inductive HttpStatusCode
  | kUnknown
  | k400BadRequest
  deriving DecidableEq, Repr

structure HttpParser where
  state : HttpParserState := .kExpectHeaders
  curChunkLength : ℤ := 0
  curContentLength : ℤ := 0
  isStream : Bool := false
  isChunked : Bool := false
  isRequest : Bool := true
  reason : HttpStatusCode := .kUnknown
  header : Bytes := []
  chunk : Option Packet := none
  req : Option HttpRequest := none
  deriving DecidableEq

def kHttpMaxBodySize : ℕ := 64 * 1024

namespace HttpParser

/-- `reason_ = k400BadRequest; state_ = kExpectError;` -/
def fail (p : HttpParser) : HttpParser :=
  { p with reason := .k400BadRequest, state := .kExpectError }

def clearForNextHttp (p : HttpParser) : HttpParser :=
  { p with
    state := .kExpectHeaders, header := [], req := none, curContentLength := -1, chunk := none }

def clearForNextChunk (p : HttpParser) : HttpParser :=
  if p.isChunked then
    { p with state := .kExpectChunkLen, curChunkLength := -1, chunk := none }
  else if p.isStream then { p with state := .kExpectStreamBody, chunk := none }
  else { p with state := .kExpectHeaders, curChunkLength := -1, chunk := none }

/-! ### The header block -/

/-- The request that a start line of three tokens makes. -/
def startRequest (isRequest : Bool) (t₀ t₁ t₂ : Bytes) : HttpRequest :=
  if isRequest then
    let r := (HttpRequest.new true).setMethod t₀
    let r := match find [63] t₁ with
      | some pos => (r.setPath (t₁.take pos)).setQuery (t₁.drop (pos + 1))
      | none => r.setPath t₁
    r.setVersion t₂
  else ((HttpRequest.new false).setVersion t₀).setStatusCode (toInt32 (strtol 10 t₁))

def processMethodLine (p : HttpParser) (line : Bytes) : HttpParser :=
  match StringUtils.splitString line [32] with
  | [t₀, t₁, t₂] =>
    let isRequest := (t₀.map toLower).take 4 ≠ ascii "http"
    { p with isRequest := isRequest, req := some (startRequest isRequest t₀ t₁ t₂) }
  | _ => p.fail

/-- One turn of the loop over the lines, the start line included. -/
def addLine (req : Option HttpRequest) (l : Bytes) : Except Fault (Option HttpRequest) :=
  match find [58] l with
  | none => .ok req
  | some pos =>
    match req with
    | none => .error .nullRequest
    | some r => .ok (some (r.addHeader (l.take pos) (l.drop (pos + 1))))

/-- How the request says its body ends: the state to read it in. -/
def selectBody (p : HttpParser) (r : HttpRequest) : HttpParser :=
  let len := r.getHeader (ascii "content-length")
  if len ≠ [] then
    match stoull len with
    | none => p.fail
    | some n =>
      { p with
        curContentLength := toInt32 n
        state := if toInt32 n = 0 then .kExpectHttpComplete else .kExpectNormalBody }
  else if r.getHeader (ascii "transfer-encoding") = ascii "chunked" then
    { p with
      isChunked := true, req := some { r with isChunked := true }, state := .kExpectChunkLen }
  else if (¬ p.isRequest ∧ r.code ≠ 200) ∨
      (p.isRequest ∧ (r.method = .kGet ∨ r.method = .kHead ∨ r.method = .kOptions)) then
    { p with curChunkLength := 0, state := .kExpectHttpComplete }
  else
    { p with
      curContentLength := -1, isStream := true, req := some { r with isStream := true }
      state := .kExpectStreamBody }

def parseHeaders (p : HttpParser) : Except Fault HttpParser :=
  match StringUtils.splitString p.header CRLF with
  | [] => .ok p.fail
  | line :: rest => do
    let p := p.processMethodLine line
    let req ← (line :: rest).foldlM addLine p.req
    match req with
    | none => .error .nullRequest
    | some r => .ok ({ p with req := some r }.selectBody r)

/-! ### Bodies -/

/-- `if(!chunk_) chunk_ = Packet::NewPacket(capacity);` -/
def openPacket (chunk : Option Packet) (capacity : ℤ) : Except Fault Packet :=
  match chunk with
  | none => Packet.newPacket capacity
  | some pk => .ok pk

/-- What the three body states do with the current packet: move what fits into it.
Returns the packet and the number of bytes. -/
def fill (chunk : Option Packet) (capacity : ℤ) (buf : WfBuffer) :
    Except Fault (Packet × ℤ × WfBuffer) := do
  let pk ← openPacket chunk capacity
  let size := min (toInt32 buf.readableBytes) pk.space
  let pk ← pk.copyIn buf size
  .ok (pk, size, buf.retrieve size.toNat)

def parseStream (p : HttpParser) (buf : WfBuffer) : Except Fault (HttpParser × WfBuffer) := do
  let (pk, _, buf) ← fill p.chunk kHttpMaxBodySize buf
  .ok ({ p with
    chunk := some pk, state := if pk.space = 0 then .kExpectChunkComplete else p.state }, buf)

def parseNormalBody (p : HttpParser) (buf : WfBuffer) :
    Except Fault (HttpParser × WfBuffer) := do
  let (pk, size, buf) ← fill p.chunk p.curContentLength buf
  .ok ({ p with
    chunk := some pk, curContentLength := p.curContentLength - size
    state := if p.curContentLength - size = 0 then .kExpectHttpComplete else p.state }, buf)

def parseChunk (p : HttpParser) (buf : WfBuffer) : Except Fault (HttpParser × WfBuffer) := do
  let (pk, size, buf) ← fill p.chunk p.curChunkLength buf
  .ok ({ p with
    chunk := some pk, curChunkLength := p.curChunkLength - size
    state := if p.curChunkLength - size = 0 ∨ pk.space = 0 then .kExpectChunkComplete
      else p.state }, buf)

/-! ### `Parse` -/

/-- The `kExpectHeaders` branch; returns what `Parse` returns too. -/
def expectHeaders (p : HttpParser) (buf : WfBuffer) :
    Except Fault (HttpParserState × HttpParser × WfBuffer) :=
  if buf.readableBytes > CRLFCRLF.length then
    match find CRLFCRLF buf.bytes with
    | some size => do
      let p ← { p with header := buf.bytes.take size }.parseHeaders
      .ok (p.state, p, buf.retrieve (size + 4))
    | none =>
      if buf.readableBytes > kHttpMaxBodySize then .ok (.kExpectError, p.fail, buf)
      else .ok (.kExpectContinue, p, buf)
  else .ok (.kExpectContinue, p, buf)

/-- The `kExpectChunkLen` branch. A size above `1024*1024` sets the error, and the
state is then overwritten. -/
def expectChunkLen (p : HttpParser) (buf : WfBuffer) : HttpParser × WfBuffer :=
  match buf.findCRLF with
  | some crlf =>
    let len := toInt32 (strtol 16 (buf.bytes.take crlf))
    let p := { p with curChunkLength := len }
    let p := if len > 1024 * 1024 then p.fail else p
    ({ p with state := if len = 0 then .kExpectLastEmptyChunk else .kExpectChunkBody },
      buf.retrieveUntil (crlf + 2))
  | none => if buf.readableBytes > 32 then (p.fail, buf.retrieveAll) else (p, buf)

/-- The `kExpectLastEmptyChunk` branch. -/
def expectLastEmptyChunk (p : HttpParser) (buf : WfBuffer) : HttpParser × WfBuffer :=
  match buf.findCRLF with
  | some crlf =>
    ({ p with chunk := none, state := .kExpectChunkComplete }, buf.retrieveUntil (crlf + 2))
  | none => (p, buf)

/-- The state a branch that breaks out of the `switch` leaves is what is returned. -/
def returned (r : HttpParser × WfBuffer) : HttpParserState × HttpParser × WfBuffer :=
  (r.1.state, r.1, r.2)

/-- `Parse`: the returned state, the parser and the buffer after the call. -/
def parse (p : HttpParser) (buf : WfBuffer) :
    Except Fault (HttpParserState × HttpParser × WfBuffer) :=
  if buf.readableBytes = 0 then .ok (p.state, p, buf)
  else match p.state with
    | .kExpectHeaders => p.expectHeaders buf
    | .kExpectNormalBody => (p.parseNormalBody buf).map returned
    | .kExpectStreamBody => (p.parseStream buf).map returned
    | .kExpectChunkLen => .ok (returned (p.expectChunkLen buf))
    | .kExpectChunkBody => (p.parseChunk buf).map returned
    | .kExpectLastEmptyChunk => .ok (returned (p.expectLastEmptyChunk buf))
    | .kExpectHttpComplete | .kExpectChunkComplete | .kExpectContinue | .kExpectError =>
      .ok (p.state, p, buf)

end HttpParser

end HttpNest
