import HttpNest.Lib.EventRun
import HttpNest.Spec.HttpParser

/-!
# The sending half of `HttpContext`

An `HttpPoster` is the part of an `HttpContext` that sends. All its functions end in one
call, of `Send` or of the handler, or in none; a posting function that answers `false` is
`none`. A `Posting` is that part at work: it records what it has handed to the connection,
and its caller posts only after the write before has been completed. `TcpConnection` may call
`WriteComplete` without a write too, when the socket gets writable.

`headerSent_` has no initial value. Where it is not set, `PostChunk` and `PostStreamChunk` set
it behind their `Send`; all other functions have returned in effect when they call `Send`, so
it does not matter whether the write is completed there.
-/

namespace HttpNest

open CNumeral

inductive HttpContextPostState
  | kHttpContextPostInit
  | kHttpContextPostHttp
  | kHttpContextPostHttpHeader
  | kHttpContextPostHttpBody
  | kHttpContextPostHttpStreamHeader
  | kHttpContextPostHttpStreamChunk
  | kHttpContextPostChunkHeader
  | kHttpContextPostChunkLen
  | kHttpContextPostChunkBody
  | kHttpContextPostChunkEOF
  deriving DecidableEq, Repr

/-- `outPakcet` is null until a packet has been posted, and is not read before. -/
structure HttpPoster where
  postState : HttpContextPostState := .kHttpContextPostInit
  header : Bytes := []
  outPakcet : Packet := ⟨0, []⟩
  headerSent : Bool
  deriving DecidableEq

/-- The call that `WriteComplete` ends in. -/
inductive PostCall
  | send (bs : Bytes)
  | onSent
  | onSentNextChunk
  deriving DecidableEq

/-- `CHUNK_EOF` -/
def chunkEof : Bytes := ascii "0\r\n\r\n"

namespace HttpPoster

/-- `PostRequest(header_and_body)` -/
def postHttp (c : HttpPoster) (headerAndBody : Bytes) : Option (HttpPoster × Bytes) :=
  if c.postState ≠ .kHttpContextPostInit then none
  else some ({ c with header := headerAndBody, postState := .kHttpContextPostHttp }, headerAndBody)

def postStreamHeader (c : HttpPoster) (header : Bytes) : Option (HttpPoster × Bytes) :=
  if c.postState ≠ .kHttpContextPostInit then none
  else some ({ c with
    header := header, postState := .kHttpContextPostInit, headerSent := true }, header)

def postChunkHeader (c : HttpPoster) (header : Bytes) : Option (HttpPoster × Bytes) :=
  if c.postState ≠ .kHttpContextPostInit then none
  else some ({ c with
    header := header, postState := .kHttpContextPostInit, headerSent := true }, header)

/-- `PostRequest(header, packet)` -/
def postRequest (c : HttpPoster) (header : Bytes) (packet : Packet) :
    Option (HttpPoster × Bytes) :=
  if c.postState ≠ .kHttpContextPostInit then none
  else some ({ c with
    header := header, outPakcet := packet, postState := .kHttpContextPostHttpHeader }, header)

/-- `sprintf("%X\r\n", PacketSize())` -/
def chunkLen (packet : Packet) : Bytes := hexText (packet.packetSize % 2 ^ 32).toNat ++ CRLF

def postChunk (c : HttpPoster) (chunk : Packet) : HttpPoster × Bytes :=
  if c.headerSent then
    ({ c with
      outPakcet := chunk, postState := .kHttpContextPostChunkLen
      header := chunkLen chunk }, chunkLen chunk)
  else
    ({ c with
      outPakcet := chunk, postState := .kHttpContextPostChunkHeader, headerSent := true }, c.header)

def postEofChunk (c : HttpPoster) : HttpPoster × Bytes :=
  ({ c with postState := .kHttpContextPostChunkEOF }, chunkEof)

def postStreamChunk (c : HttpPoster) (packet : Packet) : Option (HttpPoster × Bytes) :=
  if c.postState ≠ .kHttpContextPostInit then none
  else if c.headerSent then
    some ({ c with
      outPakcet := packet, postState := .kHttpContextPostHttpStreamChunk }, packet.data)
  else
    some ({ c with
      outPakcet := packet, postState := .kHttpContextPostHttpStreamHeader
      headerSent := true }, c.header)

/-- `WriteComplete`; the packets are sent with their `PacketSize()`. -/
def writeComplete (c : HttpPoster) : HttpPoster × Option PostCall :=
  match c.postState with
  | .kHttpContextPostInit => (c, none)
  | .kHttpContextPostHttp => ({ c with postState := .kHttpContextPostInit }, some .onSent)
  | .kHttpContextPostHttpHeader =>
    ({ c with postState := .kHttpContextPostHttpBody }, some (.send c.outPakcet.data))
  | .kHttpContextPostHttpBody => ({ c with postState := .kHttpContextPostInit }, some .onSent)
  | .kHttpContextPostChunkHeader =>
    ({ c with postState := .kHttpContextPostChunkLen }, some .onSentNextChunk)
  | .kHttpContextPostChunkLen =>
    ({ c with postState := .kHttpContextPostChunkBody }, some (.send c.outPakcet.data))
  | .kHttpContextPostChunkBody =>
    ({ c with postState := .kHttpContextPostInit }, some .onSentNextChunk)
  | .kHttpContextPostChunkEOF => ({ c with postState := .kHttpContextPostInit }, some .onSent)
  | .kHttpContextPostHttpStreamHeader =>
    ({ c with postState := .kHttpContextPostInit }, some .onSentNextChunk)
  | .kHttpContextPostHttpStreamChunk =>
    ({ c with postState := .kHttpContextPostInit }, some .onSentNextChunk)

end HttpPoster

/-! ## A caller -/

inductive PostEvent
  | postHttp (headerAndBody : Bytes)
  | postStreamHeader (header : Bytes)
  | postChunkHeader (header : Bytes)
  | postRequest (header : Bytes) (packet : Packet)
  | postChunk (chunk : Packet)
  | postEofChunk
  | postStreamChunk (packet : Packet)
  | writeComplete
  deriving DecidableEq

/-- `handed` are the arguments of the calls of `Send`, and `writing` says that the last of
them has not been completed. -/
structure Posting where
  poster : HttpPoster
  handed : List Bytes := []
  writing : Bool := false
  deriving DecidableEq

namespace Posting

/-- A new `HttpContext`. -/
def start (headerSent : Bool) : Posting where
  poster := { headerSent := headerSent }

def send (s : Posting) (r : HttpPoster × Bytes) : Posting where
  poster := r.1
  handed := s.handed ++ [r.2]
  writing := true

/-- A posting function, called when the write before has been completed. -/
def post (s : Posting) (r : Option (HttpPoster × Bytes)) : Option Posting :=
  if s.writing = true then none else some ((r.map s.send).getD s)

def step (s : Posting) : PostEvent → Option Posting
  | .postHttp headerAndBody => s.post (s.poster.postHttp headerAndBody)
  | .postStreamHeader header => s.post (s.poster.postStreamHeader header)
  | .postChunkHeader header => s.post (s.poster.postChunkHeader header)
  | .postRequest header packet => s.post (s.poster.postRequest header packet)
  | .postChunk chunk => s.post (s.poster.postChunk chunk)
  | .postEofChunk => s.post s.poster.postEofChunk
  | .postStreamChunk packet => s.post (s.poster.postStreamChunk packet)
  | .writeComplete =>
    match s.poster.writeComplete with
    | (c, some (.send bs)) => some (s.send (c, bs))
    | (c, _) => some { s with poster := c, writing := false }

/-- What is posted, without the completions. -/
def posts (es : List PostEvent) : List PostEvent := es.filter fun e => e ≠ .writeComplete

end Posting

end HttpNest
