import HttpNest.Spec.HttpPost

/-!
# Posting while writes are pending

A `Delivery` is the sending half of an `HttpContext` together with its open connection. Posts
may come at any time. What is given to `Send` is written in order and byte by byte, and each
byte remembers where it is stored: `Send` keeps the pointer. Each call comes with a packet of its
own, and its caller may drop it at once, so that `outPakcet_` is the only owner. `WriteComplete`
may come whenever nothing is unwritten, within `Send` or later, and also when no write was pending.

All posting functions and `WriteComplete` have returned in effect when they call `Send` or the
handler, so a call from within is a step behind them.
-/

namespace HttpNest

/-- The text that `Send` is given: in `header_`, in a packet, or `CHUNK_EOF`. -/
inductive Source
  | header
  | packet
  | eof
  deriving DecidableEq

inductive PostFn
  | postHttp (headerAndBody : Bytes)
  | postRequest (header : Bytes) (packet : Packet)
  | postChunkHeader (header : Bytes)
  | postChunk (chunk : Packet)
  | postEofChunk
  deriving DecidableEq

namespace PostFn

/-- The context and the bytes given to `Send`; `none` where `false` is returned. -/
def run (c : HttpPoster) : PostFn → Option (HttpPoster × Bytes)
  | postHttp headerAndBody => c.postHttp headerAndBody
  | postRequest header packet => c.postRequest header packet
  | postChunkHeader header => c.postChunkHeader header
  | postChunk chunk => some (c.postChunk chunk)
  | postEofChunk => some c.postEofChunk

def source : PostFn → Source
  | postEofChunk => .eof
  | postHttp _ | postRequest _ _ | postChunkHeader _ | postChunk _ => .header

/-- Does the function assign `header_`, if it does not return `false`? -/
def assigns (c : HttpPoster) : PostFn → Bool
  | postHttp _ | postRequest _ _ | postChunkHeader _ => true
  | postChunk _ => c.headerSent
  | postEofChunk => false

/-- Does the function assign `outPakcet_`, if it does not return `false`? -/
def replaces : PostFn → Bool
  | postRequest _ _ | postChunk _ => true
  | postHttp _ | postChunkHeader _ | postEofChunk => false

/-- What the call is for, in the pieces in which it is to be sent. -/
def pieces : PostFn → List Bytes
  | postHttp headerAndBody => [headerAndBody]
  | postRequest header packet => [header, packet.data]
  | postChunkHeader header => [header]
  | postChunk chunk => [HttpPoster.chunkLen chunk, chunk.data]
  | postEofChunk => [chunkEof]

/-- The two `PostRequest` functions. -/
def IsRequest : PostFn → Prop
  | postHttp _ | postRequest _ _ => True
  | postChunkHeader _ | postChunk _ | postEofChunk => False

/-- The functions for a chunked body. -/
def IsChunked : PostFn → Prop
  | postHttp _ | postRequest _ _ => False
  | postChunkHeader _ | postChunk _ | postEofChunk => True

end PostFn

inductive DeliveryEvent
  | post (f : PostFn)
  | write (n : ℕ)
  | writeComplete

/-- All posts of the event are of this kind. -/
def DeliveryEvent.Posts (kind : PostFn → Prop) : DeliveryEvent → Prop
  | post f => kind f
  | write _ | writeComplete => True

inductive Entry
  | accepted (f : PostFn)
  | refused (f : PostFn)
  | send (bs : Bytes)
  | written (n : ℕ)
  | onSent
  | onSentNextChunk
  deriving DecidableEq

/-- `due` says that `WriteComplete` has not been called since the last `Send`, `overwritten` that
`header_` has been assigned while a byte of it was unwritten, and `dropped` that `outPakcet_` has
been while a byte of a packet was. -/
structure Delivery where
  poster : HttpPoster
  unwritten : List (Source × UInt8) := []
  due : Bool := false
  overwritten : Bool := false
  dropped : Bool := false
  log : List Entry := []

namespace Delivery

def start (headerSent : Bool) : Delivery where
  poster := { headerSent := headerSent }

def headerUnwritten (s : Delivery) : Bool := s.unwritten.any fun b => b.1 = .header

def packetUnwritten (s : Delivery) : Bool := s.unwritten.any fun b => b.1 = .packet

def send (s : Delivery) (source : Source) (r : HttpPoster × Bytes) : Delivery :=
  { s with
    poster := r.1, unwritten := s.unwritten ++ r.2.map fun b => (source, b), due := true
    log := s.log ++ [.send r.2] }

def post (s : Delivery) (f : PostFn) : Delivery :=
  match f.run s.poster with
  | none => { s with log := s.log ++ [.refused f] }
  | some r =>
    send { s with
      overwritten := s.overwritten || (f.assigns s.poster && s.headerUnwritten)
      dropped := s.dropped || (f.replaces && s.packetUnwritten)
      log := s.log ++ [.accepted f] } f.source r

def writeComplete (s : Delivery) : Delivery :=
  match s.poster.writeComplete with
  | (c, none) => { s with poster := c, due := false }
  | (c, some (.send bs)) => s.send .packet (c, bs)
  | (c, some .onSent) => { s with poster := c, due := false, log := s.log ++ [.onSent] }
  | (c, some .onSentNextChunk) =>
    { s with poster := c, due := false, log := s.log ++ [.onSentNextChunk] }

def step (s : Delivery) : DeliveryEvent → Option Delivery
  | .post f => some (s.post f)
  | .write n =>
    if n ≤ s.unwritten.length then
      some { s with unwritten := s.unwritten.drop n, log := s.log ++ [.written n] }
    else none
  | .writeComplete => if s.unwritten = [] then some s.writeComplete else none

/-! ## Reading the log -/

/-- The arguments of the `Send` calls. -/
def handed (log : List Entry) : List Bytes :=
  log.filterMap fun
    | .send bs => some bs
    | _ => none

/-- The calls that were not refused. -/
def accepted (log : List Entry) : List PostFn :=
  log.filterMap fun
    | .accepted f => some f
    | _ => none

/-- The number of bytes that have been written. -/
def written (log : List Entry) : ℕ :=
  (log.filterMap fun
    | .written n => some n
    | _ => none).sum

/-- The log without refusals and writes. -/
def visible (log : List Entry) : List Entry :=
  log.filter fun
    | .refused _ | .written _ => false
    | _ => true

/-- The part of the log that an accepted request makes. -/
def block (f : PostFn) : List Entry := .accepted f :: f.pieces.map .send ++ [.onSent]

end Delivery

end HttpNest
