import HttpNest.Spec.HttpClient

/-!
# A request and its answer

An `HttpEnd` is the `HttpContext` of one end of a connection: what it reads is parsed, and
`HttpService`, the handler, answers the requests. An `Exchange` is a connection of `HttpClient`
and `HttpServer`. The bytes that one end has given to `Send` reach the other end in order and
in any pieces: `up` and `down` have not been read yet.

`Parse` does not return while its loop runs, so nothing is read at an end whose loop has not
been left. A turn of the loop that faults is no step.
-/

namespace HttpNest

open CNumeral

/-- `PostRequest(request)`. `SetBody` has no caller, so `AppendToBuffer` is `MakeHeaders`. -/
def HttpPoster.post (c : HttpPoster) (request : HttpRequest) : Option (HttpPoster × Bytes) :=
  if request.isChunked then c.postChunkHeader request.makeHeaders
  else if request.isStream then c.postStreamHeader request.makeHeaders
  else c.postHttp request.makeHeaders

namespace HttpService

/-- The response that `OnRequest` makes. -/
def response : HttpRequest :=
  let res := (HttpRequest.new false).setStatusCode 200
  let res := res.addHeader (ascii "server") (ascii "nest")
  let res := res.addHeader (ascii "content-length") (ascii "0")
  { res with isStream := false }

/-- `OnRequest`, with the bytes that it gives to `Send`; `res` is the response in its order of
iteration. -/
def onRequest (res : HttpRequest) (c : HttpPoster) (req : Option HttpRequest) :
    Except Fault (HttpPoster × Bytes) :=
  match req with
  | none => .error .nullRequest
  | some req => .ok (if req.isRequest then (c.post res).getD (c, []) else (c, []))

end HttpService

/-- An `HttpContext`, what it receives and what it sends. -/
structure HttpEnd where
  context : HttpContext
  poster : HttpPoster

namespace HttpEnd

def new (headerSent : Bool) : HttpEnd where
  context := { httpParser := {}, buf := .new 2048 (by decide) }
  poster := { headerSent := headerSent }

/-- `n` of the bytes on the way are read, and `Parse` is called. -/
def read (e : HttpEnd) (incoming : Bytes) (n : ℕ) : Option (HttpEnd × Bytes) :=
  if HttpContext.loop.guard e.context = true ∨ e.context.closed = true ∨ n = 0 ∨
      incoming.length < n then none
  else some ({ e with context := HttpContext.loop.recv e.context (incoming.take n) },
    incoming.drop n)

/-- A turn of the loop in `Parse`, with the handler's answer. -/
def turn (res : HttpRequest) (e : HttpEnd) : Except Fault (HttpEnd × Bytes) := do
  let c ← e.context.turn
  match c.requests.drop e.context.requests.length with
  | [] => .ok ({ e with context := c }, [])
  | (req, _) :: _ =>
    let (poster, sent) ← HttpService.onRequest res e.poster req
    .ok (⟨c, poster⟩, sent)

/-- `WriteComplete`; `OnSent` and `OnSentNextChunk` of the handler do nothing. -/
def writeComplete (e : HttpEnd) : HttpEnd × Bytes :=
  match e.poster.writeComplete with
  | (c, some (.send bs)) => ({ e with poster := c }, bs)
  | (c, _) => ({ e with poster := c }, [])

end HttpEnd

structure Exchange where
  client : HttpEnd
  server : HttpEnd
  up : Bytes
  down : Bytes := []

inductive Peer
  | client
  | server
  deriving DecidableEq, Repr

inductive ExchangeEvent
  | read (p : Peer) (n : ℕ)
  | turn (p : Peer)
  | writeComplete (p : Peer)
  deriving DecidableEq, Repr

namespace Exchange

/-- `OnConnection`: the client's context is new and posts the request. -/
def start (request : HttpRequest) (clientSent serverSent : Bool) : Exchange :=
  let client := HttpEnd.new clientSent
  let (poster, up) := (client.poster.postHttp request.makeHeaders).getD (client.poster, [])
  { client := { client with poster := poster }, server := .new serverSent, up := up }

def step (res : HttpRequest) (s : Exchange) : ExchangeEvent → Option Exchange
  | .read .client n => do
    let (e, down) ← s.client.read s.down n
    some { s with client := e, down := down }
  | .read .server n => do
    let (e, up) ← s.server.read s.up n
    some { s with server := e, up := up }
  | .turn .client =>
    if HttpContext.loop.guard s.client.context = true then
      match s.client.turn res with
      | .ok (e, sent) => some { s with client := e, up := s.up ++ sent }
      | .error _ => none
    else none
  | .turn .server =>
    if HttpContext.loop.guard s.server.context = true then
      match s.server.turn res with
      | .ok (e, sent) => some { s with server := e, down := s.down ++ sent }
      | .error _ => none
    else none
  | .writeComplete .client =>
    some { s with client := s.client.writeComplete.1, up := s.up ++ s.client.writeComplete.2 }
  | .writeComplete .server =>
    some { s with server := s.server.writeComplete.1, down := s.down ++ s.server.writeComplete.2 }

/-- The `OnRequest` calls at the client's end. -/
def answers (s : Exchange) : List (Option HttpRequest × Option Packet) := s.client.context.requests

/-- The `OnRequest` calls at the server's end. -/
def asked (s : Exchange) : List (Option HttpRequest × Option Packet) := s.server.context.requests

/-- The end of this peer. -/
def peer (s : Exchange) : Peer → HttpEnd
  | .client => s.client
  | .server => s.server

/-- A read that leaves at most one byte in the buffer, or takes all that is on the way. -/
def Whole (s : Exchange) : ExchangeEvent → Prop
  | .read .client n => s.client.context.buf.bytes.length + n ≤ 1 ∨ n = s.down.length
  | .read .server n => s.server.context.buf.bytes.length + n ≤ 1 ∨ n = s.up.length
  | .turn _ | .writeComplete _ => True

/-- The loop at this end is never left: in whatever follows it can turn once more. -/
def Endless (res : HttpRequest) (s : Exchange) (p : Peer) : Prop :=
  ∀ es t, EventRun.run (step res) s es = some t →
    HttpContext.loop.guard (t.peer p).context = true ∧ (step res t (.turn p)).isSome

/-- Reads and turns of the loops. -/
def counted : ExchangeEvent → Bool
  | .read _ _ | .turn _ => true
  | .writeComplete _ => false

end Exchange

end HttpNest
