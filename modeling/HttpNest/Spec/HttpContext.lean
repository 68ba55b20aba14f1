import HttpNest.Lib.FeedLoop
import HttpNest.Spec.HttpParser

/-!
# The callers of `Parse`

`HttpContext.loop` is the server's: `while (buf.ReadableBytes() > 1)` around `Parse`,
entered again for every read. `reader`, `messageReader` and `chunkReader` are callers that
stop where `Parse` asks for more bytes; the second also stops at a chunk and at an error, the
third clears the parser after every chunk.
-/

namespace HttpNest

open HttpParser

/-- `requests` holds the arguments of the `OnRequest` calls, `closed` whether
`ForceClose` has been called. -/
structure HttpContext where
  httpParser : HttpParser
  buf : WfBuffer
  requests : List (Option HttpRequest × Option Packet) := []
  closed : Bool := false

namespace HttpContext

/-- One turn of the loop. -/
def turn (c : HttpContext) : Except Fault HttpContext := do
  let (state, p, buf) ← parse c.httpParser c.buf
  .ok (if state = .kExpectHttpComplete ∨ state = .kExpectChunkComplete then
      { c with httpParser := p, buf := buf, requests := c.requests ++ [(p.req, p.chunk)] }
    else if state = .kExpectError then { c with httpParser := p, buf := buf, closed := true }
    else { c with httpParser := p, buf := buf })

/-- `HttpContext::Parse`, called after every read. -/
def loop : FeedLoop HttpContext Bytes Fault where
  guard c := c.buf.readableBytes > 1
  body := turn
  recv c read := { c with buf := c.buf.append read }

end HttpContext

/-- A caller of `Parse`; `calls` are the states returned since the last append. -/
structure Reader where
  parser : HttpParser
  buf : WfBuffer
  calls : List HttpParserState := []
  running : Bool := false

/-- After each append, `Parse` until it returns `kExpectContinue` or
`kExpectHttpComplete`, or the buffer is empty. -/
def reader : FeedLoop Reader Bytes Fault where
  guard r := r.running
  body r := do
    let (state, p, buf) ← parse r.parser r.buf
    .ok {
      parser := p, buf := buf, calls := r.calls ++ [state]
      running := ¬ (state = .kExpectContinue ∨ state = .kExpectHttpComplete ∨
        buf.readableBytes = 0) }
  recv r piece := { r with buf := r.buf.append piece, calls := [], running := true }

/-- After each append, `Parse` until it asks for more bytes, a message or a chunk is complete,
the bytes are rejected, or the buffer is empty. -/
def messageReader : FeedLoop Reader Bytes Fault where
  guard r := r.running
  body r := do
    let (state, p, buf) ← parse r.parser r.buf
    .ok {
      parser := p, buf := buf, calls := r.calls ++ [state]
      running := ¬ (state = .kExpectHttpComplete ∨ state = .kExpectChunkComplete ∨
        state = .kExpectContinue ∨ state = .kExpectError ∨ buf.readableBytes = 0) }
  recv r piece := { r with buf := r.buf.append piece, calls := [], running := true }

/-- A caller that takes chunks; `chunks` are the values of `Chunk()` it has taken. -/
structure ChunkReader where
  parser : HttpParser
  buf : WfBuffer
  chunks : List (Option Packet) := []
  running : Bool := false

/-- After each append, `Parse` until it makes no more progress, with
`ClearForNextChunk` after each `kExpectChunkComplete`. -/
def chunkReader : FeedLoop ChunkReader Bytes Fault where
  guard r := r.running
  body r := do
    let (state, p, buf) ← parse r.parser r.buf
    .ok (if state = .kExpectChunkComplete then
        { r with parser := p.clearForNextChunk, buf := buf, chunks := r.chunks ++ [p.chunk] }
      else
        { r with
          parser := p, buf := buf
          running := p.state ≠ r.parser.state ∨ buf.readableBytes ≠ r.buf.readableBytes })
  recv r piece := { r with buf := r.buf.append piece, running := true }

end HttpNest
