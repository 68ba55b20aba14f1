import HttpNest.Spec.Session

/-!
# Bytes that arrive in pieces

A `Read` is a piece of a stream and the calls of `Parse` that follow it. A `StreamReader` is a
caller that takes the packets of a body without an end: it calls `ClearForNextChunk` after every
`kExpectChunkComplete` and keeps what `Chunk()` was before.
-/

namespace HttpNest

open HttpParser EventRun

/-- `Parse` is called at least once after the piece is in the buffer. -/
structure Read where
  piece : Bytes
  again : ℕ

def Read.calls (r : Read) : List Call := .append r.piece :: List.replicate (r.again + 1) .parse

/-- The reads are a way of splitting `bs`. -/
def Splits (reads : List Read) (bs : Bytes) : Prop := reads.flatMap Read.piece = bs

/-- `none` where a call of `Parse` faults. -/
def Session.readAll (s : Session) (reads : List Read) : Option Session :=
  run Session.step s (reads.flatMap Read.calls)

/-- `received` are the bytes that have arrived in the body, `delivered` the packets taken. -/
structure StreamReader where
  parser : HttpParser
  buf : WfBuffer
  received : Bytes
  delivered : List Packet := []

inductive StreamEvent
  | append (bs : Bytes)
  | parse
  | take

/-- One event; `none` where `Parse` faults. A packet that is not complete is not taken. -/
def StreamReader.step (r : StreamReader) : StreamEvent → Option StreamReader
  | .append bs => some { r with buf := r.buf.append bs, received := r.received ++ bs }
  | .parse =>
    match parse r.parser r.buf with
    | .ok (_, p, buf) => some { r with parser := p, buf := buf }
    | .error _ => none
  | .take =>
    if r.parser.state = .kExpectChunkComplete then
      some { r with
        parser := r.parser.clearForNextChunk, delivered := r.delivered ++ r.parser.chunk.toList }
    else some r

end HttpNest
