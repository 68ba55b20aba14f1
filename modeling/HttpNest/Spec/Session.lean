import HttpNest.Lib.EventRun
import HttpNest.Spec.HttpParser

/-!
# Using a parser over many messages

A `Session` is a parser and its buffer; a `Call` appends bytes, parses, or clears the
parser after the completion that the clearing function is for.
-/

namespace HttpNest

open HttpParser

structure Session where
  parser : HttpParser
  buf : WfBuffer

inductive Call
  | append (bs : Bytes)
  | parse
  | clearForNextHttp
  | clearForNextChunk

namespace Session

def start (buf : WfBuffer) : Session := ⟨{}, buf⟩

/-- One call; `none` where `Parse` faults, or nothing is complete yet. -/
def step (s : Session) : Call → Option Session
  | .append bs => some { s with buf := s.buf.append bs }
  | .parse =>
    match parse s.parser s.buf with
    | .ok (_, p, buf) => some ⟨p, buf⟩
    | .error _ => none
  | .clearForNextHttp =>
    if s.parser.state = .kExpectHttpComplete ∨ s.parser.state = .kExpectChunkComplete then
      some { s with parser := s.parser.clearForNextHttp }
    else none
  | .clearForNextChunk =>
    if s.parser.state = .kExpectChunkComplete then
      some { s with parser := s.parser.clearForNextChunk }
    else none

end Session

end HttpNest
