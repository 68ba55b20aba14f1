import HttpNest.Lib.EventRun
import HttpNest.Spec.HttpParser

/-!
# The public functions of a parser, in any order

A `ParserCall` is a call of `Parse` on some buffer, of `ClearForNextHttp` or of
`ClearForNextChunk`, whatever was returned before. `seen` is what a caller gets to see of a
list of calls.
-/

namespace HttpNest

inductive ParserCall
  | parse (buf : WfBuffer)
  | clearForNextHttp
  | clearForNextChunk

/-- After a call: what `Parse` returned and left in the buffer, `Chunk()`, `GetHttpRequest()`
and `Reason()`. -/
structure Seen where
  returned : Option (HttpParserState × WfBuffer)
  chunk : Option Packet
  request : Option HttpRequest
  reason : HttpStatusCode

namespace HttpParser

def call (p : HttpParser) :
    ParserCall → Except Fault (Option (HttpParserState × WfBuffer) × HttpParser)
  | .parse buf => (parse p buf).map fun r => (some (r.1, r.2.2), r.2.1)
  | .clearForNextHttp => .ok (none, p.clearForNextHttp)
  | .clearForNextChunk => .ok (none, p.clearForNextChunk)

/-- The parser after a call; `none` where the call faults. -/
def step (p : HttpParser) (c : ParserCall) : Option HttpParser :=
  (p.call c).toOption.map Prod.snd

/-- What the calls show, up to the first fault. -/
def seen : HttpParser → List ParserCall → List (Except Fault Seen)
  | _, [] => []
  | p, c :: cs =>
    match p.call c with
    | .error e => [.error e]
    | .ok (returned, p) => .ok ⟨returned, p.chunk, p.req, p.reason⟩ :: seen p cs

end HttpParser

end HttpNest
