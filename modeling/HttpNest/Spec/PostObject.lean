import HttpNest.Spec.HttpMessage
import HttpNest.Spec.HttpPost

/-!
# Objects and packets that are posted

`PostRequest(HttpRequestPtr&)` takes a whole request or response and calls the posting function
for its kind. `completions` is what the context does in a number of `WriteComplete` calls, one
after the other.
-/

namespace HttpNest

/-- A request or a response with its `body_`. -/
structure MessageObject where
  request : HttpRequest
  body : Bytes := []
  deriving DecidableEq

def MessageObject.appendToBuffer (m : MessageObject) : Bytes := m.request.makeHeaders ++ m.body

/-- What `PostRequest(HttpRequestPtr&)` is to hand to the connection. -/
def MessageObject.posted (m : MessageObject) : Bytes :=
  if m.request.isChunked ∨ m.request.isStream then m.request.makeHeaders else m.appendToBuffer

namespace HttpPoster

/-- `PostRequest(HttpRequestPtr&)`: the answer, the context after the call and the argument of
its `Send`, if there is one. What the senders answer is dropped. -/
def postObject (c : HttpPoster) (m : MessageObject) : Bool × HttpPoster × Option Bytes :=
  let sent :=
    if m.request.isChunked then c.postChunkHeader m.request.makeHeaders
    else if m.request.isStream then c.postStreamHeader m.request.makeHeaders
    else c.postHttp m.appendToBuffer
  (true, (sent.map Prod.fst).getD c, sent.map Prod.snd)

/-- The calls that `n` completions make. -/
def completions : ℕ → HttpPoster → List PostCall
  | 0, _ => []
  | n + 1, c => c.writeComplete.2.toList ++ completions n c.writeComplete.1

end HttpPoster

/-- The bytes handed to the connection by the calls before the first `OnSentNextChunk`. -/
def handedBefore : List PostCall → Bytes
  | [] => []
  | .send bs :: calls => bs ++ handedBefore calls
  | .onSent :: calls => handedBefore calls
  | .onSentNextChunk :: _ => []

end HttpNest
