import HttpNest.Spec.HttpContext
import HttpNest.Spec.HttpMessage
import HttpNest.Spec.HttpPost
import HttpNest.Spec.InetAddress

/-!
# `HttpClient`

The request that `CreateTcpClient` makes of a URL, and the peer's address, which `ParseUrl` takes
from the same text and then looks up. When the connection is up, `OnConnection` makes an
`HttpContext` and gives it the request's headers and the packet.
-/

namespace HttpNest

open CNumeral ListSearch

namespace HttpClient

/-- What `ParseUrl` puts into the request; `none` where it answers `false`. -/
def parseUrl (request : HttpRequest) (url : Bytes) : Option HttpRequest :=
  if 7 < url.length then
    match find [47] (url.drop 7) with
    | some pos =>
      let path := (url.drop 7).drop pos
      let request := match find [63] path with
        | some pos1 => (request.setPath (path.take pos1)).setQuery (path.drop (pos1 + 1))
        | none => request.setPath path
      some (request.addHeader (ascii "Host") ((url.drop 7).take pos))
    | none => some ((request.setPath (ascii "/")).addHeader (ascii "Host") (url.drop 7))
  else none

/-- What `ParseUrl` puts into `addr_` before it looks the name up. The position of the colon is one
in the domain, and the port is read behind this position in the URL. -/
def parseAddress (addr : InetAddress) (url : Bytes) : Option InetAddress :=
  if 7 < url.length then
    match find [47] (url.drop 7) with
    | some pos =>
      let domain := (url.drop 7).take pos
      some (match find [58] domain with
        | some pos2 => (addr.setAddr (domain.take pos2)).setPort
            (BitVec.ofInt 16 (atoi (url.drop (pos2 + 1))))
        | none => (addr.setAddr domain).setPort 80)
    | none => some ((addr.setAddr (url.drop 7)).setPort 80)
  else none

/-- The request of `Post`, or of `Get`. -/
def createTcpClient (isPost : Bool) (url : Bytes) : Option HttpRequest :=
  let request := { HttpRequest.new true with method := if isPost then .kPost else .kGet }
  let request := request.addHeader (ascii "User-Agent") (ascii "curl/7.61.1")
  let request := request.addHeader (ascii "Accept") (ascii "*/*")
  parseUrl request url

/-- The bytes that `OnConnection` has handed to the connection when the context has sent what
it was given. `WriteComplete` is called whenever the connection gets writable. -/
def Hands (request : HttpRequest) (packet : Packet) (bytes : Bytes) : Prop :=
  ∃ request', HttpRequest.Reordered request request' ∧
    ∃ (headerSent : Bool) (es : List PostEvent) (s : Posting),
      EventRun.run Posting.step (.start headerSent) es = some s ∧
      Posting.posts es = [.postRequest request'.makeHeaders packet] ∧
      s.poster.postState = .kHttpContextPostInit ∧ s.handed.flatten = bytes

end HttpClient

end HttpNest
