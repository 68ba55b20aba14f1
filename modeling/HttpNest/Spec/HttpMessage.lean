import HttpNest.Spec.HttpRequest

/-!
# Writing start lines and headers

`HttpUtils::UrlEncode` and `HttpRequest::MakeHeaders`. The two `unordered_map`s are written
in the order in which they are iterated, which nothing fixes: a `Reordered` request has the
same maps in another order.
-/

namespace HttpNest

open CNumeral

namespace HttpUtils

def charToHex (c : UInt8) : Bytes := [hexDigit (c.toNat / 16), hexDigit (c.toNat % 16)]

/-- The letters, the digits and the marks that `UrlEncode` copies. -/
def isKept (c : UInt8) : Bool :=
  (65 ≤ c && c ≤ 90) || (97 ≤ c && c ≤ 122) || (48 ≤ c && c ≤ 57) ||
    (ascii "-_.!~*'()&=/\\?").contains c

/-- One turn of the loop of `UrlEncode`. -/
def urlEncodeChar (c : UInt8) : Bytes :=
  if c = 32 then [43] else if isKept c then [c] else 37 :: charToHex c

def urlEncode (src : Bytes) : Bytes := src.flatMap urlEncodeChar

def parseStatusMessage (code : ℕ) : Bytes :=
  match code with
  | 0 => ascii "unknown"
  | 100 => ascii "Continue"
  | 101 => ascii "Switching Protocols"
  | 200 => ascii "OK"
  | 201 => ascii "Created"
  | 202 => ascii "Accepted"
  | 203 => ascii "Non Authoritative Information"
  | 204 => ascii "No Content"
  | 205 => ascii "Reset Content"
  | 206 => ascii "Partial Content"
  | 300 => ascii "Multiple Choices"
  | 301 => ascii "Moved Permanently"
  | 302 => ascii "Found"
  | 303 => ascii "See Other"
  | 304 => ascii "Not Modified"
  | 305 => ascii "Use Proxy"
  | 307 => ascii "Temporary Redirect"
  | 308 => ascii "Permanent Redirect"
  | 400 => ascii "Bad Request"
  | 401 => ascii "Unauthorized"
  | 402 => ascii "Payment Required"
  | 403 => ascii "Forbidden"
  | 404 => ascii "Not Found"
  | 405 => ascii "Method Not Allowed"
  | 406 => ascii "Not Acceptable"
  | 407 => ascii "Proxy Authentication Required"
  | 408 => ascii "Request Timeout"
  | 409 => ascii "Conflict"
  | 410 => ascii "Gone"
  | 411 => ascii "Length Required"
  | 412 => ascii "Precondition Failed"
  | 413 => ascii "Request Entity Too Large"
  | 414 => ascii "Request URI Too Large"
  | 415 => ascii "Unsupported Media Type"
  | 416 => ascii "Requested Range Not Satisfiable"
  | 417 => ascii "Expectation Failed"
  | 418 => ascii "Im A Teapot"
  | 421 => ascii "Misdirected Request"
  | 425 => ascii "Too Early"
  | 426 => ascii "Upgrade Required"
  | 428 => ascii "Precondition Required"
  | 429 => ascii "Too Many Requests"
  | 431 => ascii "Request Header Fields Too Large"
  | 451 => ascii "Unavailable For Legal Reasons"
  | 500 => ascii "Internal Server Error"
  | 501 => ascii "Not Implemented"
  | 502 => ascii "Bad Gateway"
  | 503 => ascii "Service Unavailable"
  | 504 => ascii "Gateway Timeout"
  | 505 => ascii "HTTP Version Not Supported"
  | 510 => ascii "Not Extended"
  | _ => ascii "unknown"

end HttpUtils

namespace HttpRequest

/-- What is written before the first blank. -/
def methodWord : HttpMethod → Bytes
  | .kGet => ascii "GET"
  | .kPost => ascii "POST"
  | .kHead => ascii "HEAD"
  | .kPut => ascii "PUT"
  | .kDelete => ascii "DELETE"
  | .kOptions => ascii "OPTIONS"
  | .kPatch => ascii "PATCH"
  | .kInvalid => ascii "UNKNOW"

def versionWord (v : Version) : Bytes :=
  if v = .kHttp10 then ascii "HTTP/1.0" else ascii "HTTP/1.1"

/-- `key=value` for every parameter, with `&` between them. -/
def parameterText (r : HttpRequest) : Bytes :=
  [38].intercalate (r.parameters.entries.map fun e => e.1 ++ 61 :: e.2)

/-- Path and parameters, as they go into `UrlEncode` in one piece. -/
def target (r : HttpRequest) : Bytes :=
  (if r.path = [] then ascii "/" else r.path) ++
    if r.parameters.entries = [] then [] else 63 :: r.parameterText

def appendRequestFirstLine (r : HttpRequest) : Bytes :=
  methodWord r.method ++ [32] ++ HttpUtils.urlEncode r.target ++ [32] ++ versionWord r.version ++
    [32] ++ CRLF

def appendResponseFirstLine (r : HttpRequest) : Bytes :=
  versionWord r.version ++ [32] ++ ascii (toString r.code) ++ [32] ++
    HttpUtils.parseStatusMessage r.code ++ CRLF

def makeHeaders (r : HttpRequest) : Bytes :=
  (if r.isRequest then r.appendRequestFirstLine else r.appendResponseFirstLine) ++
    r.headers.entries.flatMap (fun h => h.1 ++ ascii ": " ++ h.2 ++ CRLF) ++ CRLF

def getParameter (r : HttpRequest) (key : Bytes) : Bytes := (r.parameters.lookup key).getD []

/-- The same request, with its maps in some order of iteration. -/
structure Reordered (r r' : HttpRequest) : Prop where
  fields : { r' with headers := r.headers, parameters := r.parameters } = r
  headers : r'.headers.entries.Perm r.headers.entries
  parameters : r'.parameters.entries.Perm r.parameters.entries

theorem Reordered.refl (r : HttpRequest) : Reordered r r := ⟨rfl, .rfl, .rfl⟩

end HttpRequest

end HttpNest
