import HttpNest.Lib.CNumeral
import HttpNest.Lib.Search
import HttpNest.Spec.MsgBuffer

/-!
# Requests and the texts they are built from

`StringUtils::SplitString`, the functions of `HttpUtils` that reading a header block
uses, and `HttpRequest` with every field such a block sets. The two
`unordered_map`s are association lists without duplicate keys.
-/

namespace HttpNest

open CNumeral ListSearch

/-- The bytes of a text of the source. -/
def ascii (s : String) : Bytes := s.toList.map fun c => UInt8.ofNat c.toNat

def CRLF : Bytes := [13, 10]

def CRLFCRLF : Bytes := [13, 10, 13, 10]

/-- `::tolower` in the C locale. -/
def toLower (c : UInt8) : UInt8 := if 65 ≤ c && c ≤ 90 then c + 32 else c

/-! ## `StringUtils` -/

namespace StringUtils

/-- The loop of `SplitString`, on what follows `last`. -/
def splitLoop (delimiter : Bytes) : ℕ → Bytes → List Bytes
  | 0, _ => []
  | fuel + 1, s =>
    match find delimiter s with
    | some next => s.take next :: splitLoop delimiter fuel (s.drop (next + delimiter.length))
    | none => if s = [] then [] else [s]

/-- Every turn of the loop drops a non-empty delimiter. -/
def splitString (s delimiter : Bytes) : List Bytes :=
  if delimiter = [] then [] else splitLoop delimiter (s.length + 1) s

end StringUtils

/-! ## `HttpUtils` -/

inductive HttpMethod
  | kGet
  | kPost
  | kHead
  | kPut
  | kDelete
  | kOptions
  | kPatch
  | kInvalid
  deriving DecidableEq, Repr

inductive Version
  | kUnknown
  | kHttp10
  | kHttp11
  deriving DecidableEq, Repr

namespace HttpUtils

def parseMethod (method : Bytes) : HttpMethod :=
  if method = ascii "GET" then .kGet
  else if method = ascii "PUT" then .kPut
  else if method = ascii "POST" then .kPost
  else if method = ascii "HEAD" then .kHead
  else if method = ascii "DELETE" then .kDelete
  else if method = ascii "OPTIONS" then .kOptions
  else .kInvalid

/-- Is there a `+` or a `%`? -/
def needUrlDecoding (url : Bytes) : Bool := url.any fun c => c == 43 || c == 37

def urlDecode : Bytes → Bytes
  | [] => []
  | 43 :: s => 32 :: urlDecode s
  | 37 :: a :: b :: s =>
    match digit? 16 a, digit? 16 b with
    | some x1, some x2 => UInt8.ofNat (x1 * 16 + x2) :: urlDecode s
    | _, _ => 37 :: urlDecode (a :: b :: s)
  | c :: s => c :: urlDecode s

def ltrim (s : Bytes) : Bytes := s.dropWhile isSpace

def rtrim (s : Bytes) : Bytes := (s.reverse.dropWhile isSpace).reverse

def trim (s : Bytes) : Bytes := ltrim (rtrim s)

end HttpUtils

/-! ## `HttpRequest` -/

abbrev StringMap := AList fun _ : Bytes => Bytes

structure HttpRequest where
  method : HttpMethod := .kInvalid
  version : Version := .kUnknown
  path : Bytes := []
  query : Bytes := []
  headers : StringMap := ∅
  parameters : StringMap := ∅
  code : ℕ := 0
  isRequest : Bool := true
  isStream : Bool := false
  isChunked : Bool := false
  deriving DecidableEq

namespace HttpRequest

/-- The constructor. -/
def new (isRequest : Bool) : HttpRequest := { isRequest := isRequest }

def addHeader (r : HttpRequest) (field value : Bytes) : HttpRequest :=
  { r with headers := r.headers.insert (field.map toLower) value }

def getHeader (r : HttpRequest) (field : Bytes) : Bytes :=
  (r.headers.lookup (field.map toLower)).getD []

def setParameter (r : HttpRequest) (key value : Bytes) : HttpRequest :=
  { r with parameters := r.parameters.insert key value }

def parseParameters (r : HttpRequest) : HttpRequest :=
  (StringUtils.splitString r.query [38]).foldl (fun r l =>
    match find [61] l with
    | some pos => r.setParameter (HttpUtils.trim (l.take pos)) (HttpUtils.trim (l.drop (pos + 1)))
    | none => r) r

def setQuery (r : HttpRequest) (query : Bytes) : HttpRequest :=
  parseParameters { r with query := query }

def setMethod (r : HttpRequest) (method : Bytes) : HttpRequest :=
  { r with method := HttpUtils.parseMethod method }

/-- The source compares six characters with the seven of `"HTTP/1."`. -/
def setVersion (r : HttpRequest) (v : Bytes) : HttpRequest :=
  { r with version :=
      if v.length = 8 ∧ v.take 6 ≠ ascii "HTTP/1." then
        if v[7]? = some 49 then .kHttp11 else if v[7]? = some 48 then .kHttp10 else .kUnknown
      else .kUnknown }

def setPath (r : HttpRequest) (path : Bytes) : HttpRequest :=
  { r with path :=
      if HttpUtils.needUrlDecoding path then HttpUtils.urlDecode path else path }

/-- An `int32_t` stored in a `uint32_t`. -/
def setStatusCode (r : HttpRequest) (code : ℤ) : HttpRequest :=
  { r with code := (code % 2 ^ 32).toNat }

end HttpRequest

end HttpNest
