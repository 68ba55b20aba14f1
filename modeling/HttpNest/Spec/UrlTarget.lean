import HttpNest.Lib.PercentCoding
import HttpNest.Spec.HttpClient

/-!
# The resource of a URL and of a request

A `UrlTarget` is an `http` URL whose path and query are percent-encoded: lists of tokens, whose
characters RFC 3986 allows there. `SameResource` compares it with the target of a start line:
the segments of the path and the items of the query, each as it is read.
-/

namespace HttpNest

open ListSearch PercentCoding

/-- Letters, digits and the marks that stand for themselves in a path segment. -/
def isPchar (c : UInt8) : Bool :=
  (65 ≤ c && c ≤ 90) || (97 ≤ c && c ≤ 122) || (48 ≤ c && c ≤ 57) ||
    (ascii "-._~!$&'()*+,;=:@").contains c

def PathChar (c : UInt8) : Prop := isPchar c ∨ c = 47

def QueryChar (c : UInt8) : Prop := isPchar c ∨ c = 47 ∨ c = 63

instance : DecidablePred PathChar := fun c => inferInstanceAs (Decidable (isPchar c ∨ c = 47))

instance : DecidablePred QueryChar :=
  fun c => inferInstanceAs (Decidable (isPchar c ∨ c = 47 ∨ c = 63))

structure UrlTarget where
  authority : Bytes
  path : List Token
  query : Option (List Token)
  authority_ne : authority ≠ []
  authority_end : 47 ∉ authority ∧ 63 ∉ authority
  path_start : path = [] ∨ ∃ ts, path = .raw 47 :: ts
  path_valid : ∀ t ∈ path, t.Valid PathChar
  query_valid : ∀ ts, query = some ts → ∀ t ∈ ts, t.Valid QueryChar

/-- The URL. -/
def UrlTarget.text (u : UrlTarget) : Bytes :=
  ascii "http://" ++ (u.authority ++ (PercentCoding.text u.path ++
    u.query.elim [] fun ts => 63 :: PercentCoding.text ts))

/-- Cut at the first `?`. -/
def cutQuery (s : Bytes) : Bytes × Option Bytes :=
  match find [63] s with
  | some pos => (s.take pos, some (s.drop (pos + 1)))
  | none => (s, none)

/-- The second word of a start line. -/
def requestTarget (head : Bytes) : Bytes := ((head.splitOn 32)[1]?).getD []

end HttpNest
