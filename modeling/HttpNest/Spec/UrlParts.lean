import HttpNest.Spec.HttpRequest

/-!
# `http://host[:port][/path][?query]`
-/

namespace HttpNest

open CNumeral

/-- The parts of a URL; the path with its first `/`. -/
structure UrlParts where
  host : Bytes
  port : Option Bytes := none
  path : Bytes := []
  query : Option Bytes := none
  deriving DecidableEq, Repr

namespace UrlParts

/-- `host[:port]` -/
def authority (u : UrlParts) : Bytes := u.host ++ u.port.elim [] (58 :: ·)

def text (u : UrlParts) : Bytes :=
  ascii "http://" ++ (u.authority ++ (u.path ++ u.query.elim [] (63 :: ·)))

/-- The port that is given, or 80. -/
def portNumber (u : UrlParts) : ℕ := u.port.elim 80 decimal

/-- No part has a delimiter that would end it before. -/
structure WellFormed (u : UrlParts) : Prop where
  host_ne : u.host ≠ []
  host : ∀ c ∈ u.host, c ≠ 47 ∧ c ≠ 58 ∧ c ≠ 63
  port : ∀ p, u.port = some p → IsDec p ∧ 1 ≤ decimal p ∧ decimal p ≤ 65535
  path : u.path = [] ∨ ∃ rest, u.path = 47 :: rest
  path_query : 63 ∉ u.path

end UrlParts

end HttpNest
