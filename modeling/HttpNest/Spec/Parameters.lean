import HttpNest.Lib.EventRun
import HttpNest.Spec.HttpMessage

/-!
# `SetQuery` and `SetParameter` in any order

A `ParameterRun` is a request on which the two setters are called, beside the map that its
parameters should be: that of the last query, overlaid by the `SetParameter` calls after it.
-/

namespace HttpNest

/-- A query by the rules of `ParseParameters`, on its own. -/
def HttpRequest.parsedQuery (query : Bytes) : StringMap := ((new true).setQuery query).parameters

inductive ParameterCall
  | setQuery (query : Bytes)
  | setParameter (key value : Bytes)
  deriving DecidableEq

structure ParameterRun where
  request : HttpRequest
  latest : StringMap
  deriving DecidableEq

namespace ParameterRun

/-- A new request. -/
def start (isRequest : Bool) : ParameterRun := ⟨.new isRequest, ∅⟩

def step (s : ParameterRun) : ParameterCall → Option ParameterRun
  | .setQuery query => some ⟨s.request.setQuery query, HttpRequest.parsedQuery query⟩
  | .setParameter key value =>
    some ⟨s.request.setParameter key value, s.latest.insert key value⟩

end ParameterRun

end HttpNest
