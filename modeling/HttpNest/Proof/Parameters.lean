import HttpNest.Proof.StartLine
import HttpNest.Spec.Parameters

/-!
# Queries and parameters

`SetQuery` adds to the parameters that are there, and `SetParameter` leaves the query as it is.
So the two agree all along a sequence of calls exactly if no call needs more than that
(`agreement_iff`): a query names every parameter that has had a value, and `SetParameter` sets
what the query says already.
-/

namespace HttpNest

open Assignments EventRun HttpUtils

variable {r : HttpRequest} {q key x : Bytes}

theorem lookup_parsedQuery (q x : Bytes) : (HttpRequest.parsedQuery q).lookup x =
    lastValue ((assignments 38 61 q).map (Prod.map trim trim)) x := by
  rw [HttpRequest.parsedQuery, lookup_setQuery]
  exact Option.or_none

/-- What is in the map stays there, where the query does not name it. -/
theorem lookup_setQuery_parsedQuery (r : HttpRequest) (q x : Bytes) :
    (r.setQuery q).parameters.lookup x =
      ((HttpRequest.parsedQuery q).lookup x).or (r.parameters.lookup x) := by
  rw [lookup_setQuery, lookup_parsedQuery]

theorem query_setQuery (r : HttpRequest) (q : Bytes) : (r.setQuery q).query = q := by
  obtain ⟨m, hm⟩ := setQuery_eq r q
  rw [hm]

namespace ParameterRun

variable {s t : ParameterRun} {c : ParameterCall}

/-- `GetParameter` answers from the map that it should, which is that of `Query()`. -/
structure InAgreement (s : ParameterRun) : Prop where
  get : ∀ key, s.request.getParameter key = (s.latest.lookup key).getD []
  query : ∀ key, (HttpRequest.parsedQuery s.request.query).lookup key = s.latest.lookup key

/-- A query names every parameter that has a value in the query before; a parameter is set to
the value that it has there. -/
def Agrees (s : ParameterRun) : ParameterCall → Prop
  | .setQuery query => ∀ key value,
    (HttpRequest.parsedQuery s.request.query).lookup key = some value → value ≠ [] →
      ((HttpRequest.parsedQuery query).lookup key).isSome
  | .setParameter key value => (HttpRequest.parsedQuery s.request.query).lookup key = some value

theorem inAgreement_start (isRequest : Bool) : InAgreement (start isRequest) := by
  refine ⟨fun key => rfl, fun key => ?_⟩
  rw [lookup_parsedQuery]
  show lastValue ((assignments 38 61 []).map (Prod.map trim trim)) key = _
  rw [assignments_nil]
  rfl

/-- What `GetParameter` answers behind `SetQuery`. -/
theorem getParameter_setQuery (r : HttpRequest) (q key : Bytes) :
    (r.setQuery q).getParameter key =
      ((HttpRequest.parsedQuery q).lookup key).getD (r.getParameter key) := by
  rw [HttpRequest.getParameter, lookup_setQuery_parsedQuery, HttpRequest.getParameter]
  cases (HttpRequest.parsedQuery q).lookup key <;> rfl

/-- A query keeps the agreement exactly if it names every parameter that has a value. -/
theorem InAgreement.setQuery_iff (h : InAgreement s) (ht : s.step (.setQuery q) = some t) :
    InAgreement t ↔ s.Agrees (.setQuery q) := by
  cases ht
  constructor
  · intro ht key value hk hne
    by_contra hno
    rw [Option.not_isSome_iff_eq_none] at hno
    -- the parameter of the query before is still there
    have hget := ht.get key
    simp only [getParameter_setQuery, hno, Option.getD_none, h.get, ← h.query, hk] at hget
    exact hne hget
  · intro hc
    refine ⟨fun key => ?_, fun key => ?_⟩
    · simp only [getParameter_setQuery]
      rcases hq : (HttpRequest.parsedQuery q).lookup key with _ | value
      · rw [Option.getD_none, Option.getD_none, h.get, ← h.query]
        rcases hold : (HttpRequest.parsedQuery s.request.query).lookup key with _ | value
        · rfl
        · by_contra hne
          have hnamed := hc key value hold (fun hempty => hne (by rw [hempty]; rfl))
          rw [hq] at hnamed
          cases hnamed
      · rfl
    · simp only [query_setQuery]

/-- A parameter keeps the agreement exactly if the query has it with this value. -/
theorem InAgreement.setParameter_iff (h : InAgreement s) {value : Bytes}
    (ht : s.step (.setParameter key value) = some t) :
    InAgreement t ↔ s.Agrees (.setParameter key value) := by
  cases ht
  constructor
  · intro ht
    have hquery := ht.query key
    rwa [AList.lookup_insert] at hquery
  · intro hc
    have hc : (HttpRequest.parsedQuery s.request.query).lookup key = some value := hc
    refine ⟨fun x => ?_, fun x => ?_⟩
    · have hget := h.get x
      simp only [HttpRequest.getParameter, HttpRequest.setParameter] at hget ⊢
      by_cases hx : x = key
      · rw [hx, AList.lookup_insert, AList.lookup_insert]
      · rw [AList.lookup_insert_ne hx, AList.lookup_insert_ne hx, hget]
    · by_cases hx : x = key
      · rw [hx, AList.lookup_insert]
        exact hc
      · rw [AList.lookup_insert_ne hx]
        exact h.query x

theorem InAgreement.step_iff (h : InAgreement s) (ht : s.step c = some t) :
    InAgreement t ↔ s.Agrees c := by
  cases c with
  | setQuery q => exact h.setQuery_iff ht
  | setParameter key value => exact h.setParameter_iff ht

/-- **When query and parameters agree**: all along a sequence of calls on a new request
`GetParameter` answers from the last query and what was set after it, and `Query()` has the same
map, exactly if every query names the parameters that have had a value, and every parameter is set
to the value that the query gives it. -/
theorem agreement_iff (isRequest : Bool) (cs : List ParameterCall) :
    Passes step InAgreement (start isRequest) cs ↔ Meets step Agrees (start isRequest) cs := by
  refine passes_iff_meets InAgreement (fun _ h => h) ?_ ?_ (inAgreement_start isRequest)
  · intro s c t h hc ht
    exact (h.step_iff ht).2 hc
  · intro s c h hc
    obtain ⟨t, ht⟩ : ∃ t, s.step c = some t := by cases c <;> exact ⟨_, rfl⟩
    exact ⟨t, ht, fun hagree => hc ((h.step_iff ht).1 hagree)⟩

/-- `a=1` is still there after the query `b=2`. -/
theorem earlier_query_remains :
    ¬ ∀ (isRequest : Bool) (cs : List ParameterCall),
      Passes step InAgreement (start isRequest) cs := by
  intro h
  have hagree := h true [.setQuery (ascii "a=1"), .setQuery (ascii "b=2")] 2 _ rfl
  have hget := hagree.get (ascii "a")
  revert hget
  decide +kernel

end ParameterRun

end HttpNest
