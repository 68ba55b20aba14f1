import HttpNest.Proof.StartLine

/-!
# When a start line comes back

Names and values are coded when they are written, as part of the target, and not decoded
when they are read; the `&` and `=` in them are not coded at all. So a request comes back,
whatever order its parameters are written in, exactly if its path has no `?`, every
parameter with a value is read as one assignment and coded as itself, and what a parameter
without a value is read as agrees with the others (`Verbatim`).

That names and values have to be coded as themselves takes all parameters together: if they
come back, the coded pair of each one is a parameter too, and among finitely many parameters
the pairs cannot grow for ever (`Known.kept`).
-/

namespace HttpNest

open Assignments HttpUtils

variable {r r' : HttpRequest}

/-- What a parameter, written as `key=value`, is read as. -/
def readAs (e : (_ : Bytes) × Bytes) : List (Bytes × Bytes) :=
  assignments 38 61 (e.1 ++ 61 :: e.2)

theorem assignments_parameterText (r : HttpRequest) :
    assignments 38 61 r.parameterText = r.parameters.entries.flatMap readAs := by
  rw [HttpRequest.parameterText, assignments_intercalate, List.flatMap_map]
  rfl

/-- The names and values that the reader of a start line knows. -/
def knownParameters (es : List ((_ : Bytes) × Bytes)) : List (Bytes × Bytes) :=
  (es.flatMap readAs).map (Prod.map urlEncode urlEncode)

/-- **What is read back**, unless the path has a `?`. -/
theorem reread_eq (hpath : r.path ≠ []) (hq : 63 ∉ r.path) :
    r.reread.path = r.path ∧
      ∀ x, r.reread.parameters.lookup x = lastValue (knownParameters r.parameters.entries) x := by
  rw [HttpRequest.reread, HttpRequest.target, if_neg hpath]
  by_cases hnil : r.parameters.entries = []
  · rw [if_pos hnil, List.append_nil]
    obtain ⟨hp, hl⟩ := startRequest_path (HttpRequest.methodWord r.method)
      (HttpRequest.versionWord r.version) hq
    refine ⟨hp, fun x => ?_⟩
    rw [hl, hnil]
    rfl
  · rw [if_neg hnil]
    obtain ⟨hp, hl⟩ := startRequest_query (HttpRequest.methodWord r.method)
      (HttpRequest.versionWord r.version) hq r.parameterText
    refine ⟨hp, fun x => ?_⟩
    rw [hl, assignments_parameterText]
    rfl

/-- A path with a `?` is cut there. -/
theorem reread_path_ne (hq : 63 ∈ r.path) : r.reread.path ≠ r.path := by
  obtain ⟨s, t, hst, hs⟩ := List.eq_append_cons_of_mem hq
  have hpath : r.path ≠ [] := by
    rw [hst]
    simp
  have htarget : ∃ u, r.target = s ++ 63 :: u := by
    rw [HttpRequest.target, if_neg hpath, hst, List.append_assoc]
    exact ⟨_, rfl⟩
  obtain ⟨u, hu⟩ := htarget
  -- what is read as the path ends at the first `?`
  rw [HttpRequest.reread, hu, (startRequest_query _ _ hs u).1]
  intro he
  have hlen := congrArg List.length (he.trans hst)
  simp at hlen

/-! ## The property -/

/-- **A request comes back** when it is written, with its maps in any order, and a fresh
parser is called. -/
def RoundTrips (r : HttpRequest) : Prop :=
  ∀ r', HttpRequest.Reordered r r' → ∀ b : WfBuffer, b.bytes = r'.makeHeaders →
    ∃ s p' b' q, HttpParser.parse {} b = .ok (s, p', b') ∧ p'.req = some q ∧ q.SameStart r

/-- The property is about what the start line is read as. -/
theorem roundTrips_iff_reread (hreq : r.isRequest = true) :
    RoundTrips r ↔ ∀ r', HttpRequest.Reordered r r' → r'.reread.SameStart r := by
  constructor
  · intro h r' hr'
    have hreq' : r'.isRequest = true := hr'.start.2.2.2.trans hreq
    set b : WfBuffer := (WfBuffer.new 1024 (by decide)).append r'.makeHeaders
    have hb : b.bytes = r'.makeHeaders := by simp [b]
    obtain ⟨s, p', b', q, hparse, hq, hsame⟩ := h r' hr' b hb
    obtain ⟨s₁, p₁, b₁, q₁, hparse₁, hq₁, hsame₁⟩ := parse_makeHeaders hreq' hb
    rw [hparse] at hparse₁
    cases hparse₁
    rw [hq] at hq₁
    cases hq₁
    exact hsame₁.symm.trans hsame
  · intro h r' hr' b hb
    have hreq' : r'.isRequest = true := hr'.start.2.2.2.trans hreq
    obtain ⟨s, p', b', q, hparse, hq, hsame⟩ := parse_makeHeaders hreq' hb
    exact ⟨s, p', b', q, hparse, hq, hsame.trans (h r' hr')⟩

/-- The methods that `ParseMethod` knows. -/
def HttpRequest.KnownMethod (r : HttpRequest) : Prop :=
  r.method ∈ [HttpMethod.kGet, .kPost, .kHead, .kPut, .kDelete, .kOptions]

theorem reread_method (h : r.KnownMethod) : r.reread.method = r.method := by
  have hall : ∀ m ∈ [HttpMethod.kGet, .kPost, .kHead, .kPut, .kDelete, .kOptions],
      parseMethod (HttpRequest.methodWord m) = m := by decide +kernel
  rw [HttpRequest.reread, startRequest_method, hall _ h]

theorem reread_version (h : r.version ≠ .kUnknown) : r.reread.version = r.version := by
  have hall : ∀ v, v ≠ .kUnknown →
      ((HttpRequest.new true).setVersion (HttpRequest.versionWord v)).version = v := by
    intro v hv
    cases v with
    | kUnknown => exact absurd rfl hv
    | kHttp10 => decide +kernel
    | kHttp11 => decide +kernel
  rw [HttpRequest.reread, startRequest_version, hall _ h]

/-- Method and version always come back, so the question is about path and parameters. -/
theorem reread_sameStart_iff (hm : r.KnownMethod) (hv : r.version ≠ .kUnknown)
    (hpath : r.path ≠ []) (hr' : HttpRequest.Reordered r r') :
    r'.reread.SameStart r ↔ 63 ∉ r.path ∧
      ∀ x, (lastValue (knownParameters r'.parameters.entries) x).getD [] = r.getParameter x := by
  obtain ⟨hmethod, hp, hversion, -⟩ := hr'.start
  have hpath' : r'.path ≠ [] := hp ▸ hpath
  constructor
  · intro h
    -- a path with a question mark is cut there
    have hq : 63 ∉ r.path := by
      intro hmem
      rw [← hp] at hmem
      exact reread_path_ne hmem (h.path.trans hp.symm)
    refine ⟨hq, fun x => ?_⟩
    rw [← h.parameter x, HttpRequest.getParameter, (reread_eq hpath' (hp ▸ hq)).2]
  · rintro ⟨hq, h⟩
    obtain ⟨hp', hl⟩ := reread_eq hpath' (hp ▸ hq)
    have hm' : r'.KnownMethod := by
      rw [HttpRequest.KnownMethod, hmethod]
      exact hm
    refine ⟨(reread_method hm').trans hmethod, hp'.trans hp,
      (reread_version (hversion ▸ hv)).trans hversion, fun x => ?_⟩
    rw [HttpRequest.getParameter, hl, h]

/-! ## Parameters -/

/-- A parameter that is coded as itself, and read as itself. -/
structure Literal (k v : Bytes) : Prop where
  key : ∀ c ∈ k, isKept c
  value : ∀ c ∈ v, isKept c
  key_ampersand : 38 ∉ k
  key_equals : 61 ∉ k
  value_ampersand : 38 ∉ v

/-- **The requests that come back.** A parameter without a value may be read as anything
that agrees with the map. -/
structure Verbatim (r : HttpRequest) : Prop where
  path : 63 ∉ r.path
  valued : ∀ e ∈ r.parameters.entries, e.2 ≠ [] → Literal e.1 e.2
  unvalued : ∀ e ∈ r.parameters.entries, e.2 = [] → ∀ a b, lastValue (readAs e) a = some b →
    r.getParameter (urlEncode a) = urlEncode b

theorem getParameter_of_mem {e : (_ : Bytes) × Bytes} (he : e ∈ r.parameters.entries) :
    r.getParameter e.1 = e.2 := by
  have hl : r.parameters.lookup e.1 = some e.2 := AList.mem_lookup_iff.2 he
  rw [HttpRequest.getParameter, hl]
  rfl

theorem mem_of_getParameter {k : Bytes} (h : r.getParameter k ≠ []) :
    ⟨k, r.getParameter k⟩ ∈ r.parameters.entries := by
  rw [HttpRequest.getParameter] at h ⊢
  cases hl : r.parameters.lookup k with
  | none =>
    rw [hl] at h
    exact absurd rfl h
  | some v => exact AList.mem_lookup_iff.1 hl

/-- What is known comes from one parameter. -/
theorem of_knownParameters {es : List ((_ : Bytes) × Bytes)} {x y : Bytes}
    (h : lastValue (knownParameters es) x = some y) :
    ∃ e ∈ es, ∃ a b, lastValue (readAs e) a = some b ∧ x = urlEncode a ∧ y = urlEncode b := by
  obtain ⟨⟨a, b⟩, -, hab⟩ := List.mem_map.1 (mem_of_lastValue h)
  obtain ⟨rfl, rfl⟩ := Prod.mk.inj hab
  rw [knownParameters, lastValue_map urlEncode_injective, Option.map_eq_some_iff] at h
  obtain ⟨b', hb', heq⟩ := h
  obtain rfl := urlEncode_injective heq
  obtain ⟨e, he, hlast⟩ := lastValue_flatMap_eq_some hb'
  exact ⟨e, he, a, b', hlast, rfl, rfl⟩

theorem readAs_of_uncut {e : (_ : Bytes) × Bytes} (hk : 38 ∉ e.1) (hv : 38 ∉ e.2) (he : 61 ∉ e.1) :
    readAs e = [(e.1, e.2)] :=
  assignments_piece hk hv he (by decide)

/-- **A verbatim request's parameters are known as they are**, in any order. -/
theorem Verbatim.known (h : Verbatim r) {es : List ((_ : Bytes) × Bytes)}
    (hes : es.Perm r.parameters.entries) (x : Bytes) :
    (lastValue (knownParameters es) x).getD [] = r.getParameter x := by
  cases hl : lastValue (knownParameters es) x with
  | some y =>
    obtain ⟨e, he, a, b, hlast, rfl, rfl⟩ := of_knownParameters hl
    have hmem := hes.subset he
    by_cases hv : e.2 = []
    · exact (h.unvalued e hmem hv a b hlast).symm
    · have hlit := h.valued e hmem hv
      rw [readAs_of_uncut hlit.key_ampersand hlit.value_ampersand hlit.key_equals] at hlast
      have hab := mem_of_lastValue hlast
      rw [List.mem_singleton] at hab
      obtain ⟨rfl, rfl⟩ := Prod.mk.inj hab
      rw [urlEncode_of_kept hlit.key, urlEncode_of_kept hlit.value, getParameter_of_mem hmem]
      rfl
  | none =>
    by_contra hne
    -- a parameter with a value is coded as itself, so it is known
    have hmem := mem_of_getParameter (Ne.symm hne)
    have hlit := h.valued _ hmem (Ne.symm hne)
    have hkey : urlEncode x = x := urlEncode_of_kept hlit.key
    rw [knownParameters, ← hkey, lastValue_map urlEncode_injective,
      Option.map_eq_none_iff] at hl
    have hnone := lastValue_flatMap_eq_none hl (hes.symm.subset hmem)
    rw [readAs_of_uncut hlit.key_ampersand hlit.value_ampersand hlit.key_equals,
      lastValue_self] at hnone
    cases hnone

/-- What comes back in every order. -/
def Known (r : HttpRequest) : Prop :=
  ∀ es, es.Perm r.parameters.entries → ∀ x,
    (lastValue (knownParameters es) x).getD [] = r.getParameter x

/-- The parameter that is written last has the last word. -/
theorem Known.last (h : Known r) {e : (_ : Bytes) × Bytes} (he : e ∈ r.parameters.entries)
    {a b : Bytes} (hab : lastValue (readAs e) a = some b) :
    r.getParameter (urlEncode a) = urlEncode b := by
  have hperm : (r.parameters.entries.erase e ++ [e]).Perm r.parameters.entries :=
    List.perm_append_comm.trans (List.perm_cons_erase he).symm
  have hlast : lastValue (knownParameters (r.parameters.entries.erase e ++ [e])) (urlEncode a) =
      some (urlEncode b) := by
    rw [knownParameters, lastValue_map urlEncode_injective, List.flatMap_append, lastValue_append,
      List.flatMap_singleton, hab]
    rfl
  rw [← h _ hperm, hlast]
  rfl

/-- A parameter with a value is coded, and nothing cuts it. -/
theorem Known.coded (h : Known r) {e : (_ : Bytes) × Bytes} (he : e ∈ r.parameters.entries)
    (hv : e.2 ≠ []) :
    ∃ a b, e.1 = urlEncode a ∧ e.2 = urlEncode b ∧ 38 ∉ e.1 ∧ 61 ∉ e.1 ∧ 38 ∉ e.2 := by
  have hget := h _ .rfl e.1
  rw [getParameter_of_mem he] at hget
  cases hl : lastValue (knownParameters r.parameters.entries) e.1 with
  | none =>
    rw [hl] at hget
    exact absurd hget.symm hv
  | some y =>
    rw [hl, Option.getD_some] at hget
    -- it is read from some parameter, and coded by that
    obtain ⟨e', -, a, b, hlast, hk, hy⟩ := of_knownParameters hl
    obtain ⟨ha, hb, ha'⟩ := of_mem_assignments (mem_of_lastValue hlast)
    have hv' : e.2 = urlEncode b := hget.symm.trans hy
    refine ⟨a, b, hk, hv', ?_, ?_, ?_⟩
    · rw [hk]
      exact fun hm => ha (keeps_ampersand.mem_flatMap.1 hm)
    · rw [hk]
      exact fun hm => ha' (keeps_equals.mem_flatMap.1 hm)
    · rw [hv']
      exact fun hm => hb (keeps_ampersand.mem_flatMap.1 hm)

/-- The coded pair of a parameter with a value is a parameter too. -/
theorem Known.coded_mem (h : Known r) {e : (_ : Bytes) × Bytes} (he : e ∈ r.parameters.entries)
    (hv : e.2 ≠ []) : ⟨urlEncode e.1, urlEncode e.2⟩ ∈ r.parameters.entries := by
  obtain ⟨-, -, -, -, hk, hk', hv'⟩ := h.coded he hv
  have hread : lastValue (readAs e) e.1 = some e.2 := by
    rw [readAs_of_uncut hk hv' hk', lastValue_self]
  have hget := h.last he hread
  have hne : r.getParameter (urlEncode e.1) ≠ [] := by
    rw [hget, ← List.length_pos_iff]
    exact (List.length_pos_iff.2 hv).trans_le (length_le_urlEncode e.2)
  have hmem := mem_of_getParameter hne
  rwa [hget] at hmem

/-- **A parameter with a value has kept characters only.** Coding again and again leads
through parameters, so it stops growing, and a coded text that does not grow is not changed. -/
theorem Known.kept (h : Known r) {e : (_ : Bytes) × Bytes} (he : e ∈ r.parameters.entries)
    (hv : e.2 ≠ []) : (∀ c ∈ e.1, isKept c) ∧ ∀ c ∈ e.2, isKept c := by
  set size : ((_ : Bytes) × Bytes) → ℕ := fun e => e.1.length + e.2.length with hsize
  set M := r.parameters.entries.toFinset.sup size
  have hM : ∀ e ∈ r.parameters.entries, size e ≤ M :=
    fun e he => Finset.le_sup (f := size) (List.mem_toFinset.2 he)
  induction hn : M - size e using Nat.strong_induction_on generalizing e with
  | _ n ih =>
    obtain ⟨a, b, hk, hv', -⟩ := h.coded he hv
    have hmem := h.coded_mem he hv
    have h1 := length_le_urlEncode e.1
    have h2 := length_le_urlEncode e.2
    rcases Nat.lt_or_ge (size e) (size ⟨urlEncode e.1, urlEncode e.2⟩) with hgrow | hstop
    · -- the coded pair is nearer to the bound; it is coded as itself, so it is the pair
      have hle := hM _ hmem
      have hne : urlEncode e.2 ≠ [] := by
        rw [← List.length_pos_iff]
        exact (List.length_pos_iff.2 hv).trans_le h2
      obtain ⟨hk2, hv2⟩ := ih _ (by omega) hmem hne rfl
      have hkey : urlEncode e.1 = e.1 := urlEncode_injective (urlEncode_of_kept hk2)
      have hvalue : urlEncode e.2 = e.2 := urlEncode_injective (urlEncode_of_kept hv2)
      rw [hkey, hvalue] at hgrow
      exact absurd hgrow (lt_irrefl _)
    · -- nothing has grown, and a coded text has no blanks
      simp only [hsize] at hstop
      have hkb : 32 ∉ e.1 := hk ▸ (HttpRequest.not_mem_urlEncode a).1
      have hvb : 32 ∉ e.2 := hv' ▸ (HttpRequest.not_mem_urlEncode b).1
      exact ⟨kept_of_length_urlEncode hkb (by omega), kept_of_length_urlEncode hvb (by omega)⟩

theorem Known.literal (h : Known r) {e : (_ : Bytes) × Bytes} (he : e ∈ r.parameters.entries)
    (hv : e.2 ≠ []) : Literal e.1 e.2 := by
  obtain ⟨hk, hv'⟩ := h.kept he hv
  obtain ⟨-, -, -, -, h1, h2, h3⟩ := h.coded he hv
  exact ⟨hk, hv', h1, h2, h3⟩

/-- The parameters in a given order of iteration. -/
theorem exists_reordered {es : List ((_ : Bytes) × Bytes)} (h : es.Perm r.parameters.entries) :
    ∃ r', HttpRequest.Reordered r r' ∧ r'.parameters.entries = es := by
  have hnodup : es.NodupKeys := (List.perm_nodupKeys h).2 r.parameters.nodupKeys
  exact ⟨{ r with parameters := ⟨es, hnodup⟩ }, ⟨rfl, .rfl, h⟩, rfl⟩

/-- **A request's start line comes back exactly if the request is verbatim.** -/
theorem startLine_roundTrips_iff (hreq : r.isRequest = true) (hm : r.KnownMethod)
    (hpath : r.path ≠ []) (hv : r.version ≠ .kUnknown) : RoundTrips r ↔ Verbatim r := by
  rw [roundTrips_iff_reread hreq]
  constructor
  · intro h
    have hiff : ∀ r', HttpRequest.Reordered r r' → _ :=
      fun r' hr' => (reread_sameStart_iff hm hv hpath hr').1 (h r' hr')
    have hknown : Known r := by
      intro es hes
      obtain ⟨r', hr', rfl⟩ := exists_reordered hes
      exact (hiff r' hr').2
    refine ⟨(hiff r (.refl r)).1, fun e he hne => hknown.literal he hne, ?_⟩
    intro e he _ a b hab
    exact hknown.last he hab
  · intro h r' hr'
    exact (reread_sameStart_iff hm hv hpath hr').2 ⟨h.path, h.known hr'.parameters⟩

/-- A request with one parameter, `q`. -/
def searchRequest (path value : Bytes) : HttpRequest :=
  ({ HttpRequest.new true with method := .kGet, version := .kHttp11, path := path } :
    HttpRequest).setParameter (ascii "q") value

/-- A blank in the path is decoded again, and a value may hold a `=`. -/
theorem startLine_roundTrips_search : RoundTrips (searchRequest (ascii "/a b") (ascii "x=1")) := by
  have hmethod : (searchRequest (ascii "/a b") (ascii "x=1")).KnownMethod := List.mem_cons_self ..
  refine (startLine_roundTrips_iff rfl hmethod (by decide +kernel) (by decide)).2 ⟨?_, ?_, ?_⟩
  · decide +kernel
  · intro e he _
    obtain rfl := List.mem_singleton.1 he
    exact ⟨by decide +kernel, by decide +kernel, by decide +kernel, by decide +kernel,
      by decide +kernel⟩
  · intro e he hv
    obtain rfl := List.mem_singleton.1 he
    exact absurd hv (by decide +kernel)

/-- A blank in a value comes back as `+`. -/
theorem startLine_changed : ¬ RoundTrips (searchRequest (ascii "/") (ascii "a b")) := by
  intro h
  have hsame := (roundTrips_iff_reread rfl).1 h _ (.refl _)
  have hq := hsame.parameter (ascii "q")
  revert hq
  decide +kernel

end HttpNest
