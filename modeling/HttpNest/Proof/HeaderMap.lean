import HttpNest.Proof.HeaderBlock
import HttpNest.Proof.Reset
import HttpNest.Proof.StatusLine

/-!
# The header map

`ParseHeaders` looks for a colon in every line, the start line included, and keeps what follows
the colon as it stands. So the map is that of the lines behind the start line, without the blanks
around the values, exactly if the start line adds no name and no value has such blanks
(`headers_read_iff`). `MakeHeaders` writes a blank before every value: of the maps it writes,
the empty one alone is read back.
-/

namespace HttpNest

open Assignments CNumeral ListSearch HttpParser

variable {p : HttpParser} {b : WfBuffer} {line : Bytes} {rest : List Bytes} {i : ℕ}

/-- For each name the last value of a line behind the start line, without the blanks around it. -/
def fieldOf (rest : List Bytes) (name : Bytes) : Option Bytes :=
  (lastValue (rest.filterMap keyValue) name).map stripBlanks

/-- `Parse` leaves a request with these headers and no others. -/
def HeadersRead (p : HttpParser) (b : WfBuffer) (headers : Bytes → Option Bytes) : Prop :=
  ∃ s p' b' q, parse p b = .ok (s, p', b') ∧ p'.req = some q ∧
    ∀ name, q.headers.lookup name = headers name

/-- The start line adds no name, and no value that counts has blanks around it. -/
structure PlainFields (line : Bytes) (rest : List Bytes) : Prop where
  startLine : ∀ key value, keyValue line = some (key, value) →
    (lastValue (rest.filterMap keyValue) key).isSome
  values : ∀ key value, lastValue (rest.filterMap keyValue) key = some value →
    stripBlanks value = value

/-- The map of a block. -/
theorem lookup_blockRequest {block : Bytes} {r : HttpRequest} (hr : blockRequest block = some r)
    (hl : StringUtils.splitString block CRLF = line :: rest) (name : Bytes) :
    r.headers.lookup name = lastValue ((line :: rest).filterMap keyValue) name := by
  unfold blockRequest at hr
  simp only [hl] at hr
  split at hr
  · cases hr
    rw [lookup_foldl_addField, (startRequest_fresh _ _ _ _).1, AList.lookup_empty, Option.or_none]
    rfl
  · cases hr

/-- **The headers that are read** are the last values of all lines, as they stand. -/
theorem headersRead_iff (hs : p.state = .kExpectHeaders) (hf : find CRLFCRLF b.bytes = some i)
    (hl : StringUtils.splitString (b.bytes.take i) CRLF = line :: rest)
    (h3 : (StringUtils.splitString line [32]).length = 3) {headers : Bytes → Option Bytes} :
    HeadersRead p b headers ↔
      ∀ name, lastValue ((line :: rest).filterMap keyValue) name = headers name := by
  obtain ⟨r, hr⟩ := blockRequest_of_length hl h3
  have hparse := parse_headers_request hs (four_lt_length hf hr) hf hr
  set q : HttpParser :=
    { p with header := b.bytes.take i, isRequest := r.isRequest, req := some r }
  obtain ⟨chunked, stream, hreq⟩ := framed_req (show q.req = some r from rfl)
  have hlookup := lookup_blockRequest hr hl
  constructor
  · rintro ⟨s, p', b', q', h, hq', hheaders⟩ name
    have hp' : q.framed r = p' :=
      congrArg (fun r => r.2.1) (Except.ok.inj (hparse.symm.trans h))
    rw [← hp', hreq] at hq'
    rw [← hlookup, ← hheaders, ← Option.some.inj hq']
  · intro h
    exact ⟨_, _, _, _, hparse, hreq, fun name => (hlookup name).trans (h name)⟩

/-- **The map is that of the lines behind the start line exactly if it is plain.** -/
theorem plainFields_iff :
    (∀ name, lastValue ((line :: rest).filterMap keyValue) name = fieldOf rest name) ↔
      PlainFields line rest := by
  unfold fieldOf
  constructor
  · intro h
    constructor
    · intro key value hk
      by_contra hno
      rw [Option.not_isSome_iff_eq_none] at hno
      have hkey := h key
      rw [List.filterMap_cons_some hk, lastValue_cons, hno, if_pos (beq_self_eq_true key)] at hkey
      cases hkey
    · intro key value hv
      have hkey := h key
      rw [lastValue_lines hv, hv] at hkey
      exact (Option.some.inj hkey).symm
  · intro h name
    cases hv : lastValue (rest.filterMap keyValue) name with
    | some value => rw [lastValue_lines hv, Option.map_some, h.values name value hv]
    | none =>
      cases hk : keyValue line with
      | none =>
        rw [List.filterMap_cons_none hk, hv]
        rfl
      | some e =>
        -- the start line's name is one of the others, and this one is not
        have hother : ¬ (name == e.1) = true := by
          intro hname
          have hsome := h.startLine e.1 e.2 hk
          rw [← beq_iff_eq.1 hname, hv] at hsome
          cases hsome
        rw [List.filterMap_cons_some hk, lastValue_cons, hv, if_neg hother]
        rfl

/-! ## The maps that `MakeHeaders` writes -/

/-- Names without colon; names and values that stay on their line; values without blanks around
them. -/
structure Sendable (r : HttpRequest) : Prop where
  unbroken : r.Unbroken
  name : ∀ e ∈ r.headers.entries, 58 ∉ e.1
  value : ∀ e ∈ r.headers.entries, stripBlanks e.2 = e.2

/-- The blank is not part of such a value. -/
theorem stripBlanks_cons_ne (v : Bytes) : stripBlanks (32 :: v) ≠ 32 :: v := by
  intro h
  have hlen := congrArg List.length h
  have h1 : ((32 :: v).dropWhile isBlank).length ≤ v.length := by
    rw [List.dropWhile_cons_of_pos (by decide)]
    exact (List.dropWhile_suffix _).length_le
  have h2 : (stripBlanks (32 :: v)).length ≤ ((32 :: v).dropWhile isBlank).length :=
    (List.rdropWhile_prefix _ _).length_le
  rw [List.length_cons] at hlen
  omega

namespace HttpRequest

/-- The start line that `MakeHeaders` writes. -/
def firstLine (r : HttpRequest) : Bytes := if r.isRequest then r.startLine else r.statusLine

theorem firstLine_spec (r : HttpRequest) :
    r.firstLine ≠ [] ∧ 13 ∉ r.firstLine ∧ keyValue r.firstLine = none := by
  unfold firstLine
  split_ifs
  · exact ⟨r.startLine_ne_nil, r.cr_not_mem_startLine, r.keyValue_startLine⟩
  · refine ⟨r.statusLine_ne_nil, r.cr_not_mem_statusLine, ?_⟩
    have h1 : 58 ∉ versionWord r.version := by cases r.version <;> decide +kernel
    have h2 := (not_mem_decText r.code).2.2
    have h3 := (parseStatusMessage_spec r.code).2.1
    rw [keyValue, Option.map_eq_none_iff, find_singleton_none]
    simp [statusLine, h1, h2, h3]

theorem makeHeaders_eq_lines (r : HttpRequest) :
    r.makeHeaders =
      CRLF.intercalate (r.firstLine :: r.headers.entries.map headerLine) ++ CRLFCRLF := by
  rw [← append_headerLines, firstLine]
  split_ifs with h
  · exact makeHeaders_eq h
  · exact makeHeaders_eq_statusLine (by simpa using h)

/-- The lines that are read are those that were written. -/
theorem lines_of_makeHeaders {r : HttpRequest} (h : r.Unbroken) (hb : b.bytes = r.makeHeaders)
    (hf : find CRLFCRLF b.bytes = some i)
    (hl : StringUtils.splitString (b.bytes.take i) CRLF = line :: rest) :
    line = r.firstLine ∧ rest = r.headers.entries.map headerLine := by
  obtain ⟨hne, hcr, -⟩ := r.firstLine_spec
  have hlines := h.cons_lines hne hcr
  have hterminator := find_terminator_lines hlines (List.cons_ne_nil _ _)
  rw [hb, makeHeaders_eq_lines, hterminator] at hf
  rw [hb, makeHeaders_eq_lines, ← Option.some.inj hf, List.take_left,
    splitString_lines hlines] at hl
  exact ⟨(List.cons.inj hl).1.symm, (List.cons.inj hl).2.symm⟩

end HttpRequest

/-- In whatever order the map is written. -/
theorem Sendable.reordered {r r' : HttpRequest} (h : Sendable r)
    (hr : HttpRequest.Reordered r r') : Sendable r' :=
  ⟨fun e he => h.unbroken e (hr.headers.subset he), fun e he => h.name e (hr.headers.subset he),
    fun e he => h.value e (hr.headers.subset he)⟩

/-- **A map that was written is read back only if it is empty.** -/
theorem headersRead_makeHeaders_iff (hs : p.state = .kExpectHeaders)
    (hf : find CRLFCRLF b.bytes = some i)
    (hl : StringUtils.splitString (b.bytes.take i) CRLF = line :: rest)
    (h3 : (StringUtils.splitString line [32]).length = 3) {r r' : HttpRequest}
    (hr : HttpRequest.Reordered r r') (hsend : Sendable r) (hb : b.bytes = r'.makeHeaders) :
    HeadersRead p b r.headers.lookup ↔ r.headers = ∅ := by
  have hsend' := hsend.reordered hr
  obtain ⟨hline, hrest⟩ := HttpRequest.lines_of_makeHeaders hsend'.unbroken hb hf hl
  have hfields : (line :: rest).filterMap keyValue =
      r'.headers.entries.map fun e => (e.1.map toLower, 32 :: e.2) := by
    rw [hline, hrest, List.filterMap_cons_none r'.firstLine_spec.2.2,
      HttpRequest.filterMap_headerLine hsend'.name]
  rw [headersRead_iff hs hf hl h3, hfields]
  constructor
  · intro h
    by_contra hne
    -- the value of an entry is read with the blank that was written before it
    obtain ⟨e, he⟩ : ∃ e, e ∈ r.headers.entries := by
      refine List.exists_mem_of_ne_nil _ fun h0 => hne ?_
      exact AList.ext h0
    have hlookup : r.headers.lookup e.1 = some e.2 := AList.mem_lookup_iff.2 he
    have hmem := mem_of_lastValue ((h e.1).trans hlookup)
    obtain ⟨e', -, he'⟩ := List.mem_map.1 hmem
    have hvalue := hsend.value e he
    rw [← (Prod.mk.inj he').2] at hvalue
    exact stripBlanks_cons_ne _ hvalue
  · intro h name
    have hnil : r'.headers.entries = [] := by
      have hperm := hr.headers
      rw [h] at hperm
      exact hperm.eq_nil
    rw [hnil, h, AList.lookup_empty]
    rfl

/-- **The header map is what it is to be exactly for plain blocks**, and a map that
`MakeHeaders` wrote is read back unchanged only if it is empty. -/
theorem headers_read_iff (hs : p.state = .kExpectHeaders) (hf : find CRLFCRLF b.bytes = some i)
    (hl : StringUtils.splitString (b.bytes.take i) CRLF = line :: rest)
    (h3 : (StringUtils.splitString line [32]).length = 3) :
    (HeadersRead p b (fieldOf rest) ↔ PlainFields line rest) ∧
      ∀ r r', HttpRequest.Reordered r r' → Sendable r → b.bytes = r'.makeHeaders →
        (HeadersRead p b r.headers.lookup ↔ r.headers = ∅) := by
  refine ⟨(headersRead_iff hs hf hl h3).trans plainFields_iff, fun r r' hr hsend hb => ?_⟩
  exact headersRead_makeHeaders_iff hs hf hl h3 hr hsend hb

/-- A request with one header. -/
def oneHeader (header : String) : WfBuffer :=
  holding (ascii ("GET / HTTP/1.1\r\n" ++ header ++ "\r\n\r\n"))

/-- A header without a blank. -/
theorem headers_read_plain : HeadersRead {} (oneHeader "A:b") (fieldOf [ascii "A:b"]) := by
  have hbytes : (oneHeader "A:b").bytes = _ := bytes_holding _
  have hf : find CRLFCRLF (oneHeader "A:b").bytes = some 19 := by
    rw [hbytes]
    decide +kernel
  have hl : StringUtils.splitString ((oneHeader "A:b").bytes.take 19) CRLF =
      [ascii "GET / HTTP/1.1", ascii "A:b"] := by
    rw [hbytes]
    decide +kernel
  refine (headers_read_iff (p := {}) rfl hf hl (by decide +kernel)).1.2
    ⟨fun key value hk => ?_, fun key value hv => ?_⟩
  · rw [show keyValue (ascii "GET / HTTP/1.1") = none by decide +kernel] at hk
    cases hk
  · rw [show [ascii "A:b"].filterMap keyValue = [(ascii "a", ascii "b")] by decide +kernel] at hv
    rw [(Prod.mk.inj (List.mem_singleton.1 (mem_of_lastValue hv))).2]
    decide +kernel

/-- The usual form of a header: the value keeps its blank. -/
theorem headers_spaced : ¬ HeadersRead {} (oneHeader "A: b") (fieldOf [ascii "A: b"]) := by
  have hbytes : (oneHeader "A: b").bytes = _ := bytes_holding _
  have hf : find CRLFCRLF (oneHeader "A: b").bytes = some 20 := by
    rw [hbytes]
    decide +kernel
  have hl : StringUtils.splitString ((oneHeader "A: b").bytes.take 20) CRLF =
      [ascii "GET / HTTP/1.1", ascii "A: b"] := by
    rw [hbytes]
    decide +kernel
  intro h
  have ha := (headersRead_iff (p := {}) rfl hf hl (by decide +kernel)).1 h (ascii "a")
  revert ha
  decide +kernel

end HttpNest
