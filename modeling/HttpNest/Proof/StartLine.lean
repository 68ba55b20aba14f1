import HttpNest.Proof.ParserStep
import HttpNest.Proof.UrlCoding

/-!
# Start lines, written and read back

`MakeHeaders` writes path and parameters as one text through `UrlEncode`. The coded text has
no blank, no `CR` and no `LF`, so the start line is cut into its three tokens again
(`splitString_startLine`), and a header block begins with it whatever the headers hold
(`blockRequest_startLine`).

The path is decoded when it is read; names and values are not. What is read back is
therefore the coded assignments of the whole parameter text (`startRequest_query`).
-/

namespace HttpNest

open CNumeral ListSearch Assignments HttpParser HttpUtils

/-! ## Reading a query -/

/-- The empty piece that `SplitString` drops at the end assigns nothing. -/
theorem filterMap_splitString (c eq : UInt8) (s : Bytes) :
    (StringUtils.splitString s [c]).filterMap (assign eq) = assignments c eq s := by
  induction hn : s.length using Nat.strong_induction_on generalizing s with
  | _ n ih =>
    by_cases hc : c ∈ s
    · obtain ⟨t, u, rfl, ht⟩ := List.eq_append_cons_of_mem hc
      have hlt : u.length < n := by
        rw [← hn, List.length_append, List.length_cons]
        omega
      rw [splitString_append_cons ht, assignments, List.splitOn_append_cons_self_of_not_mem ht,
        List.filterMap_cons, List.filterMap_cons, ih _ hlt u rfl]
      rfl
    · rw [splitString_of_not_mem hc, assignments, List.splitOn_eq_singleton hc]
      split_ifs with hs
      · simp [hs]
      · rfl

theorem trim_of_not_space {s : Bytes} (h : ∀ c ∈ s, isSpace c = false) : trim s = s := by
  have hdrop : ∀ t : Bytes, (∀ c ∈ t, isSpace c = false) → t.dropWhile isSpace = t := by
    intro t ht
    cases t with
    | nil => rfl
    | cons c t => exact List.dropWhile_cons_of_neg (by simp [ht c (List.mem_cons_self ..)])
  have hrev : ∀ c ∈ s.reverse, isSpace c = false := fun c hc => h c (List.mem_reverse.1 hc)
  rw [trim, rtrim, hdrop _ hrev, List.reverse_reverse, ltrim, hdrop s h]

/-- `ParseParameters` adds the trimmed assignments of the query. -/
theorem parameters_setQuery (r : HttpRequest) (q : Bytes) :
    (r.setQuery q).parameters = ((assignments 38 61 q).map (Prod.map trim trim)).foldl
      (fun m e => m.insert e.1 e.2) r.parameters := by
  -- one part after the other, whatever the function that adds a part
  have hfold : ∀ (f : HttpRequest → Bytes → HttpRequest),
      (∀ r l, find [61] l = none → f r l = r) →
      (∀ r l pos, find [61] l = some pos →
        f r l = r.setParameter (trim (l.take pos)) (trim (l.drop (pos + 1)))) →
      ∀ (ls : List Bytes) (r : HttpRequest), (ls.foldl f r).parameters =
        ((ls.filterMap (assign 61)).map (Prod.map trim trim)).foldl
          (fun m e => m.insert e.1 e.2) r.parameters := by
    intro f hnone hsome ls
    induction ls with
    | nil => exact fun _ => rfl
    | cons l ls ih =>
      intro r
      rw [List.foldl_cons, ih]
      cases hf : find [61] l with
      | none =>
        have ha : assign 61 l = none := by rw [assign, hf]; rfl
        rw [List.filterMap_cons_none ha, hnone r l hf]
      | some pos =>
        have ha : assign 61 l = some (l.take pos, l.drop (pos + 1)) := by rw [assign, hf]; rfl
        rw [List.filterMap_cons_some ha, hsome r l pos hf]
        rfl
  rw [← filterMap_splitString]
  refine hfold _ ?_ ?_ _ { r with query := q }
  · intro r l hf
    simp only [hf]
  · intro r l pos hf
    simp only [hf]

/-- **What is known after reading a query.** -/
theorem lookup_setQuery (r : HttpRequest) (q x : Bytes) :
    (r.setQuery q).parameters.lookup x =
      (lastValue ((assignments 38 61 q).map (Prod.map trim trim)) x).or
        (r.parameters.lookup x) := by
  rw [parameters_setQuery, lookup_foldl_insert]

theorem trim_urlEncode (s : Bytes) : trim (urlEncode s) = urlEncode s :=
  trim_of_not_space fun _ hc => (plain_of_mem_urlEncode hc).not_delimiter.1

/-- The query that a coded text sets: its names and values stay coded. -/
theorem lookup_setQuery_urlEncode (r : HttpRequest) (s x : Bytes) :
    (r.setQuery (urlEncode s)).parameters.lookup x =
      (lastValue ((assignments 38 61 s).map (Prod.map urlEncode urlEncode)) x).or
        (r.parameters.lookup x) := by
  have hcoded : assignments 38 61 (urlEncode s) =
      (assignments 38 61 s).map (Prod.map urlEncode urlEncode) :=
    assignments_flatMap keeps_ampersand keeps_equals s
  have htrim : (assignments 38 61 (urlEncode s)).map (Prod.map trim trim) =
      (assignments 38 61 s).map (Prod.map urlEncode urlEncode) := by
    rw [hcoded, List.map_map]
    congr 1
    funext e
    exact Prod.ext (trim_urlEncode e.1) (trim_urlEncode e.2)
  rw [lookup_setQuery, htrim]

/-! ## The start line in the header block -/

namespace HttpRequest

/-- The start line without its `CRLF`. -/
def startLine (r : HttpRequest) : Bytes :=
  methodWord r.method ++ 32 :: (urlEncode r.target ++ 32 :: (versionWord r.version ++ [32]))

theorem not_mem_methodWord (m : HttpMethod) :
    32 ∉ methodWord m ∧ 13 ∉ methodWord m ∧ methodWord m ≠ [] ∧
      ((methodWord m).map toLower).take 4 ≠ ascii "http" := by
  cases m <;> decide +kernel

theorem not_mem_versionWord (v : Version) : 32 ∉ versionWord v ∧ 13 ∉ versionWord v := by
  cases v <;> decide +kernel

theorem not_mem_urlEncode (s : Bytes) : 32 ∉ urlEncode s ∧ 13 ∉ urlEncode s :=
  ⟨fun h => (plain_of_mem_urlEncode h).not_delimiter.2.1 rfl,
    fun h => (plain_of_mem_urlEncode h).not_delimiter.2.2.1 rfl⟩

theorem cr_not_mem_startLine (r : HttpRequest) : 13 ∉ r.startLine := by
  have h1 := (not_mem_methodWord r.method).2.1
  have h2 := (not_mem_urlEncode r.target).2
  have h3 := (not_mem_versionWord r.version).2
  simp [startLine, h1, h2, h3]

theorem startLine_ne_nil (r : HttpRequest) : r.startLine ≠ [] := by
  simp [startLine]

/-- **The start line has the three tokens that were written.** -/
theorem splitString_startLine (r : HttpRequest) :
    StringUtils.splitString r.startLine [32] =
      [methodWord r.method, urlEncode r.target, versionWord r.version] := by
  have hnil : StringUtils.splitString [] [(32 : UInt8)] = [] := by decide
  rw [startLine, splitString_append_cons (not_mem_methodWord r.method).1,
    splitString_append_cons (not_mem_urlEncode r.target).1,
    splitString_append_cons (not_mem_versionWord r.version).1, hnil]

/-- The lines behind the start line, with the empty one that ends them. -/
def headerLines (r : HttpRequest) : Bytes :=
  r.headers.entries.flatMap (fun h => h.1 ++ ascii ": " ++ h.2 ++ CRLF) ++ CRLF

theorem makeHeaders_eq {r : HttpRequest} (h : r.isRequest = true) :
    r.makeHeaders = r.startLine ++ CRLF ++ r.headerLines := by
  rw [makeHeaders, if_pos h, appendRequestFirstLine, startLine, headerLines]
  simp

/-- The line before the last is ended too. -/
theorem terminator_isSuffix (r : HttpRequest) (line : Bytes) :
    CRLFCRLF <:+ line ++ CRLF ++ r.headerLines := by
  have hfour : CRLFCRLF = CRLF ++ CRLF := rfl
  rw [headerLines, hfour]
  rcases List.eq_nil_or_concat' r.headers.entries with hnil | ⟨es, e, he⟩
  · rw [hnil]
    exact ⟨line, by simp⟩
  · rw [he, List.flatMap_append]
    exact ⟨line ++ CRLF ++ (es.flatMap fun h => h.1 ++ ascii ": " ++ h.2 ++ CRLF) ++
      (e.1 ++ ascii ": " ++ e.2), by simp⟩

end HttpRequest

/-- A line is cut at its end. -/
theorem splitString_line {line : Bytes} (hcr : 13 ∉ line) (rest : Bytes) :
    StringUtils.splitString (line ++ CRLF ++ rest) CRLF =
      line :: StringUtils.splitString rest CRLF := by
  have hf : find CRLF (line ++ CRLF ++ rest) = some line.length := by
    have hstart : find CRLF (CRLF ++ rest) = some 0 := find_self_append _ _
    rw [List.append_assoc]
    exact find_append_of_not_mem hstart hcr
  have htake : (line ++ CRLF ++ rest).take line.length = line := by
    rw [List.append_assoc, List.take_left]
  have hdrop : (line ++ CRLF ++ rest).drop (line.length + CRLF.length) = rest := by
    rw [← List.length_append, List.drop_left]
  rw [splitString_eq (show CRLF ≠ [] by decide), hf]
  simp only [htake, hdrop]

theorem splitString_lastLine {line : Bytes} (hcr : 13 ∉ line) (hne : line ≠ []) :
    StringUtils.splitString line CRLF = [line] := by
  have hno : find CRLF line = none := find_eq_none_of_not_mem hcr
  rw [splitString_eq (show CRLF ≠ [] by decide), hno]
  simp [hne]

/-- A block that starts with a line starts with that line, wherever its end is found. -/
theorem splitString_front {line rest : Bytes} (hcr : 13 ∉ line) (hne : line ≠ []) {i : ℕ}
    (hf : find CRLFCRLF (line ++ CRLF ++ rest) = some i) :
    ∃ ls, StringUtils.splitString ((line ++ CRLF ++ rest).take i) CRLF = line :: ls := by
  have hpat := find_spec hf
  -- the end is not found inside the line, nor at the `LF` behind it
  have hge : line.length ≤ i := by
    by_contra hlt
    rw [List.append_assoc, List.drop_append_of_le_length (by omega)] at hpat
    obtain ⟨c, t, ht⟩ := List.exists_cons_of_ne_nil
      (show line.drop i ≠ [] by rw [Ne, List.drop_eq_nil_iff]; omega)
    rw [ht, List.cons_append, CRLFCRLF, List.cons_prefix_cons] at hpat
    have hmem : c ∈ line.drop i := ht ▸ List.mem_cons_self ..
    exact hcr (hpat.1 ▸ List.mem_of_mem_drop hmem)
  have hlf : i ≠ line.length + 1 := by
    rintro rfl
    have hrest : (line ++ CRLF ++ rest).drop (line.length + 1) = 10 :: rest := by
      simp [CRLF, List.drop_append]
    rw [hrest, CRLFCRLF, List.cons_prefix_cons] at hpat
    exact absurd hpat.1 (by decide)
  rcases Nat.eq_or_lt_of_le hge with heq | hgt
  · have htake : (line ++ CRLF ++ rest).take i = line := by
      rw [← heq, List.append_assoc, List.take_left]
    exact ⟨[], by rw [htake, splitString_lastLine hcr hne]⟩
  · have htake : (line ++ CRLF ++ rest).take i =
        line ++ CRLF ++ rest.take (i - (line.length + 2)) := by
      have hlen : (line ++ CRLF).length = line.length + 2 := by simp [CRLF]
      rw [List.take_append, hlen, List.take_of_length_le (by omega)]
    exact ⟨_, by rw [htake, splitString_line hcr]⟩

/-- A start line and the lines of the headers make a header block. -/
theorem HttpRequest.exists_block (r : HttpRequest) {line bs : Bytes} (hcr : 13 ∉ line)
    (hne : line ≠ []) (hb : bs = line ++ CRLF ++ r.headerLines) :
    ∃ i ls, find CRLFCRLF bs = some i ∧ 4 < bs.length ∧
      StringUtils.splitString (bs.take i) CRLF = line :: ls := by
  obtain ⟨i, hf⟩ := exists_find (r.terminator_isSuffix line)
  obtain ⟨ls, hls⟩ := splitString_front hcr hne hf
  rw [← hb] at hf hls
  refine ⟨i, ls, hf, ?_, hls⟩
  have h0 : 0 < line.length := List.length_pos_iff.2 hne
  rw [hb, HttpRequest.headerLines]
  simp only [List.length_append, CRLF, List.length_cons, List.length_nil]
  omega

/-- The request that the start line of `r` makes. -/
def HttpRequest.reread (r : HttpRequest) : HttpRequest :=
  startRequest true (methodWord r.method) (urlEncode r.target) (versionWord r.version)

/-- The request that a header block starting with the line of `r` describes. -/
theorem blockRequest_startLine {r : HttpRequest} {h : Bytes} {ls : List Bytes}
    (hls : StringUtils.splitString h CRLF = r.startLine :: ls) :
    blockRequest h = some ((r.startLine :: ls).foldl addField r.reread) := by
  have hreq : decide (((HttpRequest.methodWord r.method).map toLower).take 4 ≠ ascii "http") =
      true := decide_eq_true (HttpRequest.not_mem_methodWord r.method).2.2.2
  rw [blockRequest, hls]
  simp only [r.splitString_startLine, hreq]
  rfl

/-! ## Reading it -/

/-- The requests agree in what a start line says. -/
structure HttpRequest.SameStart (q r : HttpRequest) : Prop where
  method : q.method = r.method
  path : q.path = r.path
  version : q.version = r.version
  parameter : ∀ k, q.getParameter k = r.getParameter k

namespace HttpRequest.SameStart

variable {q r r' : HttpRequest}

theorem refl (r : HttpRequest) : r.SameStart r := ⟨rfl, rfl, rfl, fun _ => rfl⟩

theorem symm (h : q.SameStart r) : r.SameStart q :=
  ⟨h.method.symm, h.path.symm, h.version.symm, fun k => (h.parameter k).symm⟩

theorem trans (h : q.SameStart r) (h' : r.SameStart r') : q.SameStart r' :=
  ⟨h.method.trans h'.method, h.path.trans h'.path, h.version.trans h'.version,
    fun k => (h.parameter k).trans (h'.parameter k)⟩

/-- Header lines do not change what the start line says. -/
theorem foldl_addField (ls : List Bytes) (r : HttpRequest) : (ls.foldl addField r).SameStart r := by
  induction ls generalizing r with
  | nil => exact refl r
  | cons l ls ih =>
    have hl : (addField r l).SameStart r := by
      rw [addField]
      cases find [58] l with
      | none => exact refl r
      | some pos => exact ⟨rfl, rfl, rfl, fun _ => rfl⟩
    exact (ih (addField r l)).trans hl

/-- Neither does the choice of a body. -/
theorem framed (p : HttpParser) (h : p.req = some r) :
    ∃ q, (p.framed r).req = some q ∧ q.SameStart r := by
  obtain ⟨chunked, stream, hq⟩ := framed_req h
  exact ⟨_, hq, rfl, rfl, rfl, fun _ => rfl⟩

end HttpRequest.SameStart

/-- **A fresh parser reads the start line of a header block**, whatever the headers. -/
theorem parse_makeHeaders {r : HttpRequest} (h : r.isRequest = true) {b : WfBuffer}
    (hb : b.bytes = r.makeHeaders) :
    ∃ s p' b' q, parse {} b = .ok (s, p', b') ∧ p'.req = some q ∧ q.SameStart r.reread := by
  rw [HttpRequest.makeHeaders_eq h] at hb
  obtain ⟨i, ls, hf, hlen, hls⟩ := r.exists_block r.cr_not_mem_startLine r.startLine_ne_nil hb
  have hblock := blockRequest_startLine hls
  set r' := (r.startLine :: ls).foldl addField r.reread
  have hparse := parse_headers_request (p := {}) rfl hlen hf hblock
  obtain ⟨q, hq, hsame⟩ := HttpRequest.SameStart.framed
    { ({} : HttpParser) with header := b.bytes.take i, isRequest := r'.isRequest, req := some r' }
    rfl
  exact ⟨_, _, _, q, hparse, hq, hsame.trans (HttpRequest.SameStart.foldl_addField _ _)⟩

/-! ## What the tokens say -/

/-- The order of the maps is all that differs. -/
theorem HttpRequest.Reordered.start {r r' : HttpRequest} (h : HttpRequest.Reordered r r') :
    r'.method = r.method ∧ r'.path = r.path ∧ r'.version = r.version ∧
      r'.isRequest = r.isRequest := by
  have hmethod := congrArg HttpRequest.method h.fields
  have hpath := congrArg HttpRequest.path h.fields
  have hversion := congrArg HttpRequest.version h.fields
  have hreq := congrArg HttpRequest.isRequest h.fields
  exact ⟨hmethod, hpath, hversion, hreq⟩

section Tokens

variable {s : Bytes}

theorem startRequest_method (t₀ t₁ t₂ : Bytes) :
    (startRequest true t₀ t₁ t₂).method = parseMethod t₀ := by
  unfold startRequest
  cases find [63] t₁ with
  | none => rfl
  | some pos =>
    obtain ⟨m, hm⟩ := setQuery_eq (((HttpRequest.new true).setMethod t₀).setPath (t₁.take pos))
      (t₁.drop (pos + 1))
    simp only [if_true, hm]
    rfl

theorem startRequest_version (t₀ t₁ t₂ : Bytes) :
    (startRequest true t₀ t₁ t₂).version = ((HttpRequest.new true).setVersion t₂).version := by
  unfold startRequest
  cases find [63] t₁ <;> rfl

/-- A target without a query. -/
theorem startRequest_path (t₀ t₂ : Bytes) (h : 63 ∉ s) :
    (startRequest true t₀ (urlEncode s) t₂).path = s ∧
      ∀ x, (startRequest true t₀ (urlEncode s) t₂).parameters.lookup x = none := by
  have hf : find [63] (urlEncode s) = none :=
    find_eq_none_of_not_mem fun hm => h (keeps_question.mem_flatMap.1 hm)
  unfold startRequest
  simp only [if_true, hf]
  have hpath := setPath_path ((HttpRequest.new true).setMethod t₀) (urlEncode s)
  exact ⟨hpath.trans (urlDecode_urlEncode s), fun _ => rfl⟩

/-- A target is cut at its first `?`. The part before it is decoded. -/
theorem startRequest_query (t₀ t₂ : Bytes) (h : 63 ∉ s) (q : Bytes) :
    (startRequest true t₀ (urlEncode (s ++ 63 :: q)) t₂).path = s ∧
      ∀ x, (startRequest true t₀ (urlEncode (s ++ 63 :: q)) t₂).parameters.lookup x =
        lastValue ((assignments 38 61 q).map (Prod.map urlEncode urlEncode)) x := by
  have hno : 63 ∉ urlEncode s := fun hm => h (keeps_question.mem_flatMap.1 hm)
  have hcode : urlEncode (s ++ 63 :: q) = urlEncode s ++ 63 :: urlEncode q := by
    rw [urlEncode_append, urlEncode_cons_of_keeps keeps_question]
  have hf : find [63] (urlEncode s ++ 63 :: urlEncode q) = some (urlEncode s).length :=
    find_singleton_append hno _
  have htake : (urlEncode s ++ 63 :: urlEncode q).take (urlEncode s).length = urlEncode s :=
    List.take_left
  have hdrop : (urlEncode s ++ 63 :: urlEncode q).drop ((urlEncode s).length + 1) =
      urlEncode q := by simp
  unfold startRequest
  rw [hcode]
  simp only [if_true, hf, htake, hdrop]
  set r := ((HttpRequest.new true).setMethod t₀).setPath (urlEncode s)
  constructor
  · obtain ⟨m, hm⟩ := setQuery_eq r (urlEncode q)
    rw [hm]
    exact (setPath_path ((HttpRequest.new true).setMethod t₀) _).trans (urlDecode_urlEncode s)
  · intro x
    have hempty : r.parameters.lookup x = none := rfl
    exact (lookup_setQuery_urlEncode r q x).trans (by rw [hempty, Option.or_none])

end Tokens

end HttpNest
