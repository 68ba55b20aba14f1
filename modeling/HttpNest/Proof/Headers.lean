import HttpNest.Lib.Assignments
import HttpNest.Proof.Body
import HttpNest.Proof.SplitString

/-!
# Header blocks

What a call in `kExpectHeaders` does with the text before the first `CRLFCRLF`.
`blockRequest h` is the request that the block `h` describes and `storedValue h`
what it stores under a name: the value of the *last* line with that name.
`HttpRequest.framing` is how a request says its body ends.

A parser without a request dereferences a null pointer when the start line does not
have three tokens (`parseHeaders_of_req_none`); a block with a content length sends
any parser to the body, or completes (`LengthBlock.framed_eq`).
-/

namespace HttpNest

open Assignments CNumeral ListSearch HttpParser

/-! ## Lines -/

/-- The lower-case name and the value of a header line. -/
def keyValue (l : Bytes) : Option (Bytes × Bytes) :=
  (find [58] l).map fun pos => ((l.take pos).map toLower, l.drop (pos + 1))

def addField (r : HttpRequest) (l : Bytes) : HttpRequest :=
  match find [58] l with
  | none => r
  | some pos => r.addHeader (l.take pos) (l.drop (pos + 1))

theorem foldlM_addLine_some (r : HttpRequest) (lines : List Bytes) :
    lines.foldlM addLine (some r) = .ok (some (lines.foldl addField r)) := by
  induction lines generalizing r with
  | nil => rfl
  | cons l ls ih =>
    have hl : addLine (some r) l = .ok (some (addField r l)) := by
      unfold addLine addField
      cases find [58] l <;> rfl
    rw [List.foldlM_cons, hl]
    exact ih _

/-- Without a request the lines are skipped up to the first header line, if any. -/
theorem foldlM_addLine_none (lines : List Bytes) :
    lines.foldlM addLine none = .error .nullRequest ∨ lines.foldlM addLine none = .ok none := by
  induction lines with
  | nil => exact .inr rfl
  | cons l ls ih =>
    rw [List.foldlM_cons]
    cases hf : find [58] l with
    | none =>
      have hl : addLine none l = .ok none := by simp [addLine, hf]
      rw [hl]
      exact ih
    | some pos =>
      have hl : addLine none l = .error .nullRequest := by simp [addLine, hf]
      rw [hl]
      exact .inl rfl

/-! ## The request of a block -/

/-- The request of a block whose start line has three tokens. -/
def blockRequest (h : Bytes) : Option HttpRequest :=
  match StringUtils.splitString h CRLF with
  | [] => none
  | line :: rest =>
    match StringUtils.splitString line [32] with
    | [t₀, t₁, t₂] =>
      some ((line :: rest).foldl addField
        (startRequest ((t₀.map toLower).take 4 ≠ ascii "http") t₀ t₁ t₂))
    | _ => none

theorem blockRequest_of_length {block line : Bytes} {rest : List Bytes}
    (hl : StringUtils.splitString block CRLF = line :: rest)
    (h3 : (StringUtils.splitString line [32]).length = 3) : ∃ r, blockRequest block = some r := by
  obtain ⟨t₀, t₁, t₂, ht⟩ := List.length_eq_three.1 h3
  rw [blockRequest, hl]
  simp only [ht]
  exact ⟨_, rfl⟩

/-- The value stored under `field`: the last line's with that name. -/
def storedValue (h field : Bytes) : Bytes :=
  (((StringUtils.splitString h CRLF).filterMap keyValue).reverse.lookup field).getD []

/-- A line in front of the last one with a name does not count. -/
theorem lastValue_lines {line field text : Bytes} {rest : List Bytes}
    (h : lastValue (rest.filterMap keyValue) field = some text) :
    lastValue ((line :: rest).filterMap keyValue) field = some text := by
  cases hk : keyValue line with
  | none => rw [List.filterMap_cons_none hk, h]
  | some e =>
    rw [List.filterMap_cons_some hk, lastValue_cons, h]
    rfl

/-- Every line with a colon is an assignment. -/
theorem headers_foldl_addField (lines : List Bytes) (r : HttpRequest) :
    (lines.foldl addField r).headers =
      (lines.filterMap keyValue).foldl (fun m e => m.insert e.1 e.2) r.headers := by
  induction lines generalizing r with
  | nil => rfl
  | cons l ls ih =>
    rw [List.foldl_cons, ih, addField]
    cases hf : find [58] l with
    | none =>
      have hk : keyValue l = none := by rw [keyValue, hf]; rfl
      rw [List.filterMap_cons_none hk]
    | some pos =>
      have hk : keyValue l = some ((l.take pos).map toLower, l.drop (pos + 1)) := by
        rw [keyValue, hf]
        rfl
      rw [List.filterMap_cons_some hk]
      rfl

theorem lookup_foldl_addField (lines : List Bytes) (r : HttpRequest) (field : Bytes) :
    (lines.foldl addField r).headers.lookup field =
      ((lines.filterMap keyValue).reverse.lookup field).or (r.headers.lookup field) := by
  rw [headers_foldl_addField]
  exact lookup_foldl_insert (lines.filterMap keyValue) r.headers field

/-- What sets parameters at every line sets parameters. -/
theorem foldl_parameters {f : HttpRequest → Bytes → HttpRequest}
    (hf : ∀ r l, ∃ m, f r l = { r with parameters := m }) (lines : List Bytes) (r : HttpRequest) :
    ∃ m, lines.foldl f r = { r with parameters := m } := by
  induction lines generalizing r with
  | nil => exact ⟨r.parameters, rfl⟩
  | cons l ls ih =>
    rw [List.foldl_cons]
    obtain ⟨m, hm⟩ := hf r l
    rw [hm]
    exact ih { r with parameters := m }

/-- Reading a query sets the query and the parameters. -/
theorem setQuery_eq (r : HttpRequest) (q : Bytes) :
    ∃ m, r.setQuery q = { r with query := q, parameters := m } := by
  unfold HttpRequest.setQuery HttpRequest.parseParameters
  refine foldl_parameters (fun r l => ?_) _ { r with query := q }
  cases find [61] l with
  | none => exact ⟨r.parameters, rfl⟩
  | some pos => exact ⟨_, rfl⟩

theorem startRequest_fresh (isRequest : Bool) (t₀ t₁ t₂ : Bytes) :
    (startRequest isRequest t₀ t₁ t₂).headers = ∅ ∧
      (startRequest isRequest t₀ t₁ t₂).isRequest = isRequest := by
  unfold startRequest
  cases isRequest with
  | false => exact ⟨rfl, rfl⟩
  | true =>
    cases find [63] t₁ with
    | none => exact ⟨rfl, rfl⟩
    | some pos =>
      obtain ⟨m, hm⟩ := setQuery_eq (((HttpRequest.new true).setMethod t₀).setPath (t₁.take pos))
        (t₁.drop (pos + 1))
      simp only [hm]
      exact ⟨rfl, rfl⟩

theorem toLower_contentLength : (ascii "content-length").map toLower = ascii "content-length" := by
  decide +kernel

/-- **The request's fields are the stored values.** -/
theorem getHeader_blockRequest {h : Bytes} {r : HttpRequest} (hr : blockRequest h = some r)
    {field : Bytes} (hf : field.map toLower = field) : r.getHeader field = storedValue h field := by
  unfold blockRequest at hr
  cases hl : StringUtils.splitString h CRLF with
  | nil => simp [hl] at hr
  | cons line rest =>
    simp only [hl] at hr
    split at hr
    · cases hr
      rw [HttpRequest.getHeader, hf, lookup_foldl_addField, (startRequest_fresh _ _ _ _).1,
        AList.lookup_empty, Option.or_none, storedValue, hl]
    · cases hr

theorem isRequest_foldl_addField (lines : List Bytes) (r : HttpRequest) :
    (lines.foldl addField r).isRequest = r.isRequest := by
  induction lines generalizing r with
  | nil => rfl
  | cons l ls ih =>
    rw [List.foldl_cons, ih, addField]
    cases find [58] l <;> rfl

theorem code_foldl_addField (lines : List Bytes) (r : HttpRequest) :
    (lines.foldl addField r).code = r.code := by
  induction lines generalizing r with
  | nil => rfl
  | cons l ls ih =>
    rw [List.foldl_cons, ih, addField]
    cases find [58] l <;> rfl

/-! ## Framing -/

/-- How a request says its body ends. -/
inductive Framing
  | badLength
  | length (n : ℤ)
  | chunked
  | noBody
  | stream
  deriving DecidableEq, Repr

def HttpRequest.framing (r : HttpRequest) : Framing :=
  if r.getHeader (ascii "content-length") ≠ [] then
    match stoull (r.getHeader (ascii "content-length")) with
    | none => .badLength
    | some n => .length (toInt32 n)
  else if r.getHeader (ascii "transfer-encoding") = ascii "chunked" then .chunked
  else if (¬ r.isRequest ∧ r.code ≠ 200) ∨
      (r.isRequest ∧ (r.method = .kGet ∨ r.method = .kHead ∨ r.method = .kOptions)) then .noBody
  else .stream

/-- The parser after a block with this framing. -/
def HttpParser.framed (p : HttpParser) (r : HttpRequest) : HttpParser :=
  match r.framing with
  | .badLength => p.fail
  | .length n =>
    { p with
      curContentLength := n, state := if n = 0 then .kExpectHttpComplete else .kExpectNormalBody }
  | .chunked =>
    { p with
      isChunked := true, req := some { r with isChunked := true }, state := .kExpectChunkLen }
  | .noBody => { p with curChunkLength := 0, state := .kExpectHttpComplete }
  | .stream =>
    { p with
      curContentLength := -1, isStream := true, req := some { r with isStream := true }
      state := .kExpectStreamBody }

theorem selectBody_eq {p : HttpParser} {r : HttpRequest} (h : p.isRequest = r.isRequest) :
    p.selectBody r = p.framed r := by
  simp only [selectBody, framed, HttpRequest.framing, h]
  by_cases hlen : r.getHeader (ascii "content-length") ≠ []
  · rw [if_pos hlen, if_pos hlen]
    cases stoull (r.getHeader (ascii "content-length")) <;> rfl
  · rw [if_neg hlen, if_neg hlen]
    split_ifs <;> rfl

/-- The request is kept, but for the flags of its body. -/
theorem framed_req {p : HttpParser} {r : HttpRequest} (h : p.req = some r) :
    ∃ chunked stream, (p.framed r).req =
      some { r with isChunked := chunked, isStream := stream } := by
  rw [framed]
  cases r.framing with
  | badLength | length n | noBody => exact ⟨r.isChunked, r.isStream, h⟩
  | chunked => exact ⟨true, r.isStream, rfl⟩
  | stream => exact ⟨r.isChunked, true, rfl⟩

/-- Behind a start line only the body's length can be rejected. -/
theorem framed_error {p : HttpParser} {r : HttpRequest} :
    (p.framed r).state = .kExpectError ↔ r.framing = .badLength := by
  rw [framed]
  cases r.framing with
  | length n =>
    by_cases hn : n = 0 <;> simp [hn]
  | badLength | chunked | noBody | stream => simp [fail]

/-- A start line of three tokens replaces the request. -/
theorem parseHeaders_of_blockRequest {p : HttpParser} {r : HttpRequest}
    (hr : blockRequest p.header = some r) :
    p.parseHeaders = .ok ({ p with isRequest := r.isRequest, req := some r }.framed r) := by
  unfold blockRequest at hr
  unfold parseHeaders
  cases hl : StringUtils.splitString p.header CRLF with
  | nil => simp [hl] at hr
  | cons line rest =>
    simp only [hl] at hr
    split at hr
    · rename_i t₀ t₁ t₂ ht
      cases hr
      simp only [processMethodLine, ht, foldlM_addLine_some, bind, Except.bind]
      rw [isRequest_foldl_addField, (startRequest_fresh _ _ _ _).2, selectBody_eq]
      rw [isRequest_foldl_addField, (startRequest_fresh _ _ _ _).2]
    · cases hr

/-- **A malformed start line leaves the request.** The lines are then read into the one left
from before, and its framing replaces the error state. -/
theorem parseHeaders_of_malformed {p : HttpParser} (hr : blockRequest p.header = none) :
    p.parseHeaders =
      match StringUtils.splitString p.header CRLF with
      | [] => .ok p.fail
      | line :: rest =>
        match p.req with
        | none => .error .nullRequest
        | some r =>
          .ok ({ p.fail with req := some ((line :: rest).foldl addField r) }.selectBody
            ((line :: rest).foldl addField r)) := by
  unfold blockRequest at hr
  unfold parseHeaders
  cases hl : StringUtils.splitString p.header CRLF with
  | nil => rfl
  | cons line rest =>
    simp only [hl] at hr
    split at hr
    · cases hr
    · rename_i hno
      have hline : p.processMethodLine line = p.fail := by
        unfold processMethodLine
        split
        · exact absurd ‹_› (hno _ _ _)
        · rfl
      simp only [hline, show p.fail.req = p.req from rfl]
      cases p.req with
      | none =>
        rcases foldlM_addLine_none (line :: rest) with hf | hf <;> rw [hf] <;> rfl
      | some r =>
        rw [foldlM_addLine_some]
        rfl

/-- **What a parser without a request does with a header block.** An empty block is
rejected, and a malformed start line ends in a null dereference. -/
theorem parseHeaders_of_req_none {p : HttpParser} (hp : p.req = none) :
    p.parseHeaders =
      match blockRequest p.header with
      | some r => .ok ({ p with isRequest := r.isRequest, req := some r }.framed r)
      | none => if StringUtils.splitString p.header CRLF = [] then .ok p.fail
        else .error .nullRequest := by
  cases hr : blockRequest p.header with
  | some r => exact parseHeaders_of_blockRequest hr
  | none =>
    rw [parseHeaders_of_malformed hr, hp]
    cases StringUtils.splitString p.header CRLF <;> rfl

/-! ## Blocks with a content length -/

/-- A header block, without its `CRLFCRLF`, that announces `N` body bytes. -/
structure LengthBlock (h : Bytes) (N : ℕ) : Prop where
  terminator : find CRLFCRLF (h ++ CRLFCRLF) = some h.length
  startLine : ∃ line rest, StringUtils.splitString h CRLF = line :: rest ∧
    (StringUtils.splitString line [32]).length = 3
  stored : stoull (storedValue h (ascii "content-length")) = some N
  length_lt : N < 2 ^ 31

variable {h : Bytes} {N : ℕ}

theorem LengthBlock.blockRequest_eq (hb : LengthBlock h N) :
    ∃ r, blockRequest h = some r ∧ r.framing = .length N := by
  obtain ⟨line, rest, hl, h3⟩ := hb.startLine
  obtain ⟨r, hr⟩ := blockRequest_of_length hl h3
  have hv := getHeader_blockRequest hr toLower_contentLength
  have hs := hb.stored
  have hne : storedValue h (ascii "content-length") ≠ [] := by
    intro h0
    have hnil : stoull [] = none := by decide +kernel
    rw [h0, hnil] at hs
    cases hs
  have hN : toInt32 N = N := toInt32_of_lt (by omega) (by have := hb.length_lt; omega)
  refine ⟨r, hr, ?_⟩
  rw [HttpRequest.framing, hv, if_pos hne, hs]
  simp only [hN]

/-- **A block with a content length sends any parser to a body of that length**, or
completes the message. -/
theorem LengthBlock.framed_eq (hb : LengthBlock h N) {r : HttpRequest}
    (hr : blockRequest h = some r) (p : HttpParser) :
    p.framed r = { p with
      curContentLength := N
      state := if N = 0 then .kExpectHttpComplete else .kExpectNormalBody } := by
  obtain ⟨r', hr', hf⟩ := hb.blockRequest_eq
  have he : r' = r := Option.some.inj (hr'.symm.trans hr)
  subst he
  rw [framed, hf]
  simp

theorem block_ne_nil {r : HttpRequest} (hr : blockRequest h = some r) : h ≠ [] := by
  rintro rfl
  have hnil : blockRequest [] = none := by decide
  rw [hnil] at hr
  cases hr

/-- The terminator is seen as soon as it is there. -/
theorem find_terminator_front (ht : find CRLFCRLF (h ++ CRLFCRLF) = some h.length) {A rest : Bytes}
    (hA : A <+: h ++ CRLFCRLF ++ rest) :
    find CRLFCRLF A = if (h ++ CRLFCRLF).length ≤ A.length then some h.length else none := by
  rw [List.length_append]
  exact find_in_front hA (find_append ht rest)

/-! ## Calls in `kExpectHeaders` -/

variable {p : HttpParser} {b : WfBuffer}

/-- Without a terminator the call returns `kExpectContinue` and changes nothing. -/
theorem parse_headers_wait (hs : p.state = .kExpectHeaders) (hb : b.bytes ≠ [])
    (hlen : b.bytes.length ≤ kHttpMaxBodySize)
    (hno : b.bytes.length ≤ 4 ∨ find CRLFCRLF b.bytes = none) :
    parse p b = .ok (.kExpectContinue, p, b) := by
  have hne : ¬ b.readableBytes = 0 := by simpa using hb
  rw [parse, if_neg hne]
  simp only [hs, expectHeaders, WfBuffer.readableBytes_eq, show CRLFCRLF.length = 4 from rfl]
  rcases hno with h4 | hf
  · rw [if_neg (by omega)]
  · rw [hf]
    simp only
    rw [if_neg (show ¬ b.bytes.length > kHttpMaxBodySize by omega), ite_self]

/-- A block longer than the limit is rejected, and stays in the buffer. -/
theorem parse_headers_long (hs : p.state = .kExpectHeaders)
    (hlen : kHttpMaxBodySize < b.bytes.length) (hf : find CRLFCRLF b.bytes = none) :
    parse p b = .ok (.kExpectError, p.fail, b) := by
  have h4 : 4 < kHttpMaxBodySize := by decide
  have hne : ¬ b.readableBytes = 0 := by rw [WfBuffer.readableBytes_eq]; omega
  rw [parse, if_neg hne]
  simp only [hs, expectHeaders, WfBuffer.readableBytes_eq, show CRLFCRLF.length = 4 from rfl]
  rw [if_pos (by omega), hf]
  simp only
  rw [if_pos hlen]

theorem parse_headers_found (hs : p.state = .kExpectHeaders) (hlen : 4 < b.bytes.length) {i : ℕ}
    (hf : find CRLFCRLF b.bytes = some i) :
    parse p b = ({ p with header := b.bytes.take i }.parseHeaders).map
      fun p' : HttpParser => (p'.state, p', b.retrieve (i + 4)) := by
  have hne : ¬ b.readableBytes = 0 := by rw [WfBuffer.readableBytes_eq]; omega
  rw [parse, if_neg hne]
  simp only [hs, expectHeaders, WfBuffer.readableBytes_eq, show CRLFCRLF.length = 4 from rfl]
  rw [if_pos hlen, hf]
  cases ({ p with header := b.bytes.take i }).parseHeaders <;> rfl

end HttpNest
