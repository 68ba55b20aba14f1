import HttpNest.Proof.Reset

/-!
# Malformed start lines

`ProcessMethodLine` sets `kExpectError` for a start line that has not three tokens, and
`ParseHeaders` goes on with whatever request there is: none, or the one of an earlier message.
The error stays only if there is no line at all, or if the request left over has a content
length that is rejected in its turn (`startLine_rejected_iff`).
-/

namespace HttpNest

open Assignments CNumeral ListSearch HttpParser EventRun

variable {p : HttpParser} {b : WfBuffer}

/-- `Parse` ends in `kExpectError`, for the reason `k400BadRequest`. -/
def Rejected (p : HttpParser) (b : WfBuffer) : Prop :=
  ∃ p' b', parse p b = .ok (.kExpectError, p', b') ∧ p'.state = .kExpectError ∧
    p'.reason = .k400BadRequest

theorem rejected_of_fail {q : HttpParser} {b' : WfBuffer}
    (h : parse p b = .ok (returned (q.fail, b'))) : Rejected p b := ⟨_, _, h, rfl, rfl⟩

theorem not_rejected {q : HttpParser} {b' : WfBuffer}
    (h : parse p b = .ok (returned (q, b'))) (hq : q.state ≠ .kExpectError) : ¬ Rejected p b := by
  rintro ⟨p', b'', hparse, -⟩
  have he := Except.ok.inj (h.symm.trans hparse)
  exact hq (congrArg Prod.fst he)

/-! ## The start line -/

/-- The choice of the body's state is an error for one kind of content length only. -/
theorem selectBody_error (r : HttpRequest) :
    (p.selectBody r).state = .kExpectError ↔ r.getHeader (ascii "content-length") ≠ [] ∧
      stoull (r.getHeader (ascii "content-length")) = none := by
  unfold HttpParser.selectBody
  dsimp only
  by_cases hlen : r.getHeader (ascii "content-length") ≠ []
  · rw [if_pos hlen, and_iff_right hlen]
    cases stoull (r.getHeader (ascii "content-length")) with
    | none => simp [fail]
    | some n =>
      simp only [reduceCtorEq, iff_false]
      generalize toInt32 n = len
      split_ifs <;> decide
  · rw [if_neg hlen]
    refine iff_of_false ?_ fun h => hlen h.1
    split_ifs <;> decide

/-- The content length that a request gets from some lines, or has already. -/
theorem getHeader_foldl_addField (lines : List Bytes) (r : HttpRequest) :
    (lines.foldl addField r).getHeader (ascii "content-length") =
      ((lastValue (lines.filterMap keyValue) (ascii "content-length")).or
        (r.headers.lookup (ascii "content-length"))).getD [] := by
  rw [HttpRequest.getHeader, toLower_contentLength, lookup_foldl_addField]
  rfl

/-- The start line has not three tokens. -/
theorem blockRequest_eq_none {block : Bytes} (h : ∀ line rest,
    StringUtils.splitString block CRLF = line :: rest →
      (StringUtils.splitString line [32]).length ≠ 3) : blockRequest block = none := by
  unfold blockRequest
  cases hl : StringUtils.splitString block CRLF with
  | nil => rfl
  | cons line rest =>
    have hlen := h line rest hl
    simp only
    split
    · rename_i t₀ t₁ t₂ ht
      rw [ht] at hlen
      exact absurd rfl hlen
    · rfl

section

variable {i : ℕ} (hs : p.state = .kExpectHeaders) (hf : find CRLFCRLF b.bytes = some i)
include hs hf

/-- Four bytes are not looked at. -/
theorem not_rejected_of_short (hlen : ¬ 4 < b.bytes.length) : ¬ Rejected p b := by
  have hle : i + 4 ≤ b.bytes.length := find_le hf
  have hk : 4 ≤ kHttpMaxBodySize := by decide
  have hne : b.bytes ≠ [] := List.ne_nil_of_length_pos (by omega)
  have hparse := parse_headers_wait hs hne (by omega) (.inl (by omega))
  rintro ⟨p', b', h, -⟩
  rw [hparse] at h
  cases h

variable (hlen : 4 < b.bytes.length) (hno : blockRequest (b.bytes.take i) = none)
include hlen hno

/-- The lines are read into the request left over, and its length chooses the state. -/
theorem parse_leftover {line : Bytes} {rest : List Bytes} {r : HttpRequest}
    (hl : StringUtils.splitString (b.bytes.take i) CRLF = line :: rest) (hreq : p.req = some r) :
    ∃ p', parse p b = .ok (returned (p', b.retrieve (i + 4))) ∧ p'.reason = .k400BadRequest ∧
      (p'.state = .kExpectError ↔
        ((line :: rest).foldl addField r).getHeader (ascii "content-length") ≠ [] ∧
          stoull (((line :: rest).foldl addField r).getHeader (ascii "content-length")) =
            none) := by
  have hparse := parse_headers_found hs hlen hf
  rw [parseHeaders_of_malformed (p := { p with header := b.bytes.take i }) hno, hl] at hparse
  simp only [hreq] at hparse
  set q : HttpParser := ({ p with header := b.bytes.take i } : HttpParser).fail
  set r' := (line :: rest).foldl addField r
  refine ⟨({ q with req := some r' } : HttpParser).selectBody r', hparse, ?_, selectBody_error r'⟩
  -- the reason that is set stays
  have hreason := (marksKept_selectBody q r').reason
    (show HttpStatusCode.k400BadRequest ≠ _ by decide)
  cases hr' : (({ q with req := some r' } : HttpParser).selectBody r').reason with
  | kUnknown => exact absurd hr' hreason
  | k400BadRequest => rfl

theorem rejected_leftover_iff {line : Bytes} {rest : List Bytes} {r : HttpRequest}
    (hl : StringUtils.splitString (b.bytes.take i) CRLF = line :: rest) (hreq : p.req = some r) :
    Rejected p b ↔ ∃ v,
      (lastValue ((line :: rest).filterMap keyValue) (ascii "content-length")).or
        (r.headers.lookup (ascii "content-length")) = some v ∧ v ≠ [] ∧ stoull v = none := by
  obtain ⟨p', hparse, hreason, herror⟩ := parse_leftover hs hf hlen hno hl hreq
  rw [getHeader_foldl_addField] at herror
  have hrejected : Rejected p b ↔ p'.state = .kExpectError := by
    constructor
    · intro h
      by_contra hne
      exact not_rejected hparse hne h
    · intro hstate
      exact ⟨p', b.retrieve (i + 4), by rw [← hstate]; exact hparse, hstate, hreason⟩
  rw [hrejected, herror]
  cases (lastValue ((line :: rest).filterMap keyValue) (ascii "content-length")).or
      (r.headers.lookup (ascii "content-length")) with
  | none => simp
  | some v => simp

end

/-- **A malformed start line is rejected exactly if the block is empty, or a request is left
over from before and the content length that it gets is no number.** -/
theorem startLine_rejected_iff (hs : p.state = .kExpectHeaders) {i : ℕ}
    (hf : find CRLFCRLF b.bytes = some i)
    (h3 : ∀ line rest, StringUtils.splitString (b.bytes.take i) CRLF = line :: rest →
      (StringUtils.splitString line [32]).length ≠ 3) :
    Rejected p b ↔ 4 < b.bytes.length ∧ (StringUtils.splitString (b.bytes.take i) CRLF = [] ∨
      ∃ r v, p.req = some r ∧
        (lastValue ((StringUtils.splitString (b.bytes.take i) CRLF).filterMap keyValue)
          (ascii "content-length")).or (r.headers.lookup (ascii "content-length")) = some v ∧
        v ≠ [] ∧ stoull v = none) := by
  by_cases h4 : 4 < b.bytes.length
  swap
  · exact iff_of_false (not_rejected_of_short hs hf h4) fun h => h4 h.1
  rw [and_iff_right h4]
  have hno := blockRequest_eq_none h3
  have hparse := parse_headers_found hs h4 hf
  rw [parseHeaders_of_malformed (p := { p with header := b.bytes.take i }) hno] at hparse
  cases hl : StringUtils.splitString (b.bytes.take i) CRLF with
  | nil =>
    rw [hl] at hparse
    exact iff_of_true (rejected_of_fail hparse) (.inl rfl)
  | cons line rest =>
    simp only [reduceCtorEq, false_or]
    cases hreq : p.req with
    | none =>
      -- the null request is dereferenced
      simp only [hl, hreq] at hparse
      refine iff_of_false ?_ (by rintro ⟨r, v, h, -⟩; cases h)
      rintro ⟨p', b', h, -⟩
      rw [hparse] at h
      cases h
    | some r =>
      rw [rejected_leftover_iff hs hf h4 hno hl hreq]
      constructor
      · rintro ⟨v, hv⟩
        exact ⟨r, v, rfl, hv⟩
      · rintro ⟨r', v, hr', hv⟩
        cases hr'
        exact ⟨v, hv⟩

/-- The length is read into the request left over. -/
theorem startLine_rejected_leftover :
    Rejected { req := some {} } (holding (ascii "GET\r\nContent-Length: x\r\n\r\n")) := by
  have hbytes := bytes_holding (ascii "GET\r\nContent-Length: x\r\n\r\n")
  have hf : find CRLFCRLF (ascii "GET\r\nContent-Length: x\r\n\r\n") = some 22 := by decide +kernel
  have hl : StringUtils.splitString ((ascii "GET\r\nContent-Length: x\r\n\r\n").take 22) CRLF =
      [ascii "GET", ascii "Content-Length: x"] := by decide +kernel
  refine (startLine_rejected_iff rfl (by rwa [hbytes]) ?_).2 ⟨?_, .inr ⟨{}, ascii " x", rfl, ?_⟩⟩
  · rw [hbytes, hl]
    rintro line rest h
    cases h
    decide +kernel
  · rw [hbytes]
    decide +kernel
  · rw [hbytes, hl]
    decide +kernel

/-- A new parser has no request to read the lines into. -/
theorem startLine_not_rejected : ¬ Rejected {} (holding (ascii "GET /\r\n\r\n")) := by
  have hbytes := bytes_holding (ascii "GET /\r\n\r\n")
  have hf : find CRLFCRLF (holding (ascii "GET /\r\n\r\n")).bytes = some 5 := by
    rw [hbytes]
    decide +kernel
  have hparse := parse_headers_malformed (p := {}) rfl rfl (by rw [hbytes]; decide +kernel) hf
    (by rw [hbytes]; decide +kernel)
  rw [if_neg (by rw [hbytes]; decide +kernel)] at hparse
  rintro ⟨p', b', h, -⟩
  rw [hparse] at h
  cases h

end HttpNest
