import HttpNest.Proof.StartLine

/-!
# Status lines, written and read back

The start line of a response ends in a text from the table of `ParseStatusMessage`. Most of
these texts have blanks, and `ProcessMethodLine` wants three tokens. So a fresh parser reads
the response back exactly if the text of its code has no blank (`statusLine_roundTrips_iff`);
else the line is rejected, and the null request is dereferenced behind it.
-/

namespace HttpNest

open CNumeral ListSearch HttpParser HttpUtils

/-- Texts of the table, and the one for all other codes. -/
theorem parseStatusMessage_spec (code : ℕ) :
    13 ∉ parseStatusMessage code ∧ 58 ∉ parseStatusMessage code ∧
      parseStatusMessage code ≠ [] := by
  unfold parseStatusMessage
  split <;> decide +kernel

theorem ascii_toString (n : ℕ) : ascii (toString n) = decText n := by
  rw [ascii, Nat.toString_eq_repr, Nat.toList_repr]
  rfl

theorem not_mem_decText (n : ℕ) : 32 ∉ decText n ∧ 13 ∉ decText n ∧ 58 ∉ decText n := by
  have hdec := (decText_spec n).1
  refine ⟨fun h => ?_, fun h => ?_, fun h => ?_⟩
  · exact (of_dec_digit (hdec _ h)).2.1 rfl
  · exact (of_hex_digit (hdec.isHex _ h)).2.2.2.2.2 rfl
  · exact (of_dec_digit (hdec _ h)).2.2 rfl

namespace HttpRequest

/-- The start line of a response without its `CRLF`. -/
def statusLine (r : HttpRequest) : Bytes :=
  versionWord r.version ++ 32 :: (decText r.code ++ 32 :: parseStatusMessage r.code)

theorem cr_not_mem_statusLine (r : HttpRequest) : 13 ∉ r.statusLine := by
  have h1 := (not_mem_versionWord r.version).2
  have h2 := (not_mem_decText r.code).2.1
  have h3 := (parseStatusMessage_spec r.code).1
  simp [statusLine, h1, h2, h3]

theorem statusLine_ne_nil (r : HttpRequest) : r.statusLine ≠ [] := by
  simp [statusLine]

/-- No colon in the status line. -/
theorem keyValue_statusLine (r : HttpRequest) : keyValue r.statusLine = none := by
  have h1 : 58 ∉ versionWord r.version := by cases r.version <;> decide +kernel
  have h2 := (not_mem_decText r.code).2.2
  have h3 := (parseStatusMessage_spec r.code).2.1
  rw [keyValue, Option.map_eq_none_iff, find_singleton_none]
  simp [statusLine, h1, h2, h3]

theorem makeHeaders_eq_statusLine {r : HttpRequest} (h : r.isRequest = false) :
    r.makeHeaders = r.statusLine ++ CRLF ++ r.headerLines := by
  rw [makeHeaders, h, if_neg Bool.false_ne_true, appendResponseFirstLine, statusLine, headerLines,
    ascii_toString]
  simp

/-- The tokens: version, code, and those of the text. -/
theorem splitString_statusLine (r : HttpRequest) :
    StringUtils.splitString r.statusLine [32] = versionWord r.version :: decText r.code ::
      StringUtils.splitString (parseStatusMessage r.code) [32] := by
  rw [statusLine, splitString_append_cons (not_mem_versionWord r.version).1,
    splitString_append_cons (not_mem_decText r.code).1]

/-- A text without blanks is one token. -/
theorem splitString_message {code : ℕ} (h : 32 ∉ parseStatusMessage code) :
    StringUtils.splitString (parseStatusMessage code) [32] = [parseStatusMessage code] := by
  rw [splitString_of_not_mem h, if_neg (parseStatusMessage_spec code).2.2]

/-- No text of the table ends in its only blank. -/
theorem length_splitString_message {code : ℕ} (h : 32 ∈ parseStatusMessage code) :
    (StringUtils.splitString (parseStatusMessage code) [32]).length ≠ 1 := by
  revert h
  unfold parseStatusMessage
  split <;> decide +kernel

/-- The request that the status line of `r` makes. -/
def rereadStatus (r : HttpRequest) : HttpRequest :=
  startRequest false (versionWord r.version) (decText r.code) (parseStatusMessage r.code)

/-- **The code is read back**, up to the bound of an `int32_t`. -/
theorem code_rereadStatus {r : HttpRequest} (h : r.code < 2 ^ 31) :
    r.rereadStatus.code = r.code := by
  obtain ⟨hdec, hval⟩ := decText_spec r.code
  have hread : strtol 10 (decText r.code) = r.code := by
    rw [strtol_dec hdec (by omega), hval]
  have hint : toInt32 (strtol 10 (decText r.code)) = r.code := by
    rw [hread, toInt32_of_lt] <;> omega
  show ((toInt32 (strtol 10 (decText r.code))) % 2 ^ 32).toNat = r.code
  omega

variable {r : HttpRequest} {h : Bytes} {ls : List Bytes}

theorem blockRequest_statusLine (hls : StringUtils.splitString h CRLF = r.statusLine :: ls)
    (hblank : 32 ∉ parseStatusMessage r.code) :
    blockRequest h = some ((r.statusLine :: ls).foldl addField r.rereadStatus) := by
  have hreq : decide (((versionWord r.version).map toLower).take 4 ≠ ascii "http") = false := by
    cases r.version <;> decide +kernel
  rw [blockRequest, hls]
  simp only [r.splitString_statusLine, splitString_message hblank, hreq]
  rfl

theorem blockRequest_statusLine_none (hls : StringUtils.splitString h CRLF = r.statusLine :: ls)
    (hblank : 32 ∈ parseStatusMessage r.code) : blockRequest h = none := by
  have hlen := length_splitString_message hblank
  rw [blockRequest, hls]
  simp only [r.splitString_statusLine]
  split
  · rename_i ht
    simp only [List.cons.injEq] at ht
    rw [ht.2.2] at hlen
    exact absurd rfl hlen
  · rfl

end HttpRequest

/-- A fresh parser reads a response with the code of `r`; if it rejects the block, then not for
its start line. -/
def StatusRead (r : HttpRequest) (b : WfBuffer) : Prop :=
  ∃ s p b' q, parse {} b = .ok (s, p, b') ∧ p.req = some q ∧ q.isRequest = false ∧
    q.code = r.code ∧ (s = .kExpectError → q.framing = .badLength)

/-- **A response is read back exactly if the text of its code has no blank**, whatever the
headers and the order in which they are written. -/
theorem statusLine_roundTrips_iff {r r' : HttpRequest} (hr : r.isRequest = false)
    (hcode : r.code < 2 ^ 31) (hr' : HttpRequest.Reordered r r') {b : WfBuffer}
    (hb : b.bytes = r'.makeHeaders) :
    StatusRead r b ↔ 32 ∉ parseStatusMessage r.code := by
  have hreq : r'.isRequest = false := hr'.start.2.2.2.trans hr
  have hsame : r'.code = r.code := (congrArg HttpRequest.code hr'.fields :)
  rw [HttpRequest.makeHeaders_eq_statusLine hreq] at hb
  obtain ⟨i, ls, hf, hlen, hls⟩ :=
    r'.exists_block r'.cr_not_mem_statusLine r'.statusLine_ne_nil hb
  constructor
  · rintro ⟨s, p, b', q, hparse, -⟩ hblank
    rw [← hsame] at hblank
    have hnone := HttpRequest.blockRequest_statusLine_none hls hblank
    rw [parse_headers_malformed rfl rfl hlen hf hnone, if_neg (by rw [hls]; simp)] at hparse
    cases hparse
  · intro hblank
    rw [← hsame] at hblank
    have hblock := HttpRequest.blockRequest_statusLine hls hblank
    set q := (r'.statusLine :: ls).foldl addField r'.rereadStatus with hq
    have hparse := parse_headers_request (p := {}) rfl hlen hf hblock
    set p : HttpParser := { header := b.bytes.take i, isRequest := q.isRequest, req := some q }
    obtain ⟨chunked, stream, hreq'⟩ := framed_req (show p.req = some q from rfl)
    refine ⟨_, _, _, _, hparse, hreq', ?_, ?_, fun hs => ?_⟩
    · exact (isRequest_foldl_addField _ _).trans (startRequest_fresh _ _ _ _).2
    · calc q.code = r'.rereadStatus.code := code_foldl_addField _ _
        _ = r'.code := HttpRequest.code_rereadStatus (by omega)
        _ = r.code := hsame
    · exact (framed_error (p := p) (r := q)).1 hs

/-- A response without headers, in a buffer of its own. -/
def statusOnly (code : ℕ) : HttpRequest := { isRequest := false, code := code }

def statusBuffer (code : ℕ) : WfBuffer :=
  (WfBuffer.new 1024 (by decide)).append (statusOnly code).makeHeaders

theorem bytes_statusBuffer (code : ℕ) :
    (statusBuffer code).bytes = (statusOnly code).makeHeaders := by
  rw [statusBuffer, WfBuffer.bytes_append, WfBuffer.bytes_new, List.nil_append]

/-- `200 OK` -/
theorem statusLine_roundTrips_ok : StatusRead (statusOnly 200) (statusBuffer 200) :=
  (statusLine_roundTrips_iff rfl (by decide) (.refl _) (bytes_statusBuffer 200)).2
    (by decide +kernel)

/-- `404 Not Found` ends in a null dereference. -/
theorem statusLine_lost : ¬ StatusRead (statusOnly 404) (statusBuffer 404) := by
  rintro ⟨s, p, b', q, hparse, -⟩
  have hbytes := bytes_statusBuffer 404
  have hfind : find CRLFCRLF (statusBuffer 404).bytes = some 22 := by rw [hbytes]; decide +kernel
  have hfault := parse_headers_malformed (p := {}) (b := statusBuffer 404) rfl rfl
    (by rw [hbytes]; decide +kernel) hfind (by rw [hbytes]; decide +kernel)
  rw [if_neg (by rw [hbytes]; decide +kernel), hparse] at hfault
  cases hfault

end HttpNest
