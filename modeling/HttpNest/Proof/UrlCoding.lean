import HttpNest.Lib.Assignments
import HttpNest.Spec.HttpMessage

/-!
# The URL code

`UrlDecode` undoes `UrlEncode` (`urlDecode_urlEncode`), so that no two texts are coded alike.
A coded text has only kept characters, `+` and `%` (`plain_of_mem_urlEncode`): nothing that
`SplitString` or `Trim` would take for a delimiter or a blank. The code keeps `&`, `=` and
`?`, and whoever cuts a coded text there cuts the text.

A text of kept characters is coded as itself, and a text without blanks that does not grow
is one (`kept_of_length_urlEncode`). `Coded` says what a coded text looks like, and
`urlEncode_correct` what the code is good for.
-/

namespace HttpNest.HttpUtils

open CNumeral Assignments

variable {c d : UInt8} {s t : Bytes}

/-- What holds of all 256 characters. -/
theorem forall_uint8 {P : UInt8 → Prop} (h : ∀ n < 256, P (UInt8.ofNat n)) (c : UInt8) : P c := by
  have hc := h c.toNat c.toNat_lt
  rwa [UInt8.ofNat_toNat] at hc

theorem urlEncodeChar_of_kept (h : isKept c) : urlEncodeChar c = [c] := by
  have hne : c ≠ 32 := by
    rintro rfl
    revert h
    decide +kernel
  rw [urlEncodeChar, if_neg hne, if_pos h]

theorem isKept_hexDigit {n : ℕ} (h : n < 16) : isKept (hexDigit n) := by
  have hall : ∀ n < 16, isKept (hexDigit n) := by decide +kernel
  exact hall n h

/-- The characters of a coded text. -/
def Plain (c : UInt8) : Prop := isKept c ∨ c = 43 ∨ c = 37

theorem plain_of_mem_urlEncodeChar (h : d ∈ urlEncodeChar c) : Plain d := by
  unfold urlEncodeChar at h
  split_ifs at h with hb hk
  · rw [List.mem_singleton] at h
    exact .inr (.inl h)
  · rw [List.mem_singleton] at h
    exact .inl (h ▸ hk)
  · have hc : c.toNat < 256 := c.toNat_lt
    simp only [charToHex, List.mem_cons, List.not_mem_nil, or_false] at h
    rcases h with rfl | rfl | rfl
    · exact .inr (.inr rfl)
    · exact .inl (isKept_hexDigit (by omega))
    · exact .inl (isKept_hexDigit (by omega))

/-- **A coded text has no other characters.** -/
theorem plain_of_mem_urlEncode (h : c ∈ urlEncode s) : Plain c := by
  obtain ⟨d, -, hc⟩ := List.mem_flatMap.1 h
  exact plain_of_mem_urlEncodeChar hc

/-- What a start line is cut at, and what `Trim` removes. -/
theorem Plain.not_delimiter (h : Plain c) :
    isSpace c = false ∧ c ≠ 32 ∧ c ≠ 13 ∧ c ≠ 10 ∧ c ≠ 58 := by
  have hall : ∀ n < 256, (isKept (UInt8.ofNat n) ∨ UInt8.ofNat n = 43 ∨ UInt8.ofNat n = 37) →
      isSpace (UInt8.ofNat n) = false ∧ UInt8.ofNat n ≠ 32 ∧ UInt8.ofNat n ≠ 13 ∧
        UInt8.ofNat n ≠ 10 ∧ UInt8.ofNat n ≠ 58 := by
    decide +kernel
  exact forall_uint8 (P := fun c => Plain c →
    isSpace c = false ∧ c ≠ 32 ∧ c ≠ 13 ∧ c ≠ 10 ∧ c ≠ 58) hall c h

/-! ## Cutting coded texts -/

/-- A kept character that is no hexadecimal digit: a coded text has it where the text does. -/
theorem keeps_of_kept (h : isKept d) (hhex : ∀ n < 16, hexDigit n ≠ d) (hplus : d ≠ 43)
    (hpercent : d ≠ 37) : Keeps urlEncodeChar d := by
  refine ⟨urlEncodeChar_of_kept h, fun c hcd hm => ?_⟩
  unfold urlEncodeChar at hm
  split_ifs at hm
  · exact hplus (List.mem_singleton.1 hm)
  · exact hcd (List.mem_singleton.1 hm).symm
  · have hc : c.toNat < 256 := c.toNat_lt
    simp only [charToHex, List.mem_cons, List.not_mem_nil, or_false] at hm
    rcases hm with rfl | hm | hm
    · exact hpercent rfl
    · exact hhex _ (by omega) hm.symm
    · exact hhex _ (by omega) hm.symm

theorem keeps_ampersand : Keeps urlEncodeChar 38 :=
  keeps_of_kept (by decide +kernel) (by decide +kernel) (by decide) (by decide)

theorem keeps_equals : Keeps urlEncodeChar 61 :=
  keeps_of_kept (by decide +kernel) (by decide +kernel) (by decide) (by decide)

theorem keeps_question : Keeps urlEncodeChar 63 :=
  keeps_of_kept (by decide +kernel) (by decide +kernel) (by decide) (by decide)

@[simp] theorem urlEncode_nil : urlEncode [] = [] := rfl

theorem urlEncode_cons (c : UInt8) (s : Bytes) :
    urlEncode (c :: s) = urlEncodeChar c ++ urlEncode s :=
  List.flatMap_cons

theorem urlEncode_append (s t : Bytes) : urlEncode (s ++ t) = urlEncode s ++ urlEncode t :=
  List.flatMap_append

theorem urlEncode_cons_of_keeps (h : Keeps urlEncodeChar d) (s : Bytes) :
    urlEncode (d :: s) = d :: urlEncode s := by
  rw [urlEncode_cons, h.self]
  rfl

/-! ## Decoding -/

theorem urlDecode_cons (h1 : c ≠ 43) (h2 : c ≠ 37) (s : Bytes) :
    urlDecode (c :: s) = c :: urlDecode s := by
  rw [urlDecode]
  · exact h1
  · exact fun _ _ _ h _ => h2 h

/-- The two digits that a byte is written with. -/
theorem digits_byte (c : UInt8) : digit? 16 (hexDigit (c.toNat / 16)) = some (c.toNat / 16) ∧
    digit? 16 (hexDigit (c.toNat % 16)) = some (c.toNat % 16) ∧
    c.toNat / 16 * 16 + c.toNat % 16 = c.toNat := by
  have hc : c.toNat < 256 := c.toNat_lt
  exact ⟨digit?_hexDigit (by omega), digit?_hexDigit (by omega), by omega⟩

/-- One coded character in front of a text. -/
theorem urlDecode_urlEncodeChar (c : UInt8) (t : Bytes) :
    urlDecode (urlEncodeChar c ++ t) = c :: urlDecode t := by
  unfold urlEncodeChar
  split_ifs with hb hk
  · rw [hb]
    rfl
  · have hne : c ≠ 43 ∧ c ≠ 37 := by
      constructor <;>
      · rintro rfl
        revert hk
        decide +kernel
    exact urlDecode_cons hne.1 hne.2 t
  · obtain ⟨hhi, hlo, hval⟩ := digits_byte c
    show urlDecode (37 :: hexDigit (c.toNat / 16) :: hexDigit (c.toNat % 16) :: t) = _
    rw [urlDecode]
    simp only [hhi, hlo, hval, UInt8.ofNat_toNat]

/-- **Decoding undoes encoding.** -/
theorem urlDecode_urlEncode (s : Bytes) : urlDecode (urlEncode s) = s := by
  induction s with
  | nil => rfl
  | cons c s ih =>
    rw [urlEncode_cons, urlDecode_urlEncodeChar, ih]

theorem urlEncode_injective : urlEncode.Injective :=
  Function.LeftInverse.injective urlDecode_urlEncode

/-! ## Texts coded as themselves -/

theorem length_urlEncodeChar (c : UInt8) : 1 ≤ (urlEncodeChar c).length := by
  unfold urlEncodeChar
  split_ifs <;> simp

theorem length_le_urlEncode (s : Bytes) : s.length ≤ (urlEncode s).length := by
  induction s with
  | nil => exact le_rfl
  | cons c s ih =>
    have h1 := length_urlEncodeChar c
    rw [urlEncode_cons, List.length_append, List.length_cons]
    omega

theorem urlEncode_of_kept (h : ∀ c ∈ s, isKept c) : urlEncode s = s := by
  induction s with
  | nil => rfl
  | cons c s ih =>
    rw [urlEncode_cons, urlEncodeChar_of_kept (h c (List.mem_cons_self ..)),
      ih fun d hd => h d (List.mem_cons_of_mem _ hd)]
    rfl

/-- A text without blanks that does not grow has kept characters only. -/
theorem kept_of_length_urlEncode (hb : 32 ∉ s) (h : (urlEncode s).length ≤ s.length) :
    ∀ c ∈ s, isKept c := by
  induction s with
  | nil => exact fun _ hc => absurd hc List.not_mem_nil
  | cons c s ih =>
    rw [List.mem_cons, not_or] at hb
    have hle := length_le_urlEncode s
    have h1 := length_urlEncodeChar c
    rw [urlEncode_cons, List.length_append, List.length_cons] at h
    have hk : isKept c := by
      by_contra hk
      -- neither a blank nor kept, it takes three characters
      have h3 : (urlEncodeChar c).length = 3 := by
        rw [urlEncodeChar, if_neg (Ne.symm hb.1), if_neg hk]
        rfl
      omega
    intro d hd
    rcases List.mem_cons.1 hd with rfl | hd
    · exact hk
    · exact ih hb.2 (by omega) d hd

/-- What is not decoded is what it decodes to. -/
theorem urlDecode_of_not_needed (h : needUrlDecoding s = false) : urlDecode s = s := by
  induction s with
  | nil => rfl
  | cons c s ih =>
    rw [needUrlDecoding, List.any_cons, Bool.or_eq_false_iff] at h
    have hne : c ≠ 43 ∧ c ≠ 37 := by simpa using h.1
    rw [urlDecode_cons hne.1 hne.2, ih h.2]

theorem setPath_path (r : HttpRequest) (s : Bytes) : (r.setPath s).path = urlDecode s := by
  rw [HttpRequest.setPath]
  by_cases h : needUrlDecoding s
  · rw [if_pos h]
  · rw [if_neg h, urlDecode_of_not_needed (by simpa using h)]

/-! ## The form of coded texts -/

def IsLetter (c : UInt8) : Prop := 65 ≤ c ∧ c ≤ 90 ∨ 97 ≤ c ∧ c ≤ 122

def IsDigit (c : UInt8) : Prop := 48 ≤ c ∧ c ≤ 57

def marks : Bytes := ascii "-_.!~*'()&=/\\?"

/-- Letters, digits, marks, `+`, and `%` in front of two hexadecimal digits. -/
inductive Coded : Bytes → Prop
  | nil : Coded []
  | char {c : UInt8} {s : Bytes} (h : IsLetter c ∨ IsDigit c ∨ c ∈ marks ∨ c = 43)
      (hs : Coded s) : Coded (c :: s)
  | triple {c d : UInt8} {s : Bytes} (hc : (digit? 16 c).isSome) (hd : (digit? 16 d).isSome)
      (hs : Coded s) : Coded (37 :: c :: d :: s)

theorem isKept_iff (c : UInt8) : isKept c ↔ IsLetter c ∨ IsDigit c ∨ c ∈ marks := by
  have hall : ∀ n < 256, (isKept (UInt8.ofNat n) = true ↔
      (65 ≤ UInt8.ofNat n ∧ UInt8.ofNat n ≤ 90 ∨ 97 ≤ UInt8.ofNat n ∧ UInt8.ofNat n ≤ 122) ∨
        (48 ≤ UInt8.ofNat n ∧ UInt8.ofNat n ≤ 57) ∨ UInt8.ofNat n ∈ marks) := by
    decide +kernel
  exact forall_uint8 (P := fun c => isKept c ↔ IsLetter c ∨ IsDigit c ∨ c ∈ marks) hall c

theorem coded_urlEncodeChar_append (c : UInt8) (h : Coded s) : Coded (urlEncodeChar c ++ s) := by
  unfold urlEncodeChar
  split_ifs with hb hk
  · exact .char (.inr (.inr (.inr rfl))) h
  · have hclass := (isKept_iff c).1 hk
    exact .char (by tauto) h
  · have hc : c.toNat < 256 := c.toNat_lt
    exact .triple (by rw [digit?_hexDigit (by omega)]; rfl)
      (by rw [digit?_hexDigit (by omega)]; rfl) h

/-- **A coded text is a text of kept characters, `+` and triples.** -/
theorem coded_urlEncode (s : Bytes) : Coded (urlEncode s) := by
  induction s with
  | nil => exact .nil
  | cons c s ih =>
    rw [urlEncode_cons]
    exact coded_urlEncodeChar_append c ih

/-- A blank, a line end or a control character is not among them. -/
theorem Plain.visible (h : Plain c) : 33 ≤ c ∧ c ≤ 126 := by
  have hall : ∀ n < 256, (isKept (UInt8.ofNat n) ∨ UInt8.ofNat n = 43 ∨ UInt8.ofNat n = 37) →
      33 ≤ UInt8.ofNat n ∧ UInt8.ofNat n ≤ 126 := by
    decide +kernel
  exact forall_uint8 (P := fun c => Plain c → 33 ≤ c ∧ c ≤ 126) hall c h

/-- **`UrlEncode` and `UrlDecode`.** Decoding a coded text gives the text. A coded text has
only kept characters, `+` and triples, none of which is a blank or a control character, and
as a path it is stored decoded. -/
theorem urlEncode_correct (s : Bytes) :
    urlDecode (urlEncode s) = s ∧ Coded (urlEncode s) ∧
      (∀ c ∈ urlEncode s, 33 ≤ c ∧ c ≤ 126) ∧
      ∀ r : HttpRequest, (r.setPath (urlEncode s)).path = s := by
  have hdecode := urlDecode_urlEncode s
  refine ⟨hdecode, coded_urlEncode s, ?_, ?_⟩
  · intro c hc
    exact (plain_of_mem_urlEncode hc).visible
  · intro r
    rw [setPath_path, hdecode]

end HttpNest.HttpUtils
