import Mathlib

/-!
# Numerals as the C library reads them

`strtol` and `std::stoull` skip leading blanks, take a sign and, in base 16, an
optional `0x`, and read the longest run of digits; what follows is ignored.
`strtol` saturates at the bounds of a 64-bit `long`; `stoull` throws on a text
without digits and on a magnitude of `2^64` or more, and negates modulo `2^64`.
`toInt32` is the conversion of any integer value to `int32_t`, and `atoi` is `strtol` with this
conversion. `hexText` is what `%X`
prints, and `value_hexText` reads it back; `decText` is what a stream prints for a number,
`printBlanks` and `printZeros` what `%4d` and `%02d` print.
-/

namespace CNumeral

/-- `isspace` in the C locale. -/
def isSpace (c : UInt8) : Bool := c == 32 || (9 ≤ c && c ≤ 13)

/-- The value of a digit in a base up to 36. -/
def digit? (base : ℕ) (c : UInt8) : Option ℕ :=
  let v := if 48 ≤ c && c ≤ 57 then c.toNat - 48
    else if 97 ≤ c && c ≤ 122 then c.toNat - 87
    else if 65 ≤ c && c ≤ 90 then c.toNat - 55
    else 36
  if v < base then some v else none

/-- The values of the leading digits. -/
def digits (base : ℕ) : List UInt8 → List ℕ
  | [] => []
  | c :: cs => match digit? base c with
    | some d => d :: digits base cs
    | none => []

/-- The number a list of digits denotes. -/
def value (base : ℕ) (ds : List ℕ) : ℕ := ds.foldl (fun n d => n * base + d) 0

/-- The sign and what follows it. -/
def sign : List UInt8 → Bool × List UInt8
  | 45 :: s => (true, s)
  | 43 :: s => (false, s)
  | s => (false, s)

/-- Skip `0x` before a hexadecimal digit. -/
def skip0x : List UInt8 → List UInt8
  | 48 :: x :: c :: s =>
    if (x = 120 ∨ x = 88) ∧ (digit? 16 c).isSome then c :: s else 48 :: x :: c :: s
  | s => s

/-- The sign and the digits of the numeral a text starts with. -/
def subject (base : ℕ) (s : List UInt8) : Bool × List ℕ :=
  let (neg, s) := sign (s.dropWhile isSpace)
  (neg, digits base (if base = 16 then skip0x s else s))

/-- `strtol(s, &end, base)` with a 64-bit `long`. -/
def strtol (base : ℕ) (s : List UInt8) : ℤ :=
  let (neg, ds) := subject base s
  let v : ℤ := value base ds
  max (-2 ^ 63) (min (2 ^ 63 - 1) (if neg then -v else v))

/-- `std::stoull(s)`; `none` where it throws. -/
def stoull (s : List UInt8) : Option ℕ :=
  let (neg, ds) := subject 10 s
  if ds = [] ∨ 2 ^ 64 ≤ value 10 ds then none
  else some (if neg then (2 ^ 64 - value 10 ds) % 2 ^ 64 else value 10 ds)

/-- Conversion to `int32_t`. -/
def toInt32 (z : ℤ) : ℤ :=
  if z % 2 ^ 32 < 2 ^ 31 then z % 2 ^ 32 else z % 2 ^ 32 - 2 ^ 32

/-- `std::atoi(s)`: what `strtol` reads, as an `int`. -/
def atoi (s : List UInt8) : ℤ := toInt32 (strtol 10 s)

theorem toInt32_of_lt {z : ℤ} (h0 : 0 ≤ z) (h1 : z < 2 ^ 31) : toInt32 z = z := by
  unfold toInt32; omega

theorem toInt32_lt (z : ℤ) : toInt32 z < 2 ^ 31 := by
  unfold toInt32; split <;> omega

/-- A non-negative conversion of a natural number does not exceed it. -/
theorem toInt32_le (n : ℕ) : toInt32 n ≤ n := by
  unfold toInt32; split <;> omega

/-- The conversion of a natural number is non-negative where its low 32 bits are
below `2^31`. -/
theorem toInt32_nonneg {n : ℕ} : 0 ≤ toInt32 n ↔ n % 2 ^ 32 < 2 ^ 31 := by
  unfold toInt32; split <;> omega

/-! ## Hexadecimal texts -/

/-- A text of hexadecimal digits. -/
def IsHex (s : List UInt8) : Prop := ∀ c ∈ s, (digit? 16 c).isSome

/-- What a hexadecimal digit is not: a blank, a sign, the `x` of a prefix, or the end of
a line. -/
theorem of_hex_digit {c : UInt8} (h : (digit? 16 c).isSome) :
    isSpace c = false ∧ c ≠ 45 ∧ c ≠ 43 ∧ c ≠ 120 ∧ c ≠ 88 ∧ c ≠ 13 := by
  have hall : ∀ n < 256, (digit? 16 (UInt8.ofNat n)).isSome →
      isSpace (UInt8.ofNat n) = false ∧ UInt8.ofNat n ≠ 45 ∧ UInt8.ofNat n ≠ 43 ∧
        UInt8.ofNat n ≠ 120 ∧ UInt8.ofNat n ≠ 88 ∧ UInt8.ofNat n ≠ 13 := by
    decide +kernel
  have := hall c.toNat c.toNat_lt
  rw [UInt8.ofNat_toNat] at this
  exact this h

theorem skip0x_hex {s : List UInt8} (h : IsHex s) : skip0x s = s := by
  unfold skip0x
  split
  · rename_i x c t
    obtain ⟨-, -, -, hx, hX, -⟩ := of_hex_digit (h x (by simp))
    rw [if_neg (by simp [hx, hX])]
  · rfl

/-- Such a text starts with neither a blank nor a sign. -/
theorem sign_hex {s : List UInt8} (h : IsHex s) : sign (s.dropWhile isSpace) = (false, s) := by
  cases s with
  | nil => rfl
  | cons c cs =>
    obtain ⟨hsp, hminus, hplus, -⟩ := of_hex_digit (h c (List.mem_cons_self ..))
    rw [List.dropWhile_cons_of_neg (by simp [hsp])]
    unfold sign
    split
    · exact absurd (List.cons.inj ‹_›).1 hminus
    · exact absurd (List.cons.inj ‹_›).1 hplus
    · rfl

/-- **`strtol` reads a hexadecimal text as its value**, up to the bound of a `long`. -/
theorem strtol_hex {s : List UInt8} (h : IsHex s) (hlt : value 16 (digits 16 s) < 2 ^ 63) :
    strtol 16 s = value 16 (digits 16 s) := by
  have hsubject : subject 16 s = (false, digits 16 s) := by
    rw [subject, sign_hex h]
    simp only [if_true, skip0x_hex h]
  rw [strtol, hsubject]
  simp only [Bool.false_eq_true, if_false]
  omega

/-! ## Decimal texts -/

/-- A text of decimal digits. -/
def IsDec (s : List UInt8) : Prop := ∀ c ∈ s, (digit? 10 c).isSome

instance (s : List UInt8) : Decidable (IsDec s) := inferInstanceAs (Decidable (∀ c ∈ s, _))

/-- The number a decimal text denotes. -/
def decimal (s : List UInt8) : ℕ := value 10 (digits 10 s)

/-- A decimal digit is a hexadecimal one too. -/
theorem of_dec_digit {c : UInt8} (h : (digit? 10 c).isSome) :
    (digit? 16 c).isSome ∧ c ≠ 32 ∧ c ≠ 58 := by
  have hall : ∀ n < 256, (digit? 10 (UInt8.ofNat n)).isSome →
      (digit? 16 (UInt8.ofNat n)).isSome ∧ UInt8.ofNat n ≠ 32 ∧ UInt8.ofNat n ≠ 58 := by
    decide +kernel
  have := hall c.toNat c.toNat_lt
  rw [UInt8.ofNat_toNat] at this
  exact this h

theorem IsDec.isHex {s : List UInt8} (h : IsDec s) : IsHex s :=
  fun c hc => (of_dec_digit (h c hc)).1

theorem subject_dec {s : List UInt8} (h : IsDec s) : subject 10 s = (false, digits 10 s) := by
  rw [subject, sign_hex h.isHex]
  rfl

/-- **`strtol` reads a decimal text as its value**, up to the bound of a `long`. -/
theorem strtol_dec {s : List UInt8} (h : IsDec s) (hlt : decimal s < 2 ^ 63) :
    strtol 10 s = decimal s := by
  unfold decimal at hlt ⊢
  rw [strtol, subject_dec h]
  simp only [Bool.false_eq_true, if_false]
  omega

theorem atoi_dec {s : List UInt8} (h : IsDec s) (hlt : decimal s < 2 ^ 31) :
    atoi s = decimal s := by
  rw [atoi, strtol_dec h (by omega), toInt32_of_lt (by omega) (by omega)]

theorem digits_append {base : ℕ} {s : List UInt8} (h : ∀ c ∈ s, (digit? base c).isSome)
    (t : List UInt8) : digits base (s ++ t) = digits base s ++ digits base t := by
  induction s with
  | nil => rfl
  | cons c cs ih =>
    obtain ⟨d, hd⟩ := Option.isSome_iff_exists.1 (h c (List.mem_cons_self ..))
    rw [List.cons_append, digits, digits, hd]
    simp only [ih fun c hc => h c (List.mem_cons_of_mem _ hc), List.cons_append]

/-! ## Numerals among blanks -/

/-- A space or a tab. -/
def isBlank (c : UInt8) : Bool := c == 32 || c == 9

/-- The text without the blanks at its ends. -/
def stripBlanks (s : List UInt8) : List UInt8 := (s.dropWhile isBlank).rdropWhile isBlank

/-- A numeral of the value `n`, without sign or prefix. -/
structure IsNumeral (base n : ℕ) (s : List UInt8) : Prop where
  ne_nil : s ≠ []
  digit : ∀ c ∈ s, (digit? base c).isSome
  value_eq : value base (digits base s) = n

theorem of_isBlank {c : UInt8} (h : isBlank c = true) : isSpace c = true ∧ digit? 10 c = none := by
  simp only [isBlank, Bool.or_eq_true, beq_iff_eq] at h
  rcases h with rfl | rfl <;> decide

theorem dropWhile_isSpace_blanks (s : List UInt8) :
    (s.dropWhile isBlank).dropWhile isSpace = s.dropWhile isSpace := by
  induction s with
  | nil => rfl
  | cons c cs ih =>
    by_cases hc : isBlank c = true
    · rw [List.dropWhile_cons_of_pos hc, ih, List.dropWhile_cons_of_pos (of_isBlank hc).1]
    · rw [List.dropWhile_cons_of_neg hc]

theorem sign_append {s : List UInt8} (hs : s ≠ []) (w : List UInt8) :
    sign (s ++ w) = ((sign s).1, (sign s).2 ++ w) := by
  obtain ⟨c, cs, rfl⟩ := List.exists_cons_of_ne_nil hs
  by_cases hminus : c = 45
  · rw [hminus]
    rfl
  by_cases hplus : c = 43
  · rw [hplus]
    rfl
  have hsign : ∀ t, sign (c :: t) = (false, c :: t) := by
    intro t
    unfold sign
    split
    · exact absurd (List.cons.inj ‹_›).1 hminus
    · exact absurd (List.cons.inj ‹_›).1 hplus
    · rfl
  rw [List.cons_append, hsign, hsign, List.cons_append]

theorem digits_append_blanks (s : List UInt8) {w : List UInt8} (hw : ∀ c ∈ w, isBlank c = true) :
    digits 10 (s ++ w) = digits 10 s := by
  induction s with
  | nil =>
    cases w with
    | nil => rfl
    | cons c cs =>
      simp [digits, (of_isBlank (hw c (List.mem_cons_self ..))).2]
  | cons c cs ih =>
    rw [List.cons_append, digits, digits, ih]

theorem subject_append_blanks (s : List UInt8) {w : List UInt8} (hw : ∀ c ∈ w, isBlank c = true) :
    subject 10 (s ++ w) = subject 10 s := by
  have hnil : w.dropWhile isSpace = [] :=
    List.dropWhile_eq_nil_iff.2 fun c hc => (of_isBlank (hw c hc)).1
  rw [subject, subject, List.dropWhile_append, hnil]
  by_cases hs : s.dropWhile isSpace = []
  · rw [hs]
    rfl
  · rw [if_neg (by simpa using hs), sign_append hs]
    simp only [show ¬ (10 = 16) by decide, if_false, digits_append_blanks _ hw]

/-! ## The end of a numeral -/

theorem digits_append_cons {base : ℕ} {c : UInt8} (hc : digit? base c = none) (s t : List UInt8) :
    digits base (s ++ c :: t) = digits base s := by
  induction s with
  | nil => simp [digits, hc]
  | cons d s ih => rw [List.cons_append, digits, digits, ih]

/-- A character that no numeral has ends it. -/
theorem subject_append_cons {c : UInt8} (hspace : isSpace c = false) (hminus : c ≠ 45)
    (hplus : c ≠ 43) (hc : digit? 10 c = none) (s t : List UInt8) :
    subject 10 (s ++ c :: t) = subject 10 s := by
  rw [subject, subject, List.dropWhile_append]
  by_cases hs : s.dropWhile isSpace = []
  · have hsign : sign (c :: t) = (false, c :: t) := by
      unfold sign
      split
      · exact absurd (List.cons.inj ‹_›).1 hminus
      · exact absurd (List.cons.inj ‹_›).1 hplus
      · rfl
    rw [hs, List.dropWhile_cons_of_neg (by simp [hspace])]
    simp [hsign, digits, hc, show sign [] = (false, []) from rfl]
  · rw [if_neg (by simpa using hs), sign_append hs]
    simp only [show ¬ (10 = 16) by decide, if_false, digits_append_cons hc]

theorem atoi_append_cons {c : UInt8} (hspace : isSpace c = false) (hminus : c ≠ 45)
    (hplus : c ≠ 43) (hc : digit? 10 c = none) (s t : List UInt8) :
    atoi (s ++ c :: t) = atoi s := by
  rw [atoi, atoi, strtol, strtol, subject_append_cons hspace hminus hplus hc]

/-- **`stoull` reads past blanks at both ends.** -/
theorem stoull_stripBlanks (s : List UInt8) : stoull (stripBlanks s) = stoull s := by
  have hsubject : subject 10 (stripBlanks s) = subject 10 s := by
    have hends := List.rdropWhile_append_rtakeWhile (p := isBlank) (l := s.dropWhile isBlank)
    calc subject 10 (stripBlanks s)
        = subject 10 (stripBlanks s ++ (s.dropWhile isBlank).rtakeWhile isBlank) :=
          (subject_append_blanks _ fun c hc => List.mem_rtakeWhile_imp hc).symm
      _ = subject 10 (s.dropWhile isBlank) := by rw [stripBlanks, hends]
      _ = subject 10 s := by rw [subject, subject, dropWhile_isSpace_blanks]
  rw [stoull, stoull, hsubject]

/-- **`stoull` reads a numeral as its value**, and throws from `2^64` on. -/
theorem IsNumeral.stoull_eq {n : ℕ} {s : List UInt8} (h : IsNumeral 10 n s) :
    stoull s = if n < 2 ^ 64 then some n else none := by
  have hne : digits 10 s ≠ [] := by
    obtain ⟨c, cs, rfl⟩ := List.exists_cons_of_ne_nil h.ne_nil
    obtain ⟨d, hd⟩ := Option.isSome_iff_exists.1 (h.digit c (List.mem_cons_self ..))
    simp [digits, hd]
  rw [stoull, subject_dec h.digit]
  simp only [hne, h.value_eq, false_or, Bool.false_eq_true, if_false]
  by_cases hn : n < 2 ^ 64
  · rw [if_pos hn, if_neg (by omega)]
  · rw [if_neg hn, if_pos (by omega)]

/-! ## Writing -/

/-- A hexadecimal digit in upper case. -/
def hexDigit (d : ℕ) : UInt8 := if d < 10 then .ofNat (48 + d) else .ofNat (55 + d)

/-- `%X` -/
def hexText (n : ℕ) : List UInt8 :=
  if n = 0 then [48] else ((Nat.digits 16 n).map hexDigit).reverse

theorem digit?_hexDigit {d : ℕ} (h : d < 16) : digit? 16 (hexDigit d) = some d := by
  have hall : ∀ d < 16, digit? 16 (hexDigit d) = some d := by decide
  exact hall d h

theorem digits_map_hexDigit {ds : List ℕ} (h : ∀ d ∈ ds, d < 16) :
    digits 16 (ds.map hexDigit) = ds := by
  induction ds with
  | nil => rfl
  | cons d ds ih =>
    rw [List.map_cons, digits, digit?_hexDigit (h d (List.mem_cons_self ..))]
    simp only [ih fun d hd => h d (List.mem_cons_of_mem _ hd)]

theorem hexText_ne_nil (n : ℕ) : hexText n ≠ [] := by
  unfold hexText
  split_ifs with hn
  · exact List.cons_ne_nil _ _
  · simpa [Nat.digits_eq_nil_iff_eq_zero] using hn

theorem isHex_hexText (n : ℕ) : IsHex (hexText n) := by
  unfold hexText
  split_ifs with hn
  · intro c hc
    rw [List.mem_singleton.1 hc]
    decide
  · intro c hc
    obtain ⟨d, hd, rfl⟩ := List.mem_map.1 (List.mem_reverse.1 hc)
    rw [digit?_hexDigit (Nat.digits_lt_base (by decide) hd)]
    rfl

/-- **What is printed denotes the number.** -/
theorem value_hexText (n : ℕ) : value 16 (digits 16 (hexText n)) = n := by
  unfold hexText
  split_ifs with hn
  · rw [hn]
    decide
  · have hlt : ∀ d ∈ (Nat.digits 16 n).reverse, d < 16 := by
      intro d hd
      exact Nat.digits_lt_base (by decide) (List.mem_reverse.1 hd)
    rw [← List.map_reverse, digits_map_hexDigit hlt, value, List.foldl_reverse]
    calc (Nat.digits 16 n).foldr (fun d n => n * 16 + d) 0
        = Nat.ofDigits 16 (Nat.digits 16 n) := by
          rw [Nat.ofDigits_eq_foldr]
          congr 1
          funext d n
          simp only [Nat.cast_id]
          ring
      _ = n := Nat.ofDigits_digits 16 n

/-- A number in base 10, as a stream prints it. -/
def decText (n : ℕ) : List UInt8 := (Nat.toDigits 10 n).map fun c => UInt8.ofNat c.toNat

/-- `%4d` for a width of 4: blanks in front. -/
def printBlanks (width : ℕ) (z : ℤ) : List UInt8 :=
  let s := if z < 0 then 45 :: decText z.natAbs else decText z.natAbs
  List.replicate (width - s.length) 32 ++ s

/-- `%02d` for a width of 2: zeros in front, behind the sign. -/
def printZeros (width : ℕ) (z : ℤ) : List UInt8 :=
  let s := decText z.natAbs
  if z < 0 then 45 :: (List.replicate (width - 1 - s.length) 48 ++ s)
  else List.replicate (width - s.length) 48 ++ s

theorem digit?_digitChar {d : ℕ} (h : d < 10) :
    digit? 10 (UInt8.ofNat d.digitChar.toNat) = some d := by
  have hall : ∀ d < 10, digit? 10 (UInt8.ofNat d.digitChar.toNat) = some d := by decide
  exact hall d h

/-- The last digit of a number is printed last. -/
theorem decText_of_ten_le {n : ℕ} (h : 10 ≤ n) :
    decText n = decText (n / 10) ++ [UInt8.ofNat (n % 10).digitChar.toNat] := by
  rw [decText, Nat.toDigits_of_base_le (by decide) h, List.map_append]
  rfl

theorem decText_of_lt_ten {n : ℕ} (h : n < 10) : decText n = [UInt8.ofNat n.digitChar.toNat] := by
  rw [decText, Nat.toDigits_of_lt_base h]
  rfl

/-- **What is printed is a decimal text of that value.** -/
theorem decText_spec (n : ℕ) : IsDec (decText n) ∧ decimal (decText n) = n := by
  induction n using Nat.strong_induction_on with
  | _ n ih =>
    rcases lt_or_ge n 10 with hlt | hge
    · have hdigit := digit?_digitChar hlt
      rw [decText_of_lt_ten hlt]
      refine ⟨fun c hc => ?_, ?_⟩
      · rw [List.mem_singleton.1 hc, hdigit]
        rfl
      · simp [decimal, digits, hdigit, value]
    · obtain ⟨hdec, hval⟩ := ih (n / 10) (by omega)
      have hdigit := digit?_digitChar (Nat.mod_lt n (show 0 < 10 by decide))
      rw [decText_of_ten_le hge]
      refine ⟨fun c hc => ?_, ?_⟩
      · rcases List.mem_append.1 hc with hc | hc
        · exact hdec c hc
        · rw [List.mem_singleton.1 hc, hdigit]
          rfl
      · unfold decimal value at hval ⊢
        rw [digits_append hdec, List.foldl_append, hval]
        simp only [digits, hdigit, List.foldl_cons, List.foldl_nil]
        omega

/-- What a printed number is made of. -/
theorem of_mem_printBlanks {width : ℕ} {z : ℤ} {c : UInt8} (h : c ∈ printBlanks width z) :
    c = 32 ∨ c = 45 ∨ (digit? 10 c).isSome := by
  have hdec := (decText_spec z.natAbs).1
  unfold printBlanks at h
  rcases List.mem_append.1 h with h | h
  · exact .inl (List.eq_of_mem_replicate h)
  · split_ifs at h
    · rcases List.mem_cons.1 h with h | h
      · exact .inr (.inl h)
      · exact .inr (.inr (hdec c h))
    · exact .inr (.inr (hdec c h))

theorem of_mem_printZeros {width : ℕ} {z : ℤ} {c : UInt8} (h : c ∈ printZeros width z) :
    c = 45 ∨ (digit? 10 c).isSome := by
  have hdec := (decText_spec z.natAbs).1
  have hzeros : ∀ {n : ℕ}, c ∈ List.replicate n 48 ++ decText z.natAbs →
      (digit? 10 c).isSome := by
    intro n hm
    rcases List.mem_append.1 hm with hm | hm
    · rw [List.eq_of_mem_replicate hm]
      decide
    · exact hdec c hm
  unfold printZeros at h
  split_ifs at h
  · rcases List.mem_cons.1 h with h | h
    · exact .inl h
    · exact .inr (hzeros h)
  · exact .inr (hzeros h)

theorem length_hexText_le {n k : ℕ} (hk : 1 ≤ k) (h : n < 16 ^ k) : (hexText n).length ≤ k := by
  unfold hexText
  split_ifs with hn
  · exact hk
  · rw [List.length_reverse, List.length_map]
    exact (Nat.digits_length_le_iff (by decide) n).2 h

end CNumeral
