import HttpNest.Lib.CNumeral

/-!
# Socket addresses as texts

`inetNtop` and `inetPton` are `inet_ntop` and `inet_pton` for `AF_INET`: four decimal numbers with
points between them. `inetPton` takes up to three digits for a byte and no zero in front of
another digit, so an address is read from one text only, the one that is printed for it
(`inetPton_eq_some`). Of the texts for `AF_INET6` only a few properties are assumed (`Inet6`).
An address is the number that `ntohl` makes of it.
-/

namespace InetText

open CNumeral

/-- The bytes of an address, from the top. -/
def octets (a : BitVec 32) : List ℕ :=
  [a.toNat / 2 ^ 24, a.toNat / 2 ^ 16 % 2 ^ 8, a.toNat / 2 ^ 8 % 2 ^ 8, a.toNat % 2 ^ 8]

def ofOctets (os : List ℕ) : BitVec 32 :=
  BitVec.ofNat 32 (os.foldl (fun n o => n * 2 ^ 8 + o) 0)

/-- `inet_ntop` for `AF_INET`. -/
def inetNtop (a : BitVec 32) : List UInt8 :=
  List.intercalate [46] ((octets a).map decText)

/-- What has been read of a text: the bytes in front of the last point, and the number behind it
if there is a digit. -/
structure Reading where
  octets : List ℕ := []
  current : Option ℕ := none

namespace Reading

/-- One character; `none` where `inet_pton` gives up. -/
def read (s : Reading) (c : UInt8) : Option Reading :=
  match digit? 10 c, s.current with
  | some d, none => if s.octets.length < 4 then some { s with current := some d } else none
  | some d, some n =>
    if n = 0 ∨ 255 < n * 10 + d then none else some { s with current := some (n * 10 + d) }
  | none, some n =>
    if c = 46 ∧ s.octets.length + 1 ≠ 4 then some ⟨s.octets ++ [n], none⟩ else none
  | none, none => none

/-- The text that has been read. -/
def text (s : Reading) : List UInt8 :=
  (s.octets.flatMap fun n => decText n ++ [46]) ++ s.current.elim [] decText

/-- Three bytes and a number are not exceeded. -/
structure Ok (s : Reading) : Prop where
  length : s.octets.length ≤ 3
  octets : ∀ n ∈ s.octets, n < 2 ^ 8
  current : ∀ n ∈ s.current, n < 2 ^ 8

end Reading

/-- `inet_pton` for `AF_INET`. -/
def inetPton (xs : List UInt8) : Option (BitVec 32) :=
  match xs.foldlM Reading.read {} with
  | some ⟨os, some n⟩ => if os.length + 1 < 4 then none else some (ofOctets (os ++ [n]))
  | _ => none

/-! ## Reading what is printed -/

theorem decText_of_digit {c : UInt8} {d : ℕ} (h : digit? 10 c = some d) :
    d < 10 ∧ decText d = [c] := by
  have hall : ∀ n < 256, ∀ d < 10, digit? 10 (UInt8.ofNat n) = some d →
      UInt8.ofNat d.digitChar.toNat = UInt8.ofNat n := by
    decide +kernel
  have hd : d < 10 := by
    unfold digit? at h
    obtain ⟨hlt, hval⟩ := Option.ite_none_right_eq_some.1 h
    cases hval
    exact hlt
  have hc := hall c.toNat c.toNat_lt d hd
  rw [UInt8.ofNat_toNat] at hc
  exact ⟨hd, by rw [decText_of_lt_ten hd, hc h]⟩

namespace Reading

variable {s t : Reading} {c : UInt8} {xs : List UInt8}

/-- A character that is taken goes to the end of the text. -/
theorem Ok.read (h : s.Ok) (hs : s.read c = some t) : t.Ok ∧ t.text = s.text ++ [c] := by
  unfold Reading.read at hs
  split at hs
  · rename_i d hd hcur
    split_ifs at hs
    cases hs
    obtain ⟨hlt, hdec⟩ := decText_of_digit hd
    refine ⟨⟨h.length, h.octets, fun n hn => ?_⟩, ?_⟩
    · cases hn
      omega
    · simp only [text, hcur, Option.elim, hdec, List.append_nil]
  · rename_i d n hd hcur
    split_ifs at hs with hn
    cases hs
    obtain ⟨hlt, hdec⟩ := decText_of_digit hd
    refine ⟨⟨h.length, h.octets, fun k hk => ?_⟩, ?_⟩
    · cases hk
      omega
    · have hten : decText (n * 10 + d) = decText n ++ [c] := by
        rw [decText_of_ten_le (by omega), show (n * 10 + d) / 10 = n by omega,
          show (n * 10 + d) % 10 = d by omega, ← decText_of_lt_ten hlt, hdec]
      simp only [text, hcur, Option.elim, hten, List.append_assoc]
  · rename_i n hd hcur
    split_ifs at hs with hc
    cases hs
    refine ⟨⟨?_, fun k hk => ?_, by simp⟩, ?_⟩
    · have := h.length
      simp only [List.length_append, List.length_singleton]
      omega
    · rcases List.mem_append.1 hk with hk | hk
      · exact h.octets k hk
      · rw [List.mem_singleton.1 hk]
        exact h.current n (by rw [hcur]; rfl)
    · simp only [text, hcur, Option.elim, hc.1, List.flatMap_append, List.flatMap_singleton,
        List.append_assoc, List.append_nil]
  · cases hs

/-- A text that ends with `c` has been read without it. -/
theorem Ok.exists_read (h : t.Ok) (ht : xs ++ [c] = t.text) :
    ∃ s : Reading, s.Ok ∧ xs = s.text ∧ s.read c = some t := by
  obtain ⟨os, cur⟩ := t
  cases cur with
  | some n =>
    have hn := h.current n rfl
    rcases lt_or_ge n 10 with hlt | hge
    · have hdigit := digit?_digitChar hlt
      simp only [text, Option.elim, decText_of_lt_ten hlt] at ht
      obtain ⟨hxs, hc⟩ := List.append_inj' ht rfl
      rw [← List.cons.inj hc |>.1] at hdigit
      refine ⟨⟨os, none⟩, ⟨h.length, h.octets, by simp⟩, by simp [text, hxs], ?_⟩
      have hlen : os.length ≤ 3 := h.length
      simp only [Reading.read, hdigit]
      rw [if_pos (by omega)]
    · have hdigit := digit?_digitChar (Nat.mod_lt n (show 0 < 10 by decide))
      simp only [text, Option.elim, decText_of_ten_le hge, ← List.append_assoc] at ht
      obtain ⟨hxs, hc⟩ := List.append_inj' ht rfl
      rw [← List.cons.inj hc |>.1] at hdigit
      refine ⟨⟨os, some (n / 10)⟩, ⟨h.length, h.octets, fun k hk => ?_⟩, hxs, ?_⟩
      · cases hk
        omega
      · simp only [Reading.read, hdigit]
        rw [if_neg (by omega), show n / 10 * 10 + n % 10 = n by omega]
  | none =>
    rcases List.eq_nil_or_concat' os with rfl | ⟨os, o, rfl⟩
    · simp [text] at ht
    · simp only [text, Option.elim, List.append_nil, List.flatMap_append, List.flatMap_singleton,
        ← List.append_assoc] at ht
      obtain ⟨hxs, hc⟩ := List.append_inj' ht rfl
      obtain rfl := (List.cons.inj hc).1
      have hlen := h.length
      simp only [List.length_append, List.length_singleton] at hlen
      have hle : os.length ≤ 3 := by omega
      refine ⟨⟨os, some o⟩, ⟨hle, fun k hk => h.octets k (List.mem_append_left _ hk),
        fun k hk => ?_⟩, hxs, ?_⟩
      · obtain rfl := Option.some.inj hk
        exact h.octets _ (by simp)
      · have hdigit : digit? 10 46 = none := by decide
        have hne : os.length + 1 ≠ 4 := by omega
        simp only [Reading.read, hdigit, hne, ne_eq, not_false_eq_true, and_self, if_true]

/-- **What has been read is the text of what has been found.** -/
theorem foldlM_read : xs.foldlM Reading.read {} = some t ↔ t.Ok ∧ xs = t.text := by
  induction xs using List.reverseRecOn generalizing t with
  | nil =>
    constructor
    · intro h
      cases h
      exact ⟨⟨by simp, by simp, by simp⟩, rfl⟩
    · rintro ⟨h, ht⟩
      obtain ⟨os, cur⟩ := t
      obtain ⟨hos, hcur⟩ := List.append_eq_nil_iff.1 ht.symm
      cases os with
      | cons o os => simp at hos
      | nil =>
        cases cur with
        | none => rfl
        | some n =>
          have hdec := (decText_spec n).2
          simp only [Option.elim] at hcur
          rcases lt_or_ge n 10 with hlt | hge
          · simp [decText_of_lt_ten hlt] at hcur
          · simp [decText_of_ten_le hge] at hcur
  | append_singleton xs c ih =>
    rw [List.foldlM_append]
    constructor
    · intro h
      obtain ⟨s, hs, hlast⟩ := Option.bind_eq_some_iff.1 h
      obtain ⟨hok, rfl⟩ := ih.1 hs
      rw [List.foldlM_cons] at hlast
      obtain ⟨u, hu, hnil⟩ := Option.bind_eq_some_iff.1 hlast
      cases hnil
      exact ⟨(hok.read hu).1, (hok.read hu).2.symm⟩
    · rintro ⟨hok, ht⟩
      obtain ⟨s, hs, hxs, hread⟩ := hok.exists_read ht
      rw [ih.2 ⟨hs, hxs⟩]
      simp [hread]

end Reading

theorem octets_ofOctets {x y z w : ℕ} (hx : x < 2 ^ 8) (hy : y < 2 ^ 8) (hz : z < 2 ^ 8)
    (hw : w < 2 ^ 8) : octets (ofOctets [x, y, z, w]) = [x, y, z, w] := by
  simp only [octets, ofOctets, List.foldl_cons, List.foldl_nil, BitVec.toNat_ofNat,
    List.cons.injEq, and_true]
  omega

theorem ofOctets_octets (a : BitVec 32) : ofOctets (octets a) = a := by
  have hlt := a.isLt
  apply BitVec.eq_of_toNat_eq
  simp only [octets, ofOctets, List.foldl_cons, List.foldl_nil, BitVec.toNat_ofNat]
  omega

theorem octets_lt (a : BitVec 32) : ∀ n ∈ octets a, n < 2 ^ 8 := by
  have hlt := a.isLt
  simp only [octets, List.mem_cons, List.not_mem_nil, or_false]
  omega

/-- **A text is read as an address exactly if it is the text of this address.** -/
theorem inetPton_eq_some {xs : List UInt8} {a : BitVec 32} :
    inetPton xs = some a ↔ xs = inetNtop a := by
  have htext : ∀ x y z w : ℕ, (⟨[x, y, z], some w⟩ : Reading).text =
      List.intercalate [46] ([x, y, z, w].map decText) := by
    intro x y z w
    simp [Reading.text, List.intercalate]
  unfold inetPton
  constructor
  · intro h
    split at h
    · rename_i os n hread
      split_ifs at h with hlen
      cases h
      obtain ⟨hok, rfl⟩ := Reading.foldlM_read.1 hread
      have hle := hok.length
      obtain ⟨x, y, z, rfl⟩ := List.length_eq_three.1 (show os.length = 3 by simp at hle; omega)
      have hos := hok.octets
      simp only [List.mem_cons, List.not_mem_nil, or_false, forall_eq_or_imp, forall_eq] at hos
      rw [htext, inetNtop, List.cons_append, List.cons_append, List.cons_append, List.nil_append,
        octets_ofOctets hos.1 hos.2.1 hos.2.2 (hok.current n rfl)]
    · cases h
  · rintro rfl
    have hlt := octets_lt a
    have hread : (inetNtop a).foldlM Reading.read {} = some ⟨[a.toNat / 2 ^ 24,
        a.toNat / 2 ^ 16 % 2 ^ 8, a.toNat / 2 ^ 8 % 2 ^ 8], some (a.toNat % 2 ^ 8)⟩ := by
      refine Reading.foldlM_read.2 ⟨⟨by simp, fun n hn => ?_, fun n hn => ?_⟩, (htext ..).symm⟩
      · exact hlt n (List.mem_append_left [a.toNat % 2 ^ 8] hn)
      · obtain rfl := Option.some.inj hn
        exact hlt _ (by simp [octets])
    rw [hread]
    exact congrArg some (ofOctets_octets a)

/-- A zero in front of another digit, and a number of four digits. -/
example : [inetPton [49, 46, 50, 46, 51, 46, 52], inetPton [48, 49, 46, 50, 46, 51, 46, 52],
    inetPton [49, 46, 50, 46, 51, 46, 49, 48, 48, 48]] = [some 0x01020304, none, none] := by
  decide +kernel

@[simp] theorem inetPton_inetNtop (a : BitVec 32) : inetPton (inetNtop a) = some a :=
  inetPton_eq_some.2 rfl

theorem of_mem_intercalate {α : Type*} {sep : List α} {c : α} : ∀ {ls : List (List α)},
    c ∈ List.intercalate sep ls → c ∈ sep ∨ ∃ l ∈ ls, c ∈ l := by
  intro ls
  induction ls with
  | nil => intro h; cases h
  | cons l ls ih =>
    intro h
    rcases eq_or_ne ls [] with rfl | hne
    · exact .inr ⟨l, List.mem_singleton.2 rfl, by simpa using h⟩
    · rw [List.intercalate_cons_of_ne_nil hne, List.mem_append, List.mem_append] at h
      rcases h with (h | h) | h
      · exact .inr ⟨l, List.mem_cons_self .., h⟩
      · exact .inl h
      · exact (ih h).imp_right fun ⟨k, hk, hc⟩ => ⟨k, List.mem_cons_of_mem _ hk, hc⟩

/-- What the text of an address is made of. -/
theorem of_mem_inetNtop {a : BitVec 32} {c : UInt8} (h : c ∈ inetNtop a) :
    c = 46 ∨ (digit? 10 c).isSome := by
  rcases of_mem_intercalate h with h | ⟨s, hs, hc⟩
  · exact .inl (List.mem_singleton.1 h)
  · obtain ⟨n, -, rfl⟩ := List.mem_map.1 hs
    exact .inr ((decText_spec n).1 c hc)

/-! ## `AF_INET6` -/

/-- What is used of the conversions for `AF_INET6`. -/
structure Inet6 where
  ntop : BitVec 128 → List UInt8
  pton : List UInt8 → Option (BitVec 128)
  pton_ntop : ∀ a, pton (ntop a) = some a
  colon_mem : ∀ {xs : List UInt8} {a : BitVec 128}, pton xs = some a → 58 ∈ xs
  zero_not_mem : ∀ a, 0 ∉ ntop a
  ntop_zero : ntop 0 = [58, 58]

/-- A number in groups of four hexadecimal digits. -/
def groups : ℕ → ℕ → List (List UInt8)
  | 0, _ => []
  | k + 1, n => groups k (n / 2 ^ 16) ++ [hexText (n % 2 ^ 16)]

theorem hexText_injective : Function.Injective hexText := fun m n h => by
  rw [← value_hexText m, ← value_hexText n, h]

theorem groups_injective : ∀ {k m n : ℕ}, m < 2 ^ (16 * k) → n < 2 ^ (16 * k) →
    groups k m = groups k n → m = n := by
  intro k
  induction k with
  | zero => intro m n hm hn _; omega
  | succ k ih =>
    intro m n hm hn h
    obtain ⟨hgroups, hlast⟩ := List.append_inj' h rfl
    have hmod := hexText_injective (List.cons.inj hlast).1
    rw [Nat.mul_succ, pow_add, mul_comm] at hm hn
    have hdiv := ih (Nat.div_lt_of_lt_mul hm) (Nat.div_lt_of_lt_mul hn) hgroups
    omega

theorem isHex_of_mem_groups : ∀ {k n : ℕ} {s : List UInt8}, s ∈ groups k n → IsHex s := by
  intro k
  induction k with
  | zero => intro n s h; cases h
  | succ k ih =>
    intro n s h
    rcases List.mem_append.1 h with h | h
    · exact ih h
    · rw [List.mem_singleton.1 h]
      exact isHex_hexText _

theorem length_groups : ∀ k n : ℕ, (groups k n).length = k := by
  intro k
  induction k with
  | zero => exact fun _ => rfl
  | succ k ih => intro n; simp [groups, ih]

/-- An address with all its groups, as it is printed if none of them is 0. -/
def groupsText (a : BitVec 128) : List UInt8 :=
  if a = 0 then [58, 58] else List.intercalate [58] (groups 8 a.toNat)

theorem splitOn_groupsText {a : BitVec 128} (h : a ≠ 0) :
    (groupsText a).splitOn 58 = groups 8 a.toNat := by
  rw [groupsText, if_neg h]
  refine List.splitOn_intercalate 58 (fun s hs hc => ?_) (List.ne_nil_of_length_pos ?_)
  · have hdigit := isHex_of_mem_groups hs 58 hc
    revert hdigit
    decide
  · rw [length_groups]
    decide

theorem groupsText_injective : Function.Injective groupsText := by
  have hzero : ∀ {a : BitVec 128}, a ≠ 0 → groupsText a ≠ groupsText 0 := by
    intro a ha h
    have hlen := congrArg List.length (splitOn_groupsText ha)
    rw [h, length_groups] at hlen
    revert hlen
    decide
  intro a b h
  by_cases ha : a = 0
  · by_contra hne
    rw [ha] at h hne
    exact hzero (Ne.symm hne) h.symm
  by_cases hb : b = 0
  · rw [hb] at h
    exact absurd h (hzero ha)
  · have hgroups := splitOn_groupsText ha
    rw [h, splitOn_groupsText hb] at hgroups
    exact BitVec.eq_of_toNat_eq (groups_injective b.isLt a.isLt hgroups).symm

/-- The conversions for addresses without a group that is 0. -/
noncomputable def Inet6.plain : Inet6 where
  ntop := groupsText
  pton := Function.partialInv groupsText
  pton_ntop := Function.partialInv_left groupsText_injective
  colon_mem := by
    intro xs a h
    have ha := (groupsText_injective.isPartialInv _ _).1 h
    rw [← ha]
    by_contra hmem
    by_cases hz : a = 0
    · rw [hz] at hmem
      exact hmem (by decide)
    · have hlen := congrArg List.length (splitOn_groupsText hz)
      rw [List.splitOn_eq_singleton hmem, length_groups] at hlen
      cases hlen
  zero_not_mem := by
    intro a h
    unfold groupsText at h
    split_ifs at h
    · revert h
      decide
    · rcases of_mem_intercalate h with h | ⟨s, hs, hc⟩
      · revert h
        decide
      · have hdigit := isHex_of_mem_groups hs 0 hc
        revert hdigit
        decide
  ntop_zero := rfl

end InetText
