import HttpNest.Lib.CNumeral

/-!
# Values of a JSON text

`JsonValue` is `Json::Value`, with the conversions of its numbers to `int` and to a text. An error
is the text of the exception. A member that is missing is null, and null converts to the empty
text and to 0; it is only a value of another type that is refused.
-/

/-- Numbers with a fraction or an exponent have a type of their own. -/
inductive JsonValue (ρ : Type*)
  | null
  | int (z : ℤ)
  | uint (n : ℕ)
  | real (r : ρ)
  | string (s : List UInt8)
  | bool (b : Bool)
  | array (xs : List (JsonValue ρ))
  | object (ms : List (List UInt8 × JsonValue ρ))

/-- What is used of `double`: the `int` it is cut to, if it is in the range, and its text. -/
structure JsonReals (ρ : Type*) where
  toInt : ρ → Option ℤ
  text : ρ → List UInt8

namespace JsonValue

open CNumeral

variable {ρ α : Type*} {reals : JsonReals ρ} {v : JsonValue ρ}

def isNull : JsonValue ρ → Bool
  | null => true
  | _ => false

def find (v : JsonValue ρ) (key : List UInt8) : Except String (Option (JsonValue ρ)) :=
  match v with
  | null => .ok none
  | object ms => .ok (ms.lookup key)
  | _ => .error "in Json::Value::find(begin, end): requires objectValue or nullValue"

/-- `operator[]` of a constant value -/
def index (v : JsonValue ρ) (key : List UInt8) : Except String (JsonValue ρ) :=
  (v.find key).map fun found => found.getD null

/-- `operator[]` of a variable, which makes an object of null and adds the member as null. -/
def resolve (v : JsonValue ρ) (key : List UInt8) : Except String (JsonValue ρ) :=
  match v with
  | null => .ok null
  | object ms => .ok ((ms.lookup key).getD null)
  | _ => .error "in Json::Value::resolveReference(key, end): requires objectValue"

def get (v : JsonValue ρ) (key : List UInt8) (defaultValue : JsonValue ρ) :
    Except String (JsonValue ρ) :=
  (v.find key).map fun found => found.getD defaultValue

def asString (reals : JsonReals ρ) : JsonValue ρ → Except String (List UInt8)
  | null => .ok []
  | string s => .ok s
  | bool b => .ok (if b then [116, 114, 117, 101] else [102, 97, 108, 115, 101])
  | int z => .ok (printBlanks 0 z)
  | uint n => .ok (printBlanks 0 n)
  | real r => .ok (reals.text r)
  | array _ | object _ => .error "Type is not convertible to string"

def asInt (reals : JsonReals ρ) : JsonValue ρ → Except String ℤ
  | int z => if -2 ^ 31 ≤ z ∧ z < 2 ^ 31 then .ok z else .error "LargestInt out of Int range"
  | uint n => if n < 2 ^ 31 then .ok n else .error "LargestUInt out of Int range"
  | real r =>
    match reals.toInt r with
    | some z => .ok z
    | none => .error "double out of Int range"
  | null => .ok 0
  | bool b => .ok (if b then 1 else 0)
  | string _ | array _ | object _ => .error "Value is not convertible to Int."

/-! ## What is converted -/

/-- Anything but a container. -/
def IsText : JsonValue ρ → Prop
  | array _ | object _ => False
  | _ => True

/-- A number in the range of `int`, a truth value or null. -/
def IsInt (reals : JsonReals ρ) : JsonValue ρ → Prop
  | int z => -2 ^ 31 ≤ z ∧ z < 2 ^ 31
  | uint n => n < 2 ^ 31
  | real r => (reals.toInt r).isSome
  | null | bool _ => True
  | string _ | array _ | object _ => False

theorem asString_isOk (reals : JsonReals ρ) : (v.asString reals).isOk = true ↔ v.IsText := by
  cases v <;> simp [asString, IsText, Except.isOk, Except.toBool]

theorem asInt_isOk : (v.asInt reals).isOk = true ↔ v.IsInt reals := by
  cases v with
  | int z => simp only [asInt, IsInt]; split_ifs <;> simp_all [Except.isOk, Except.toBool]
  | uint n => simp only [asInt, IsInt]; split_ifs <;> simp_all [Except.isOk, Except.toBool]
  | real r => simp only [asInt, IsInt]; split <;> simp_all [Except.isOk, Except.toBool]
  | _ => simp [asInt, IsInt, Except.isOk, Except.toBool]

end JsonValue
