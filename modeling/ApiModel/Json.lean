/-
  ApiModel.Json

  Documents as values: null, truth values, numbers, texts, arrays, and objects that keep the order
  of their keys. A number is an integer when its token is one and fits 64 bits, and a binary64
  number otherwise; `1` and `1.0` are different values. Equality of values looks at numbers by value
  and forgets the order of object keys.
-/
import ApiModel.Dict
import ApiModel.Binary64

namespace ApiModel

/-- A number of a document. -/
inductive Number where
  /-- An integer token that fits 64 bits, with or without sign. -/
  | int (value : Int)
  /-- Any other number token. -/
  | float (value : Binary64)
  deriving DecidableEq

/-- A document value. -/
inductive Json where
  | null
  | bool (value : Bool)
  | num (value : Number)
  | str (value : String)
  | arr (items : List Json)
  | obj (fields : List (String × Json))

instance : Inhabited Json := ⟨.null⟩

namespace Number

/-- Equality of numbers: within integers or within binary64 numbers. -/
def same : Number → Number → Bool
  | .int a, .int b => a == b
  | .float a, .float b => a.same b
  | _, _ => false

/-- The nearest binary64 number. Sixty-four bits never leave the finite range. -/
def toBinary64 : Number → Binary64
  | .int n => (Binary64.ofInt? n).getD .zero
  | .float x => x

/-- The number as a count: an integer token that is not negative. -/
def toCount? : Number → Option Nat
  | .int n => if 0 ≤ n then some n.toNat else none
  | .float _ => none

/-- Whether the number is whole. -/
def isIntegral : Number → Bool
  | .int _ => true
  | .float x => x.isIntegral

end Number

namespace Json

/-! ## Equality -/

mutual

/-- Equality of values; the order of object keys does not matter. -/
def same : Json → Json → Bool
  | .null, .null => true
  | .bool a, .bool b => a == b
  | .num a, .num b => a.same b
  | .str a, .str b => a == b
  | .arr xs, .arr ys => sameItems xs ys
  | .obj fs, .obj gs => fs.length == gs.length && sameFields fs gs
  | _, _ => false

/-- Item by item equality. -/
def sameItems : List Json → List Json → Bool
  | [], [] => true
  | x :: xs, y :: ys => same x y && sameItems xs ys
  | _, _ => false

/-- Whether every field of the first object has an equal value in the second. -/
def sameFields : List (String × Json) → List (String × Json) → Bool
  | [], _ => true
  | (k, v) :: fs, gs =>
    (match gs.lookup k with
      | some w => same v w
      | none => false) && sameFields fs gs

end

instance : BEq Json := ⟨same⟩

/-! ## Views -/

/-- The fields of an object. -/
def fields? : Json → Option (List (String × Json))
  | .obj fs => some fs
  | _ => none

/-- The items of an array. -/
def items? : Json → Option (List Json)
  | .arr xs => some xs
  | _ => none

/-- The text of a string. -/
def text? : Json → Option String
  | .str s => some s
  | _ => none

/-- The truth value. -/
def truth? : Json → Option Bool
  | .bool b => some b
  | _ => none

/-- The number. -/
def number? : Json → Option Number
  | .num n => some n
  | _ => none

/-- Whether the value is null. -/
def isNull : Json → Bool
  | .null => true
  | _ => false

/-- The value under a key of an object. -/
def get? (v : Json) (key : String) : Option Json := do (← v.fields?).lookup key

/-! ## Building -/

/-- An integer. -/
def ofInt (n : Int) : Json := .num (.int n)

/-- A natural number. -/
def ofNat (n : Nat) : Json := ofInt n

/-- A binary64 number. -/
def ofBinary64 (x : Binary64) : Json := .num (.float x)

/-- An array of texts. -/
def texts (xs : List String) : Json := .arr (xs.map .str)

/-- The value if there is one, and null otherwise. -/
def ofOption {α : Type} (f : α → Json) : Option α → Json
  | some a => f a
  | none => .null

end Json

end ApiModel
