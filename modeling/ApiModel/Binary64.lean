/-
  ApiModel.Binary64

  The finite 64-bit floating point numbers, exactly. Every one of them is a whole multiple of
  2^-1074, so a sign and a natural number of such units hold it without an exponent, and comparing
  two of them is comparing integers. No number that a document can carry is infinite or undefined,
  so those two do not occur. Arithmetic goes through one rounding, `roundRatio`: to the nearest
  representable magnitude, a half to the even neighbour.
-/

namespace ApiModel

/-- A finite binary64 number: `± units · 2^-1074`. Zero keeps its sign. -/
structure Binary64 where
  negative : Bool
  units : Nat
  deriving DecidableEq

namespace Binary64

instance : Inhabited Binary64 := ⟨⟨false, 0⟩⟩

-- Powers are written `Nat.pow`: the operator would take its meaning from what else is loaded.

/-- The number of units in one. -/
def unitsPerOne : Nat := Nat.pow 2 1074

/-- The first magnitude, in units, that is too large to be finite. -/
def overflow : Nat := Nat.pow 2 2098

/-- The number as a whole multiple of 2^-1074. Both zeros have the value zero. -/
def value (x : Binary64) : Int := if x.negative then -(x.units : Int) else x.units

/-- Equality of values: the two zeros are equal. -/
def same (x y : Binary64) : Bool := x.value == y.value

instance : BEq Binary64 := ⟨same⟩

/-- The order of values. -/
def lt (x y : Binary64) : Bool := x.value < y.value

/-- Whether the value is a whole number. -/
def isIntegral (x : Binary64) : Bool := x.units % unitsPerOne == 0

/-- Positive zero. -/
def zero : Binary64 := ⟨false, 0⟩

/-! ## Rounding -/

/-- `a / b` rounded to a whole number, a half to the even neighbour. -/
def roundHalfEven (a b : Nat) : Nat :=
  let q := a / b
  let r := a % b
  if 2 * r < b then q else if b < 2 * r then q + 1 else q + q % 2

/-- The gap between a magnitude of `n` units and the next larger representable one. -/
def gapAbove (n : Nat) : Nat := Nat.pow 2 (n.log2 - 52)

/-- The gap between a magnitude of `n` units and the next smaller representable one: half as wide
    where the leading digit stands alone. -/
def gapBelow (n : Nat) : Nat :=
  if n == Nat.pow 2 n.log2 then Nat.pow 2 (n.log2 - 53) else gapAbove n

/-- The representable magnitude, in units, nearest to `num / den`; none when it is too large. -/
def roundRatio (num den : Nat) : Option Nat :=
  let scaled := num * unitsPerOne
  let gap := gapAbove (scaled / den)
  let units := roundHalfEven scaled (den * gap) * gap
  if units < overflow then some units else none

/-- The number nearest to an integer; none beyond the finite range. -/
def ofInt? (n : Int) : Option Binary64 :=
  (roundRatio n.natAbs 1).map fun u => ⟨decide (n < 0), u⟩

/-- The magnitude nearest to `10 ^ k`; none beyond the finite range. -/
def tenPow? (k : Nat) : Option Nat := roundRatio (Nat.pow 10 k) 1

/-- The rounded product of two magnitudes in units. -/
def mulUnits? (a b : Nat) : Option Nat := roundRatio (a * b) (unitsPerOne * unitsPerOne)

/-- The rounded quotient of two magnitudes in units, the second not zero. -/
def divUnits? (a b : Nat) : Option Nat := roundRatio a b

end Binary64

end ApiModel
