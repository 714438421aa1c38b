/-
  ApiModel.Binary64.Layout

  How a binary64 number is written. The digits are always the shortest ones; a layout says which
  exponents are written positionally, whether a whole number keeps a zero after its point, whether a
  positive exponent has its sign, and how a tie between two shortest decimals goes. Three layouts
  are in use: rendered types, conflict messages, and JSON text.
-/
import ApiModel.Binary64.Shortest

namespace ApiModel.Binary64

/-- The decisions of one way of writing numbers. -/
structure Layout where
  /-- How a tie between two shortest decimals goes. -/
  tie : Tie
  /-- The least exponent written positionally, if there is a bound. -/
  lowest : Option Int
  /-- The first exponent above those written positionally, if there is a bound. -/
  highest : Option Int
  /-- A whole number is written with `.0`. -/
  pointZero : Bool
  /-- A positive exponent is written with its sign. -/
  signedExponent : Bool

/-- Numbers in rendered types: always positional, a whole number bare. -/
def Layout.plain : Layout := ⟨.up, none, none, false, false⟩

/-- Numbers in conflict messages: positional from 10^-4 to below 10^16, a whole number with its
    zero. -/
def Layout.exact : Layout := ⟨.up, some (-4), some 16, true, false⟩

/-- Numbers in JSON text and in messages about ill-typed values: positional from 10^-5 to below
    10^16, a whole number with its zero and a positive exponent with its sign. -/
def Layout.json : Layout := ⟨.even, some (-5), some 16, true, true⟩

/-- Digits with the point in its place. -/
def Decimal.positional (d : Decimal) (pointZero : Bool) : List Char :=
  let n : Int := d.digits.length
  if d.point ≤ 0 then '0' :: '.' :: (List.replicate (-d.point).toNat '0' ++ d.digits)
  else if n ≤ d.point then
    d.digits ++ List.replicate (d.point - n).toNat '0' ++ (if pointZero then ['.', '0'] else [])
  else d.digits.take d.point.toNat ++ '.' :: d.digits.drop d.point.toNat

/-- Digits with one place before the point and an exponent. -/
def Decimal.scientific (d : Decimal) (signed : Bool) : List Char :=
  let mantissa := match d.digits with
    | [] => []
    | [c] => [c]
    | c :: rest => c :: '.' :: rest
  let sign := if d.exponent < 0 then ['-'] else if signed then ['+'] else []
  mantissa ++ 'e' :: sign ++ Nat.toDigits 10 d.exponent.natAbs

/-- The text of a number in a layout. -/
def render (layout : Layout) (x : Binary64) : String :=
  let sign := if x.negative then ['-'] else []
  let body :=
    if x.units == 0 then if layout.pointZero then ['0', '.', '0'] else ['0']
    else
      let d := shortest layout.tie x.units
      -- the exponent of the shortest digits decides, not that of the number itself
      let tooSmall := layout.lowest.any fun e => d.exponent < e
      let tooLarge := layout.highest.any fun e => e ≤ d.exponent
      if tooSmall || tooLarge then d.scientific layout.signedExponent
      else d.positional layout.pointZero
  String.ofList (sign ++ body)

end ApiModel.Binary64
