/-
  ApiModel.Binary64.Shortest

  The shortest decimal of a binary64 magnitude: the fewest digits that still lie nearer to it than
  to any other representable magnitude. For one digit, two digits, and so on, the two decimals of
  that length around the value are tried; the first length with a hit wins, of two hits the nearer,
  and a tie between them is for the caller to break. All of it is exact arithmetic on naturals.
-/
import ApiModel.Binary64

namespace ApiModel.Binary64

/-- Which of two equally near decimals is written. -/
inductive Tie where
  /-- The larger one. -/
  | up
  /-- The one whose last digit is even. -/
  | even
  deriving DecidableEq

/-- A positive decimal `0.d₁d₂… · 10^point` whose digits neither start nor end with zero. -/
structure Decimal where
  digits : List Char
  point : Int
  deriving DecidableEq

/-- `digits · 10^scale` with trailing zeros dropped. -/
def Decimal.ofScaled (n : Nat) (scale : Int) : Decimal :=
  let ds := (Nat.toDigits 10 n)
  ⟨(ds.reverse.dropWhile (· == '0')).reverse, scale + ds.length⟩

/-- The exponent of the leading digit. -/
def Decimal.exponent (d : Decimal) : Int := d.point - 1

/-- The exponent of the leading decimal digit of `n` units, `n` positive. -/
def leadingExponent (n : Nat) : Int :=
  ((Nat.toDigits 10 (n * Nat.pow 10 400 / unitsPerOne)).length : Int) - 401

/-- `x · 10^scale` as a fraction of naturals. -/
def scaleTen (x : Nat) (scale : Int) : Nat × Nat :=
  if 0 ≤ scale then (x * Nat.pow 10 scale.toNat, 1) else (x, Nat.pow 10 (-scale).toNat)

/-- Whether `c · 10^scale` rounds to `n` units: it lies between the two half-way points, which count
    when `n` is an even multiple of its gap. -/
def readsBack (n : Nat) (c : Nat) (scale : Int) : Bool :=
  let (num, den) := scaleTen c scale
  -- everything in half units, so that the half-way points are whole
  let x := num * unitsPerOne * 2
  let low := (2 * n - gapBelow n) * den
  let high := (2 * n + gapAbove n) * den
  if (n / gapAbove n) % 2 == 0 then low ≤ x && x ≤ high else low < x && x < high

/-- The decimal of at most `count` digits that reads back as `n` units, if there is one. -/
def shortestOf (tie : Tie) (n : Nat) (leading : Int) (count : Nat) : Option Decimal :=
  let scale := leading - (count : Int) + 1
  let (up, down) :=
    if 0 ≤ scale then (1, Nat.pow 10 scale.toNat) else (Nat.pow 10 (-scale).toNat, 1)
  -- the value on this grid is `num / den`
  let num := n * up
  let den := unitsPerOne * down
  let c := num / den
  let r := num % den
  -- a value on the grid needs no neighbour
  if r == 0 then some (.ofScaled c scale)
  else
    match readsBack n c scale && c != 0, readsBack n (c + 1) scale with
    | false, false => none
    | true, false => some (.ofScaled c scale)
    | false, true => some (.ofScaled (c + 1) scale)
    | true, true =>
      let upper := if 2 * r == den then tie == .up || c % 2 == 1 else den < 2 * r
      some (.ofScaled (if upper then c + 1 else c) scale)

/-- The shortest decimal that reads back as `n` units, `n` positive. Seventeen digits always
    suffice. -/
def shortest (tie : Tie) (n : Nat) : Decimal :=
  let leading := leadingExponent n
  ((List.range 18).findSome? fun k => shortestOf tie n leading (k + 1)).getD ⟨['0'], 1⟩

end ApiModel.Binary64
