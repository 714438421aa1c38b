/-
  ApiModel.Json.Token

  Number tokens and what they denote. The lexical form is JSON's; the value depends on the rules a
  text is read under. JSON rules take the digits as an integer of at most 64 bits with a decimal
  exponent and round twice: once for the digits and once for the power of ten. YAML rules round
  once, refuse integers between 64 and 128 bits, and take a token beyond every number as a text.
-/
import ApiModel.Json
import ApiModel.Text.Natural

namespace ApiModel

/-- What keeps a text from being a document. -/
inductive Malformed where
  /-- The text ends too early. -/
  | unfinished
  /-- A character that cannot stand where it stands. -/
  | unexpected (c : Char)
  /-- An escape that names half of a surrogate pair. -/
  | loneSurrogate
  /-- A number that no value can hold. -/
  | numberRange
  /-- Containers nested too deeply. -/
  | tooDeep
  /-- A key whose colon is too far away. -/
  | keyOutOfReach
  /-- Something follows the value. -/
  | trailing (c : Char)
  deriving DecidableEq

namespace Json

/-- A number token: digits before the point, digits after it, and the exponent. -/
structure NumberToken where
  negative : Bool
  whole : List Char
  fraction : Option (List Char)
  exponent : Option (Bool × List Char)

/-- The digits at the start of a text, and the rest. -/
def spanDigits (cs : List Char) : List Char × List Char := cs.span Char.isDigit

/-- At least one digit, and the rest. -/
def digits1 (cs : List Char) : Except Malformed (List Char × List Char) :=
  match spanDigits cs with
  | ([], []) => .error .unfinished
  | ([], c :: _) => .error (.unexpected c)
  | found => .ok found

/-- The digits before the point: a zero alone, or digits that start with none. -/
def readWhole (cs : List Char) : Except Malformed (List Char × List Char) := do
  let (ds, rest) ← digits1 cs
  match ds with
  | '0' :: d :: _ => .error (.unexpected d)
  | _ => .ok (ds, rest)

/-- The point and the digits after it. -/
def readFraction : List Char → Except Malformed (Option (List Char) × List Char)
  | '.' :: rest => do
    let (ds, rest) ← digits1 rest
    .ok (some ds, rest)
  | cs => .ok (none, cs)

/-- The exponent: whether it is negative, and its digits. -/
def readExponent : List Char → Except Malformed (Option (Bool × List Char) × List Char)
  | c :: rest =>
    if c == 'e' || c == 'E' then do
      let (negative, rest) := match rest with
        | '-' :: r => (true, r)
        | '+' :: r => (false, r)
        | r => (false, r)
      let (ds, rest) ← digits1 rest
      .ok (some (negative, ds), rest)
    else .ok (none, c :: rest)
  | [] => .ok (none, [])

/-- The number token at the start of a text, and the rest. -/
def readNumberToken (cs : List Char) : Except Malformed (NumberToken × List Char) := do
  let (negative, cs) := match cs with
    | '-' :: rest => (true, rest)
    | _ => (false, cs)
  let (whole, cs) ← readWhole cs
  let (fraction, cs) ← readFraction cs
  let (exponent, cs) ← readExponent cs
  .ok (⟨negative, whole, fraction, exponent⟩, cs)

/-- The value of a run of digits. -/
def digitsNat (ds : List Char) : Nat := (Text.digitsValue? ds).getD 0

/-- The first value that no longer fits 64 bits. -/
def word : Nat := Nat.pow 2 64

/-! ## JSON rules -/

/-- Digits taken into a 64-bit significand while it lasts, and the digits left over. -/
def takeDigits (significand : Nat) : List Char → Nat × List Char
  | [] => (significand, [])
  | c :: rest =>
    let next := 10 * significand + digitsNat [c]
    if next < word then takeDigits next rest else (significand, c :: rest)

/-- A magnitude of `units` divided by `10^308` until at most 308 tens remain, and then by those.
    Nothing is left after two of the large steps, so four are never used up. -/
def divideByTens : Nat → Nat → Nat → Nat
  | 0, _, _ => 0
  | steps + 1, units, tens =>
    if tens ≤ 308 then
      (do Binary64.divUnits? units (← Binary64.tenPow? tens)).getD 0
    else
      divideByTens steps ((do Binary64.divUnits? units (← Binary64.tenPow? 308)).getD 0) (tens - 308)

/-- `significand · 10^exponent`, the significand rounded first and the product after it. -/
def scaled (negative : Bool) (significand : Nat) (exponent : Int) : Except Malformed Json := do
  let some units := Binary64.roundRatio significand 1 | .error .numberRange
  if exponent < 0 then
    .ok (.ofBinary64 ⟨negative, divideByTens 4 units exponent.natAbs⟩)
  -- no power of ten moves zero
  else if units == 0 then .ok (.ofBinary64 ⟨negative, 0⟩)
  else if 308 < exponent then .error .numberRange
  else
    match (do Binary64.mulUnits? units (← Binary64.tenPow? exponent.toNat)) with
    | some u => .ok (.ofBinary64 ⟨negative, u⟩)
    | none => .error .numberRange

/-- The largest exponent that is looked at: one that is larger makes the number zero or too large.
    -/
def largestExponent : Nat := Nat.pow 2 31 - 1

/-- The value of a number token under JSON rules. -/
def NumberToken.jsonValue (t : NumberToken) : Except Malformed Json := do
  let (whole, left) := takeDigits 0 t.whole
  if t.fraction.isNone && t.exponent.isNone && left.isEmpty then
    if !t.negative then .ok (.ofNat whole)
    -- negative zero, and what lies below the least integer, are binary64 numbers
    else if whole == 0 || Nat.pow 2 63 < whole then scaled true whole 0
    else .ok (.ofInt (-(whole : Int)))
  else
    -- digits that the significand has no room for only move the point
    let (significand, unread) := takeDigits whole (t.fraction.getD [])
    let taken := (t.fraction.getD []).length - unread.length
    let exponent : Int := (left.length : Int) - taken
    match t.exponent with
    | none => scaled t.negative significand exponent
    | some (negative, ds) =>
      let e := digitsNat ds
      -- so large an exponent decides alone, whatever the digits before it
      if largestExponent < e then
        if significand != 0 && !negative then .error .numberRange
        else .ok (.ofBinary64 ⟨t.negative, 0⟩)
      else scaled t.negative significand (if negative then exponent - e else exponent + e)

/-! ## YAML rules -/

/-- The nearest binary64 number to a token; none when it is too large. -/
def NumberToken.nearest? (t : NumberToken) : Option Binary64 :=
  let fraction := t.fraction.getD []
  let significand := digitsNat (t.whole ++ fraction)
  let exponent : Int := match t.exponent with
    | none => 0
    | some (true, ds) => -(digitsNat ds : Int)
    | some (false, ds) => digitsNat ds
  let scale := exponent - fraction.length
  let units :=
    -- scales out of every proportion are settled without the powers of ten
    if significand == 0 || scale < -100000 then some 0
    else if 100000 < scale then none
    else if 0 ≤ scale then Binary64.roundRatio (significand * Nat.pow 10 scale.toNat) 1
    else Binary64.roundRatio significand (Nat.pow 10 (-scale).toNat)
  units.map fun u => ⟨t.negative, u⟩

/-- The value of a number token under YAML rules; `text` is the token itself. -/
def NumberToken.yamlValue (t : NumberToken) (text : String) : Except Malformed Json :=
  let float := match t.nearest? with
    | some x => .ok (.ofBinary64 x)
    | none => .ok (.str text)
  if t.fraction.isSome || t.exponent.isSome then float
  else
    let n := digitsNat t.whole
    if t.negative then
      if n ≤ Nat.pow 2 63 then .ok (.ofInt (-(n : Int)))
      else if n ≤ Nat.pow 2 127 then .error .numberRange
      else float
    else if n < word then .ok (.ofNat n)
    else if n < Nat.pow 2 128 then .error .numberRange
    else float

end Json

end ApiModel
