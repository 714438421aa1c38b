/-
  ApiModel.Text.Natural

  Reading a natural number in decimal: ASCII digits, at least one, after an optional plus sign, and
  a value below a given bound. Status codes, the leading digit of a status range, and the indices in
  document pointers are read this way.
-/

namespace ApiModel.Text

/-- The value of an ASCII digit. -/
def digitValue? (c : Char) : Option Nat :=
  if '0' ≤ c ∧ c ≤ '9' then some (c.toNat - '0'.toNat) else none

/-- The number that a run of digits writes. -/
def digitsValue? (cs : List Char) : Option Nat :=
  cs.foldl (fun acc c => do return 10 * (← acc) + (← digitValue? c)) (some 0)

/-- The natural number below `bound` that the characters write. -/
def natural? (bound : Nat) (cs : List Char) : Option Nat := do
  let digits := match cs with
    | '+' :: rest => rest
    | _ => cs
  if digits.isEmpty then none
  let n ← digitsValue? digits
  if n < bound then some n else none

/-- A natural number in decimal. -/
def decimal (n : Nat) : String := String.ofList (Nat.toDigits 10 n)

end ApiModel.Text
