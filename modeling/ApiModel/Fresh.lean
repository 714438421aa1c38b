/-
  ApiModel.Fresh

  Names that are not taken yet. A name has a first choice and numbered alternatives; the first of
  them that is free is used. One alternative more than there are taken names is always enough,
  provided that they differ from each other.
-/

namespace ApiModel

variable {α : Type} [DecidableEq α]

/-- The first of the choices `choice 0`, `choice 1`, … that is not taken. -/
def firstFree (taken : List α) (choice : Nat → α) : α :=
  -- one of these choices is free, so the fallback is never taken
  choice (((List.range (taken.length + 1)).find? fun k => choice k ∉ taken).getD 0)

/-- The choices for a base name: the name itself, then with 2, 3, … after it. -/
def numbered (mark : String) (base : String) : Nat → String
  | 0 => base
  | k + 1 => base ++ mark ++ String.ofList (Nat.toDigits 10 (k + 2))

end ApiModel
