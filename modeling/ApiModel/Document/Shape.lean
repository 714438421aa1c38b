/-
  ApiModel.Document.Shape

  Reading document values into typed records. A record is read from an object, in whatever order its
  keys come, or from an array that gives the fields in their declared order. The first fault is the
  one reported: of ill-typed fields the one whose key comes first in the object, and only when none
  is ill-typed the first required field that is missing, in declared order. Fields are combined
  applicatively, so a record type's reader is its constructor applied to its fields.
-/
import ApiModel.Fault
import ApiModel.Json.Writer
import ApiModel.Text.Quoted

namespace ApiModel.Document

/-- What an ill-formed value lacks. -/
inductive Mismatch where
  /-- A required field is missing. -/
  | missing (field : String)
  /-- A value of another type than expected. -/
  | wrongType (found : Json) (expected : String)
  /-- An array with too few items for the record. -/
  | tooShort (length : Nat) (record : String) (fields : Nat)
  /-- An array with more items than the record has fields. -/
  | tooLong (length : Nat)
  /-- Neither a reference nor the object itself. -/
  | neither

namespace Mismatch

/-- A value as messages about its type name it. -/
def describe : Json → String
  | .null => "null"
  | .bool b => "boolean `" ++ (if b then "true" else "false") ++ "`"
  | .num (.int n) => "integer `" ++ Json.writeNumber (.int n) ++ "`"
  | .num (.float x) => "floating point `" ++ Json.writeNumber (.float x) ++ "`"
  | .str s => "string " ++ Text.quoted s
  | .arr _ => "sequence"
  | .obj _ => "map"

/-- The wording of a mismatch. -/
def message : Mismatch → String
  | missing field => "missing field `" ++ field ++ "`"
  | wrongType found expected => "invalid type: " ++ describe found ++ ", expected " ++ expected
  | tooShort length record fields =>
    "invalid length " ++ Text.decimal length ++ ", expected struct " ++ record ++ " with " ++
      Text.decimal fields ++ (if fields == 1 then " element" else " elements")
  | tooLong length =>
    "invalid length " ++ Text.decimal length ++ ", expected fewer elements in array"
  | neither => "data did not match any variant of untagged enum ReferenceOr"

end Mismatch

/-- A reader of typed values. -/
abbrev Shape (α : Type) := Json → Except Mismatch α

namespace Shape

/-- A text. -/
def text : Shape String
  | .str s => .ok s
  | v => .error (.wrongType v "a string")

/-- A truth value. -/
def truth : Shape Bool
  | .bool b => .ok b
  | v => .error (.wrongType v "a boolean")

/-- Any value. -/
def anything : Shape Json := .ok

/-- A value, or null for none. -/
def nullable {α : Type} (s : Shape α) : Shape (Option α)
  | .null => .ok none
  | v => do return some (← s v)

/-- An array whose items share one shape. -/
def listOf {α : Type} (s : Shape α) : Shape (List α)
  | .arr items => items.mapM s
  | v => .error (.wrongType v "a sequence")

/-- An object whose values share one shape, in document order. -/
def dictOf {α : Type} (s : Shape α) : Shape (Dict String α)
  | .obj fields => do return ⟨← fields.mapM fun (k, v) => do return (k, ← s v)⟩
  | v => .error (.wrongType v "a map")

end Shape

/-! ## Records -/

/-- The faults of a record read from an object: ill-typed fields with the places of their keys, and
    required fields that are missing. -/
structure Faults where
  illTyped : List (Nat × Mismatch)
  absent : List String

namespace Faults

/-- The faults of two parts of a record. -/
def append (a b : Faults) : Faults := ⟨a.illTyped ++ b.illTyped, a.absent ++ b.absent⟩

/-- The ill-typed field whose key comes first. -/
def earliest : List (Nat × Mismatch) → Option (Nat × Mismatch)
  | [] => none
  | f :: rest =>
    match earliest rest with
    | none => some f
    | some g => if g.1 < f.1 then some g else some f

/-- The fault that is reported. -/
def first (f : Faults) : Mismatch :=
  match earliest f.illTyped with
  | some (_, m) => m
  | none => .missing (f.absent.headD "")

end Faults

/-- Why the items of an array give no record. -/
inductive ItemFault where
  /-- The items end before a required field. -/
  | short
  | illTyped (m : Mismatch)

/-- A reader of some of the fields of a record. -/
structure Fields (α : Type) where
  /-- How many fields it reads. -/
  count : Nat
  /-- Reading them from an object. -/
  ofObject : List (String × Json) → Except Faults α
  /-- Reading them from the items that are left of an array. -/
  ofItems : List Json → Except ItemFault (α × List Json)

namespace Fields

/-- No field. -/
def none {α : Type} (a : α) : Fields α := ⟨0, fun _ => .ok a, fun items => .ok (a, items)⟩

/-- The fields of one reader and then those of another. -/
def both {α β γ : Type} (f : α → β → γ) (x : Fields α) (y : Fields β) : Fields γ where
  count := x.count + y.count
  ofObject fields :=
    -- both parts are read, so that the earliest fault of the whole is known
    match x.ofObject fields, y.ofObject fields with
    | .ok a, .ok b => .ok (f a b)
    | .error e, .ok _ => .error e
    | .ok _, .error e => .error e
    | .error e, .error e' => .error (e.append e')
  ofItems items := do
    let (a, items) ← x.ofItems items
    let (b, items) ← y.ofItems items
    return (f a b, items)

instance : Functor Fields where
  map f x := both (fun a (_ : Unit) => f a) x (none ())

instance : Seq Fields where
  seq f x := both (fun g a => g a) f (x ())

/-- The place and the value of a key of an object. -/
def find (name : String) : Nat → List (String × Json) → Option (Nat × Json)
  | _, [] => Option.none
  | i, (k, v) :: rest => if k == name then some (i, v) else find name (i + 1) rest

/-- One field. `missing` is its value when it is not given, if it has one. -/
def field {α : Type} (name : String) (shape : Shape α) (missing : Option α) : Fields α where
  count := 1
  ofObject fields :=
    match find name 0 fields, missing with
    | some (i, v), _ => (shape v).mapError fun m => ⟨[(i, m)], []⟩
    | .none, some a => .ok a
    | .none, .none => .error ⟨[], [name]⟩
  ofItems
    | v :: rest => do return (← (shape v).mapError .illTyped, rest)
    | [] =>
      match missing with
      | some a => .ok (a, [])
      | .none => .error .short

/-- A field that has to be given. -/
def mandatory {α : Type} (name : String) (shape : Shape α) : Fields α := field name shape .none

/-- A field that may be missing and then has a given value. -/
def withDefault {α : Type} (name : String) (shape : Shape α) (value : α) : Fields α :=
  field name shape (some value)

/-- A field that may be missing or null. -/
def optional {α : Type} (name : String) (shape : Shape α) : Fields (Option α) :=
  field name (.nullable shape) (some .none)

/-- The record of the given name with these fields. -/
def record {α : Type} (name : String) (fields : Fields α) : Shape α
  | .obj entries => (fields.ofObject entries).mapError Faults.first
  | .arr items =>
    match fields.ofItems items with
    | .ok (a, []) => .ok a
    | .ok (_, _ :: _) => .error (.tooLong items.length)
    | .error .short => .error (.tooShort items.length name fields.count)
    -- an array is read from its start: its first fault is the one reported
    | .error (.illTyped m) => .error m
  | v => .error (.wrongType v ("struct " ++ name))

end Fields

end ApiModel.Document
