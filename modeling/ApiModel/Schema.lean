/-
  ApiModel.Schema

  One schema: what it demands of a value, and what it says about itself. Child schemas are given by
  their numbers in an arena, so schemas may refer to each other in cycles. The pointer only names
  the schema; equality of demands (`sameDemands`) does not look at it, nor at titles and
  descriptions.
-/
import ApiModel.Kind
import ApiModel.Pointer
import ApiModel.SortedSet
import ApiModel.TypeExpr

namespace ApiModel

/-- The number of a schema in its arena. -/
abbrev SchemaId := Nat

/-- What holds for the properties that a schema does not name. -/
inductive Extras where
  /-- They are allowed, or they are not. -/
  | allowed (yes : Bool)
  /-- They have to match a schema. -/
  | matching (id : SchemaId)
  deriving DecidableEq

/-- One schema. -/
structure Schema where
  /-- Where the schema is written, or where it came about. -/
  pointer : Pointer
  /-- The kinds of values; any kind when not given. -/
  kinds : Option KindSet
  /-- The only values, when they are listed. -/
  values : Option (List Json)
  gt : Option Binary64
  ge : Option Binary64
  lt : Option Binary64
  le : Option Binary64
  multipleOf : Option Binary64
  minLength : Option Nat
  maxLength : Option Nat
  pattern : Option String
  format : Option String
  items : Option SchemaId
  minItems : Option Nat
  maxItems : Option Nat
  uniqueItems : Bool
  properties : Dict String SchemaId
  required : SortedSet String
  extras : Option Extras
  minProperties : Option Nat
  maxProperties : Option Nat
  allOf : List SchemaId
  anyOf : List SchemaId
  oneOf : List SchemaId
  readOnly : Bool
  writeOnly : Bool
  deprecated : Bool
  title : Option String
  description : Option String
  default : Option Json
  /-- The name that a field or parameter with this schema goes by. -/
  nameHint : Option String
  /-- The name of the class that comes of this schema. -/
  classHint : Option String

namespace Schema

/-- The schema at a place that demands nothing. -/
def blank (pointer : Pointer) : Schema where
  pointer := pointer
  kinds := none
  values := none
  gt := none
  ge := none
  lt := none
  le := none
  multipleOf := none
  minLength := none
  maxLength := none
  pattern := none
  format := none
  items := none
  minItems := none
  maxItems := none
  uniqueItems := false
  properties := .empty
  required := .empty
  extras := none
  minProperties := none
  maxProperties := none
  allOf := []
  anyOf := []
  oneOf := []
  readOnly := false
  writeOnly := false
  deprecated := false
  title := none
  description := none
  default := none
  nameHint := none
  classHint := none

instance : Inhabited Schema := ⟨blank .root⟩

/-! ## Schemas that match nothing -/

/-- A bound of an interval; a strict one is not part of it. -/
structure Bound where
  value : Binary64
  strict : Bool

/-- The tighter one of two lower bounds. -/
def lowerBound (gt ge : Option Binary64) : Option Bound :=
  match gt, ge with
  | some x, some y => some (if x.lt y then ⟨y, false⟩ else ⟨x, true⟩)
  | some x, none => some ⟨x, true⟩
  | none, some y => some ⟨y, false⟩
  | none, none => none

/-- The tighter one of two upper bounds. -/
def upperBound (lt le : Option Binary64) : Option Bound :=
  match lt, le with
  | some x, some y => some (if y.lt x then ⟨y, false⟩ else ⟨x, true⟩)
  | some x, none => some ⟨x, true⟩
  | none, some y => some ⟨y, false⟩
  | none, none => none

/-- Whether the numeric bounds of a schema of numbers leave no number. -/
def intervalEmpty (s : Schema) : Bool :=
  s.kinds.any KindSet.isNumeric &&
    match lowerBound s.gt s.ge, upperBound s.lt s.le with
    | some lo, some hi =>
      -- where the bounds meet, the one number between them is left only if both admit it
      hi.value.lt lo.value || (lo.value == hi.value && (lo.strict || hi.strict))
    | _, _ => false

/-- Whether the schema plainly matches nothing: no kind, no listed value, or no number left. -/
def isBottom (s : Schema) : Bool :=
  s.kinds.any KindSet.isEmpty || s.values.any List.isEmpty || s.intervalEmpty

/-! ## Equality of demands -/

/-- Equality of everything that restricts values, and of the access flags. -/
def sameDemands (a b : Schema) : Bool :=
  a.kinds == b.kinds && a.values == b.values && a.gt == b.gt && a.ge == b.ge && a.lt == b.lt &&
    a.le == b.le && a.multipleOf == b.multipleOf && a.minLength == b.minLength &&
    a.maxLength == b.maxLength && a.pattern == b.pattern && a.format == b.format &&
    a.items == b.items && a.minItems == b.minItems && a.maxItems == b.maxItems &&
    a.uniqueItems == b.uniqueItems && a.properties.sameEntries b.properties &&
    a.required == b.required && a.extras == b.extras && a.minProperties == b.minProperties &&
    a.maxProperties == b.maxProperties && a.allOf == b.allOf && a.anyOf == b.anyOf &&
    a.oneOf == b.oneOf && a.readOnly == b.readOnly && a.writeOnly == b.writeOnly

/-- Whether the schema matches every value: it has all kinds and at most access flags. -/
def isUnconstrained (s : Schema) : Bool :=
  s.kinds.all (· == .full) &&
    s.sameDemands { blank s.pointer with
      kinds := s.kinds, readOnly := s.readOnly, writeOnly := s.writeOnly }

/-! ## Combinators -/

/-- Whether the schema combines others. -/
def hasCombinators (s : Schema) : Bool :=
  !s.allOf.isEmpty || !s.anyOf.isEmpty || !s.oneOf.isEmpty

/-- The schema's own demands. -/
def withoutCombinators (s : Schema) : Schema := { s with allOf := [], anyOf := [], oneOf := [] }

/-- The members of all combinators. -/
def members (s : Schema) : List SchemaId := s.allOf ++ s.anyOf ++ s.oneOf

/-- The one member of the one combinator of a schema that otherwise at most narrows the kinds. -/
def soleChild? (s : Schema) : Option SchemaId :=
  -- one list has members, and it has one
  match [s.allOf, s.anyOf, s.oneOf].filter fun l => !l.isEmpty with
  | [[only]] =>
    if ({ s.withoutCombinators with kinds := none } : Schema).isUnconstrained then some only
    else none
  | _ => none

/-! ## Views for types -/

/-- The kinds to look at when a type is derived. Where all kinds are allowed, the keywords that are
    present decide: properties speak for objects, items for arrays, and so on. -/
def effectiveKinds (s : Schema) : KindSet :=
  let declared := s.kinds.getD .full
  if declared != .full then declared
  else
    -- no keyword speaks for integers, truth values or null
    let implied := KindSet.ofPred fun
      | .object => !s.properties.isEmpty || !s.required.isEmpty || s.extras.isSome ||
          s.minProperties.isSome || s.maxProperties.isSome
      | .array => s.items.isSome || s.minItems.isSome || s.maxItems.isSome
      | .string => s.minLength.isSome || s.maxLength.isSome || s.pattern.isSome || s.format.isSome
      | .number => s.gt.isSome || s.ge.isSome || s.lt.isSome || s.le.isSome || s.multipleOf.isSome
      | _ => false
    if implied.isEmpty then declared else implied

/-- The demands on a number. -/
def numericConstraints (s : Schema) : Constraints :=
  { Constraints.none with gt := s.gt, ge := s.ge, lt := s.lt, le := s.le, multipleOf := s.multipleOf }

/-- The demands on a text. -/
def stringConstraints (s : Schema) : Constraints :=
  { Constraints.none with minLength := s.minLength, maxLength := s.maxLength, pattern := s.pattern }

/-- The demands on an array. -/
def arrayConstraints (s : Schema) : Constraints :=
  { Constraints.none with
    minItems := s.minItems, maxItems := s.maxItems, uniqueItems := s.uniqueItems }

end Schema

end ApiModel
