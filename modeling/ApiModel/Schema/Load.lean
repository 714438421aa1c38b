/-
  ApiModel.Schema.Load

  Loading schemas from the document. A pointer is resolved first, and the schema it ends at is read
  once: the pointer asked for and the one found map to the same number from then on. The number is
  reserved before the children are read, so schemas that refer to themselves load like any other. A
  chain of loads inside each other reserves a new place of the document at every link, so the number
  of such places bounds it.
-/
import ApiModel.Document.Reference
import ApiModel.Schema.Session

namespace ApiModel.Session

open Document

/-! ## Reading keywords -/

/-- The binary64 value of a number under a key. -/
def number? (fields : List (String × Json)) (key : String) : Option Binary64 := do
  return (← (← fields.lookup key).number?).toBinary64

/-- The count under a key. -/
def count? (fields : List (String × Json)) (key : String) : Option Nat := do
  (← (← fields.lookup key).number?).toCount?

/-- The text under a key. -/
def text? (fields : List (String × Json)) (key : String) : Option String := do
  (← fields.lookup key).text?

/-- Whether true stands under a key. -/
def flag (fields : List (String × Json)) (key : String) : Bool :=
  ((fields.lookup key).bind Json.truth?).getD false

/-- The kinds that a list of words names. Every integer is also a number, so the number kind brings
    the integer kind along. -/
def kindsOf (place : Pointer) : List String → Except Fault KindSet
  | names => names.foldlM (fun set name =>
      match Kind.ofName? name with
      -- a set with the number kind always has the integer kind too
      | some .number => .ok ((set.insert .number).insert .integer)
      | some k => .ok (set.insert k)
      | none => .error (.unsupported place ("unknown type '" ++ name ++ "'"))) .empty

/-- The kinds that `type` allows, if it is given: one word or a list of words. -/
def readKinds (place : Pointer) (fields : List (String × Json)) :
    Except Fault (Option KindSet) :=
  match fields.lookup "type" with
  | none => .ok none
  | some (.str name) => some <$> kindsOf place [name]
  | some (.arr names) => some <$> kindsOf place (names.filterMap Json.text?)
  | some other => .error (.unsupported place ("invalid `type` " ++ other.write))

/-- The listed values: those of `enum`, or the one of `const`. -/
def readValues (fields : List (String × Json)) : Option (List Json) :=
  match fields.lookup "const" with
  | some constant => some [constant]
  | none => (fields.lookup "enum").bind Json.items?

/-- The numeric bounds. An exclusive bound is either a number of its own or a truth value that makes
    the inclusive one strict. -/
def readBounds (fields : List (String × Json)) (s : Schema) : Schema :=
  let minimum := number? fields "minimum"
  let maximum := number? fields "maximum"
  let strictMin := flag fields "exclusiveMinimum"
  let strictMax := flag fields "exclusiveMaximum"
  { s with
    -- at most one of the two is there: the keyword holds a truth value or a number
    gt := (if strictMin then minimum else none).or (number? fields "exclusiveMinimum")
    ge := if strictMin then none else minimum
    lt := (if strictMax then maximum else none).or (number? fields "exclusiveMaximum")
    le := if strictMax then none else maximum }

/-- The texts of the list under `required`. -/
def readRequired (fields : List (String × Json)) : SortedSet String :=
  .ofList ((((fields.lookup "required").bind Json.items?).getD []).filterMap Json.text?)

/-- The keywords of a schema object that do not concern other schemas. -/
def readKeywords (place : Pointer) (fields : List (String × Json)) : Except Fault Schema := do
  let kinds ← readKinds place fields
  return readBounds fields { Schema.blank place with
    kinds := kinds
    values := readValues fields
    multipleOf := number? fields "multipleOf"
    minLength := count? fields "minLength"
    maxLength := count? fields "maxLength"
    pattern := text? fields "pattern"
    format := text? fields "format"
    minItems := count? fields "minItems"
    maxItems := count? fields "maxItems"
    uniqueItems := flag fields "uniqueItems"
    required := readRequired fields
    minProperties := count? fields "minProperties"
    maxProperties := count? fields "maxProperties"
    readOnly := flag fields "readOnly"
    writeOnly := flag fields "writeOnly"
    deprecated := flag fields "deprecated"
    title := text? fields "title"
    description := text? fields "description"
    default := fields.lookup "default"
    nameHint := text? fields "x-name"
    classHint := text? fields "x-class-name" }

/-! ## Reading child schemas -/

/-- A way of loading the schema at a pointer. -/
abbrev Loader := Pointer → SessionWork SchemaId

/-- The schema of the items. -/
def loadItems (load : Loader) (place : Pointer) (fields : List (String × Json)) :
    SessionWork (Option SchemaId) :=
  match fields.lookup "items" with
  | none => return none
  | some (.arr _) => Work.fault (.unsupported place "tuple-style `items` arrays are not supported")
  | some _ => do return some (← load (place.push "items"))

/-- The schemas of the properties with these names. -/
def loadProperties (load : Loader) (base : Pointer) :
    List String → Dict String SchemaId → SessionWork (Dict String SchemaId)
  | [], read => return read
  | key :: keys, read => do
    let child ← load (base.push key)
    loadProperties load base keys (read.insert key child)

/-- The names of the declared properties, in document order. -/
def propertyNames (fields : List (String × Json)) : List String :=
  (((fields.lookup "properties").bind Json.fields?).getD []).map Prod.fst

/-- What holds for properties that are not named. -/
def loadExtras (load : Loader) (place : Pointer) (fields : List (String × Json)) :
    SessionWork (Option Extras) :=
  match fields.lookup "additionalProperties" with
  | none => return none
  | some (.bool yes) => return some (.allowed yes)
  | some _ => do return some (.matching (← load (place.push "additionalProperties")))

/-- The schemas of an array from an index on. -/
def loadFrom (load : Loader) (base : Pointer) : Nat → List Json → SessionWork (List SchemaId)
  | _, [] => return []
  | i, _ :: rest => do
    let member ← load (base.index i)
    return member :: (← loadFrom load base (i + 1) rest)

/-- The members of a combinator. -/
def loadMembers (load : Loader) (place : Pointer) (fields : List (String × Json))
    (keyword : String) : SessionWork (List SchemaId) :=
  match fields.lookup keyword with
  | none => return []
  | some (.arr members) => loadFrom load (place.push keyword) 0 members
  | some _ => Work.fault (.unsupported place ("`" ++ keyword ++ "` must be an array"))

/-- Store a schema that has not been asked for by pointer. -/
def push (s : Schema) : SessionWork SchemaId := do
  let id ← Work.view fun t => t.arena.next
  Work.modify fun t => { t with arena := t.arena.push s }
  return id

/-- A schema that allows null besides: null joins the kinds when they are given, and becomes an
    alternative when there are only combinators. -/
def allowNull (s : Schema) : SessionWork Schema :=
  match s.kinds with
  | some kinds => return { s with kinds := some (kinds.insert .null) }
  | none =>
    if s.hasCombinators then do
      -- the schema moves to a number of its own, and an alternative to it takes its place
      let inner ← push s
      let null ← push
        { Schema.blank (s.pointer.push "nullable") with kinds := some (.single .null) }
      return { Schema.blank s.pointer with anyOf := [inner, null] }
    else return s

/-- The schema that a value at a place is. -/
def readSchema (load : Loader) (place : Pointer) (v : Json) : SessionWork Schema :=
  match v with
  | .bool true => return Schema.blank place
  | .bool false => return { Schema.blank place with kinds := some .empty }
  | .obj fields => do
    -- the children are loaded in this order, which numbers them and decides the first fault
    let keywords ← Work.ofExcept (readKeywords place fields)
    let items ← loadItems load place fields
    let properties ←
      loadProperties load (place.push "properties") (propertyNames fields) .empty
    let extras ← loadExtras load place fields
    let allOf ← loadMembers load place fields "allOf"
    let anyOf ← loadMembers load place fields "anyOf"
    let oneOf ← loadMembers load place fields "oneOf"
    if (fields.lookup "not").isSome then warn (.unsupportedKeyword place "not")
    let s := { keywords with
      items := items, properties := properties, extras := extras,
      allOf := allOf, anyOf := anyOf, oneOf := oneOf }
    if flag fields "nullable" then allowNull s else return s
  | _ => Work.fault (.unsupported place "schema must be an object or a boolean")

/-! ## Loading -/

/-- Remember the number of the schema that a pointer leads to. -/
def remember (p : Pointer) (id : SchemaId) : SessionWork Unit :=
  Work.modify fun s => { s with loaded := s.loaded.insert p id }

/-- Load the schema at a pointer, with a way of loading its children. -/
def loadStep (document : Json) (load : Loader) : Loader := fun p => do
  match ← Work.view fun s => s.loaded.get? p with
  | some id => return id
  | none =>
    let (target, v) ← Work.ofExcept (resolve document p)
    match ← Work.view fun s => s.loaded.get? target with
    | some id =>
      -- a reference to what was loaded under its own pointer
      remember p id
      return id
    | none =>
      -- the number is reserved before the children are read: one of them may lead back here
      let id ← push (.blank target)
      remember target id
      remember p id
      let s ← readSchema load target v
      Work.modify fun t => { t with arena := t.arena.replace id s }
      return id

/-- Load the schema at a pointer with a supply of nested loads. -/
def loadWithin (document : Json) : Nat → Loader
  | 0, _ => Work.exhausted
  | calls + 1, p => loadStep document (loadWithin document calls) p

mutual

/-- The number of values in a document, itself included. -/
def valueCount : Json → Nat
  | .arr items => 1 + valueCountItems items
  | .obj fields => 1 + valueCountFields fields
  | _ => 1

/-- The number of values in the items. -/
def valueCountItems : List Json → Nat
  | [] => 0
  | v :: vs => valueCount v + valueCountItems vs

/-- The number of values in the fields. -/
def valueCountFields : List (String × Json) → Nat
  | [] => 0
  | (_, v) :: fs => valueCount v + valueCountFields fs

end

/-- How deeply loads can nest: every one but the last reserves a place of its own, at some value
    below the pointer first asked for or below the target of a reference. -/
def loadBound (document : Json) : Nat :=
  ((references document).length + 1) * valueCount document + 2

/-- Load the schema at a pointer; each pointer is loaded once. -/
def load (document : Json) : Loader := loadWithin document (loadBound document)

end ApiModel.Session
