/-
  ApiModel.Schema.Class

  The classes of object schemas. A normal form that admits objects, has properties and no
  alternatives gives a class with one field for every property that something matches. Starting from
  the types that are used, the classes of all normal forms that can be reached are registered, depth
  first.
-/
import ApiModel.Schema.Typing
import ApiModel.Schema.Load

namespace ApiModel.Session

/-! ## Fields -/

/-- The name that the field of a property goes by: the hint on its schema, when the schema is
    written at the property itself, and else its name on the wire. -/
def effectiveName (raw : Schema) (wireName : String) : String :=
  -- a hint on a schema that is referred to from here speaks for its own place
  let declaredHere :=
    raw.pointer.last? == some wireName && raw.pointer.parent.last? == some "properties"
  match raw.nameHint with
  | some hint => if declaredHere then hint else wireName
  | none => wireName

/-- The field of a property whose schema is `raw` and whose normal form is `form`. -/
def fieldOf (naming : Naming) (taken : List String) (wireName : String) (required : Bool)
    (type : TypeExpr) (raw form : Schema) : Client.Field where
  name := firstFree taken (numbered "_" (naming.fieldName (effectiveName raw wireName)))
  wireName := wireName
  type := if required then type else .optionalOf type
  required := required
  readOnly := raw.readOnly || form.readOnly
  writeOnly := raw.writeOnly || form.writeOnly
  description := raw.description.or form.description
  default := raw.default.or form.default

/-- The fields of the properties, in order; a property that nothing matches is left out with a
    warning. -/
def fieldsOf (calls : Nat) (naming : Naming) (required : SortedSet String) :
    List (String × SchemaId) → List Client.Field → SessionWork (List Client.Field)
  | [], done => return done
  | (wireName, child) :: rest, done => do
    match ← normalize calls child with
    | none =>
      -- the property cannot be there, so the class has no field for it
      warn (.bottomSchema (← schema child).pointer)
      fieldsOf calls naming required rest done
    | some form =>
      let type ← formType calls naming form
      let field := fieldOf naming (done.map Client.Field.name) wireName (required.contains wireName)
        type (← schema child) (← schema form)
      fieldsOf calls naming required rest (done ++ [field])

/-! ## Classes -/

/-- Whether a normal form gives a class. -/
def isClass (s : Schema) : Bool :=
  s.effectiveKinds.object && s.anyOf.isEmpty && !s.properties.isEmpty

/-- The class of a normal form, if it gives one. -/
def asType (calls : Nat) (naming : Naming) (id : SchemaId) : SessionWork (Option Client.Class) := do
  let s ← schema id
  if !isClass s then return none
  let name ← className naming id
  let fields ← fieldsOf calls naming s.required s.properties.entries []
  return some {
    name := name
    base := .model
    allowExtra := !Arena.isClosed s
    description := s.description
    fields := fields
    pointer := s.pointer }

/-- The schemas that the type of a normal form can refer to. -/
def children (s : Schema) : List SchemaId :=
  let extras := match s.extras with
    | some (.matching id) => [id]
    | _ => []
  s.items.toList ++ s.properties.values ++ extras ++ s.anyOf

/-- The normal forms of several schemas, without those that nothing matches. -/
def normalizeAll (calls : Nat) : List SchemaId → SessionWork (List SchemaId)
  | [] => return []
  | id :: ids => do
    let form ← normalize calls id
    return form.toList ++ (← normalizeAll calls ids)

/-- The normal forms that the type of a normal form can refer to. -/
def dependencies (calls : Nat) (id : SchemaId) : SessionWork (List SchemaId) := do
  normalizeAll calls (children (← schema id))

/-- Register a class, unless its name is registered already. -/
def registerNew (c : Client.Class) : SessionWork Unit :=
  Work.modify fun s => { s with classes := s.classes.insertIfNew c.name c }

/-- Register a class that has no schema of its own. -/
def register (c : Client.Class) : SessionWork Unit :=
  Work.modify fun s => { s with classes := s.classes.insert c.name c }

/-- Register the classes of everything that can be reached from a stack of normal forms, depth
    first, in at most so many steps. A normal form is marked before its class is worked out. -/
def collectWithin (calls : Nat) (naming : Naming) : Nat → List SchemaId → SessionWork Unit
  | _, [] => return ()
  | 0, _ :: _ => Work.exhausted
  | steps + 1, id :: stack => do
    if ← Work.view fun s => s.collected.contains id then
      collectWithin calls naming steps stack
    else
      Work.modify fun s => { s with collected := s.collected ++ [id] }
      if let some c ← asType calls naming id then registerNew c
      -- what it refers to comes before what is left of the stack
      let found ← dependencies calls id
      collectWithin calls naming steps (found ++ stack)

/-- Register the classes of everything that can be reached from some normal forms. -/
def collect (calls : Nat) (naming : Naming) (roots : List SchemaId) : SessionWork Unit :=
  collectWithin calls naming calls roots

/-- The type of the schema at a pointer, with every class that it reaches registered. -/
def typeAt (document : Json) (calls : Nat) (naming : Naming) (p : Pointer) (required : Bool) :
    SessionWork (Option TypeExpr) := do
  let id ← load document p
  let type ← positionType calls naming id required
  if let some form ← normalize calls id then collect calls naming [form]
  return type

/-- The classes registered so far, taken out of the session. -/
def takeClasses : SessionWork (List Client.Class) := do
  let classes ← Work.view fun s => s.classes.values
  Work.modify fun s => { s with classes := .empty }
  return classes

/-- The warnings recorded so far, taken out of the session. -/
def takeWarnings : SessionWork (List Warning) := do
  let warnings ← Work.view Session.warnings
  Work.modify fun s => { s with warnings := [] }
  return warnings

end ApiModel.Session
