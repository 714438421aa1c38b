/-
  ApiModel.Schema.Typing

  The types of schemas. A normal form with alternatives is the union of their types; one with listed
  values is a literal; otherwise every kind that it admits gives one member. An object with
  properties becomes a class and is referred to by name, which is where recursion is cut; a list or
  a map that contains itself with no class in between has no type. Class names are given out once
  per schema.
-/
import ApiModel.Fresh
import ApiModel.Naming
import ApiModel.Schema.Session

namespace ApiModel.Session

/-! ## Class names -/

/-- Whether a segment contributes nothing to a derived name: it is a keyword of its container, or
    the name of a media type. -/
def isSilent (previous : Option String) (segment : String) : Bool :=
  segment == "content" || segment == "properties" || segment == "schema" ||
    previous == some "content"

/-- The words of the segments that contribute to a derived name. -/
def derivedWords : Option String → List String → List (List Char)
  | _, [] => []
  | previous, segment :: rest =>
    let here :=
      if isSilent previous segment then []
      else Text.pieces (fun c => !Identifier.isWordChar c) segment.toList
    here ++ derivedWords (some segment) rest

/-- An ASCII word with its first letter in upper case. -/
def capitalizeWord : List Char → List Char
  | [] => []
  | c :: rest => c.toUpper :: rest

/-- The name that a class takes from where its schema stands: the words of the segments,
    capitalised. -/
def derivedName (segments : List String) : String :=
  match (derivedWords none segments).filter fun w => !w.isEmpty with
  | [] => "Model"
  | words => String.ofList (words.flatMap capitalizeWord)

/-- How many leading segments are the module of a class: two below the components, one elsewhere,
    and never the last segment. -/
def moduleLength (segments : List String) : Nat :=
  let wanted := match segments with
    | [] => 0
    | first :: _ => if first == "components" then 2 else 1
  min wanted (segments.length - 1)

/-- Give out a class name in a module that has not been given out before. -/
def allocateName (naming : Naming) (module : List String) (base : String) :
    SessionWork TypeName := do
  let path := module.map naming.moduleName
  let identifier := naming.className base
  let taken ← Work.view Session.takenNames
  let name := firstFree taken fun k => ⟨path, numbered "" identifier k⟩
  Work.modify fun s => { s with takenNames := s.takenNames ++ [name] }
  return name

/-- The name of the class of a normal form, given out once: by its own hint, a suggestion for its
    place, or derived from its place. -/
def className (naming : Naming) (id : SchemaId) : SessionWork TypeName := do
  match ← Work.view fun s => s.classNames.get? id with
  | some name => return name
  | none =>
    let s ← schema id
    let suggestion ← Work.view fun t => t.suggestions.get? s.pointer
    let segments := s.pointer.segments
    -- the module takes the first segments, the name is made of the others
    let cut := moduleLength segments
    let base := (s.classHint.or suggestion).getD (derivedName (segments.drop cut))
    let name ← allocateName naming (segments.take cut) base
    Work.modify fun t => { t with classNames := t.classNames.insert id name }
    return name

/-! ## Types -/

/-- The scalar type of texts of a format. -/
def textScalar : Option String → ScalarKind
  | some "uuid" => .uuid
  | some "date" => .date
  | some "date-time" => .dateTime
  | some "time" => .time
  | some "decimal" => .decimal
  | some "binary" | some "byte" => .bytes
  | _ => .string

/-- A way of working out the type of a normal form. -/
abbrev Typer := SchemaId → SessionWork TypeExpr

/-- The types of several normal forms. -/
def formTypes (typer : Typer) : List SchemaId → SessionWork (List TypeExpr)
  | [] => return []
  | id :: ids => do
    let t ← typer id
    return t :: (← formTypes typer ids)

/-- The type of listed values: the literals other than null, and null where it is admitted. -/
def listedType (kinds : KindSet) (values : List Json) : TypeExpr :=
  let literals := values.filter fun v => !v.isNull
  .unionOf ((if literals.isEmpty then [] else [.literal literals]) ++
    (if kinds.null || values.any Json.isNull then [.null] else []))

/-- The type of the objects that a schema admits. -/
def objectType (calls : Nat) (naming : Naming) (typer : Typer) (id : SchemaId)
    (s : Schema) : SessionWork TypeExpr := do
  -- a class is referred to, not opened: recursion through properties ends here
  if !s.properties.isEmpty then return .named (← className naming id)
  match s.extras with
  | some (.matching values) =>
    match ← normalize calls values with
    | some form => return .map (← typer form)
    | none => return .anyObject
  | _ => return .anyObject

/-- The type of the arrays that a schema admits. -/
def arrayType (calls : Nat) (typer : Typer) (s : Schema) : SessionWork TypeExpr := do
  let items : TypeExpr ← match s.items with
    | none => pure .any
    | some items =>
      match ← normalize calls items with
      | some form => typer form
      -- only the empty array is left
      | none => do
        warn (.bottomSchema (← schema items).pointer)
        pure .any
  return .list items s.arrayConstraints

/-- The type of the values of one kind that a schema admits; none where another kind says it
    already. -/
def kindType (calls : Nat) (naming : Naming) (typer : Typer) (id : SchemaId) (s : Schema)
    (kinds : KindSet) : Kind → SessionWork (Option TypeExpr)
  | .object => do return some (← objectType calls naming typer id s)
  | .array => do return some (← arrayType calls typer s)
  | .string => return some (.scalar (textScalar s.format) s.stringConstraints)
  | .number => return some (.scalar .number s.numericConstraints)
  -- numbers admit every integer already
  | .integer => return if kinds.number then none else some (.scalar .integer s.numericConstraints)
  | .boolean => return some (.bare .boolean)
  | .null => return some .null

/-- The types of the values of several kinds. -/
def kindTypes (calls : Nat) (naming : Naming) (typer : Typer) (id : SchemaId) (s : Schema)
    (kinds : KindSet) : List Kind → SessionWork (List TypeExpr)
  | [] => return []
  | k :: ks => do
    let t ← kindType calls naming typer id s kinds k
    return t.toList ++ (← kindTypes calls naming typer id s kinds ks)

/-- The type of a normal form, worked out afresh. -/
def freshType (calls : Nat) (naming : Naming) (typer : Typer) (id : SchemaId) :
    SessionWork TypeExpr := do
  let s ← schema id
  if s.isUnconstrained then return .any
  if !s.anyOf.isEmpty then return .unionOf (← formTypes typer s.anyOf)
  -- listed values say more than the kinds they are of
  let kinds := s.effectiveKinds
  match s.values with
  | some values => return listedType kinds values
  | none => return .unionOf (← kindTypes calls naming typer id s kinds kinds.toList)

/-- What a session holds after a type has been worked out: the type, unless that failed. -/
def settleType (id : SchemaId) (outcome : Except Failure TypeExpr) (s : Session) : Session :=
  let s := { s with typing := s.typing.dropLast }
  match outcome with
  | .ok t => { s with types := s.types.insert id t }
  | .error _ => s

/-- The type of a normal form, by way of the memo. -/
def formTypeStep (calls : Nat) (naming : Naming) (typer : Typer) : Typer := fun id => do
  match ← Work.view fun s => s.types.get? id with
  | some t => return t
  | none =>
    -- a list or a map that contains itself with no class in between has no finite type
    let path ← Work.view Session.typing
    if path.contains id then
      Work.fault (.referenceCycle (← Work.view fun s => s.arena.cycleTrail path id))
    else
      Work.modify fun s => { s with typing := s.typing ++ [id] }
      Work.thenAlways (freshType calls naming typer id) (settleType id)

/-- The type of a normal form with a supply of nested calls; `calls` is the supply of each
    normalization on the way. -/
def formTypeWithin (calls : Nat) (naming : Naming) : Nat → Typer
  | 0, _ => Work.exhausted
  | n + 1, id => formTypeStep calls naming (formTypeWithin calls naming n) id

/-- The type of a normal form. -/
def formType (calls : Nat) (naming : Naming) : Typer := formTypeWithin calls naming calls

/-- The type that a schema has at a value position: none when nothing matches, and optional when the
    position may be left empty. -/
def positionType (calls : Nat) (naming : Naming) (id : SchemaId) (required : Bool) :
    SessionWork (Option TypeExpr) := do
  let some form ← normalize calls id | return none
  let t ← formType calls naming form
  return some (if required then t else .optionalOf t)

end ApiModel.Session
