/-
  ApiModel.Schema.NormalForm

  Normal forms and conjunctions. A normal form has no `allOf` and no `oneOf`: the members of `allOf`
  are conjoined into it, those of `oneOf` are alternatives like those of `anyOf`, and every
  alternative carries the schema's own demands. A conjunction combines the demands of two normal
  forms keyword by keyword. The two are one recursion over tasks, written openly: `Arena.step` does
  the work of one task and hands the tasks that come up to a solver, and `Arena.solve` closes the
  recursion with a supply of nested calls. Nothing here looks at the document.
-/
import ApiModel.Schema.Arena

namespace ApiModel

/-- What there is to work out on an arena. -/
inductive Task where
  /-- The normal form of a schema. -/
  | normalize (id : SchemaId)
  /-- The conjunction of two schemas; a new schema is located at the given place. -/
  | conjoin (a b : SchemaId) (place : Pointer)

/-- A way of working out tasks. The answer is a normal form, or none when nothing matches. -/
abbrev Solver := Task → ArenaWork (Option SchemaId)

namespace Arena

/-! ## Storing schemas -/

/-- The schema with only those listed values that are of its kinds. -/
def trimValues (s : Schema) : Schema :=
  match s.values, s.kinds with
  | some values, some kinds => { s with values := some (values.filter kinds.accepts) }
  | _, _ => s

/-- Store a schema that is in normal form; one that matches nothing is not stored. -/
def store (s : Schema) : ArenaWork (Option SchemaId) := do
  -- trimming comes first: without any value left the schema matches nothing
  let s := trimValues s
  if s.isBottom then return none
  let id ← Work.view next
  Work.modify fun a =>
    { a.push s with progress := a.progress.insert id (.done (some id)) }
  return some id

/-! ## Combining keywords -/

/-- The larger of two bounds; the first of two equal ones. -/
def larger {α : Type} (lt : α → α → Bool) : Option α → Option α → Option α
  | some x, some y => some (if lt x y then y else x)
  | x, y => x.or y

/-- The smaller of two bounds; the first of two equal ones. -/
def smaller {α : Type} (lt : α → α → Bool) : Option α → Option α → Option α
  | some x, some y => some (if lt y x then y else x)
  | x, y => x.or y

/-- The order of counts. -/
def countLt (m n : Nat) : Bool := m < n

/-- The value of a keyword that cannot be combined: both sides agree, or only one has it. -/
def agreed {α : Type} [BEq α] (place : Pointer) (keyword : String) (text : α → String)
    (x y : Option α) : ArenaWork (Option α) :=
  match x, y with
  | some v, some w =>
    if v == w then return some v
    else
      Work.fault (.unsupported place
        ("conflicting `" ++ keyword ++ "` values " ++ text v ++ " and " ++ text w))
  | x, y => return x.or y

/-- The listed values of both sides. -/
def commonValues : Option (List Json) → Option (List Json) → Option (List Json)
  | some xs, some ys => some (xs.filter fun v => ys.any (v.same ·))
  | x, y => x.or y

/-- The conjunction of the demands that do not concern child schemas, given the keywords on which
    the two sides have to agree. -/
def joinKeywords (a b : Schema) (place : Pointer) (multipleOf : Option Binary64)
    (pattern format : Option String) : Schema :=
  { Schema.blank place with
    kinds := some ((a.kinds.getD .full).inter (b.kinds.getD .full))
    values := commonValues a.values b.values
    gt := larger Binary64.lt a.gt b.gt
    ge := larger Binary64.lt a.ge b.ge
    lt := smaller Binary64.lt a.lt b.lt
    le := smaller Binary64.lt a.le b.le
    multipleOf := multipleOf
    minLength := larger countLt a.minLength b.minLength
    maxLength := smaller countLt a.maxLength b.maxLength
    pattern := pattern
    format := format
    minItems := larger countLt a.minItems b.minItems
    maxItems := smaller countLt a.maxItems b.maxItems
    uniqueItems := a.uniqueItems || b.uniqueItems
    required := a.required.union b.required
    minProperties := larger countLt a.minProperties b.minProperties
    maxProperties := smaller countLt a.maxProperties b.maxProperties
    readOnly := a.readOnly || b.readOnly
    writeOnly := a.writeOnly || b.writeOnly
    deprecated := a.deprecated || b.deprecated
    title := a.title.or b.title
    description := a.description.or b.description
    default := a.default.or b.default
    nameHint := a.nameHint.or b.nameHint
    classHint := a.classHint.or b.classHint }

/-- The conjunction of the demands that do not concern child schemas; a fault where the two sides
    have to agree on a keyword and do not. -/
def combineKeywords (a b : Schema) (place : Pointer) : ArenaWork Schema := do
  -- of several conflicts the first one in this order is reported
  let multipleOf ← agreed a.pointer "multipleOf" (Binary64.render .exact) a.multipleOf b.multipleOf
  let pattern ← agreed a.pointer "pattern" Text.quoted a.pattern b.pattern
  let format ← agreed a.pointer "format" Text.quoted a.format b.format
  return joinKeywords a b place multipleOf pattern format

/-! ## Child schemas -/

/-- A conjunction that is put off: a schema whose `allOf` lists the operands. The same operands
    share one such schema, and an operand that was put off itself counts as its own operands. -/
def putOff (x y : SchemaId) (place : Pointer) : ArenaWork SchemaId := do
  let operands ← Work.view fun a => (a.operandsOf x).union (a.operandsOf y)
  match operands.elements with
  -- both sides stand for the same schema already
  | [only] => return only
  | members =>
    match ← Work.view fun a => a.deferred.get? operands with
    | some id => return id
    | none =>
      let id ← Work.view next
      Work.modify fun a =>
        { a.push { Schema.blank place with allOf := members } with
          deferred := a.deferred.insert operands id
          operands := a.operands.insert id operands }
      return id

/-- The conjunction of two child schemas. Where an operand leads back to a schema under
    normalization, it is put off until its use. A result that is the normal form of an operand is
    given as that operand. -/
def conjoinChildren (solve : Solver) (x y : SchemaId) (place : Pointer) :
    ArenaWork (Option SchemaId) := do
  if x = y then return some x
  if ← Work.view fun a => a.reachesInProgress x || a.reachesInProgress y then
    return some (← putOff x y place)
  -- the second one is worked out even where nothing matches the first: it may be at fault
  let formX ← solve (.normalize x)
  let formY ← solve (.normalize y)
  match formX, formY with
  | some nx, some ny =>
    match ← solve (.conjoin nx ny place) with
    | none => return none
    -- the operand itself still knows its place and its descriptions
    | some r => return some (if r = nx then x else if r = ny then y else r)
  | _, _ => return none

/-- The demands on items; none when no array item can match. -/
def conjoinItems (solve : Solver) (a b : Schema) (place : Pointer) :
    ArenaWork (Option (Option SchemaId)) := do
  match a.items, b.items with
  | some x, some y =>
    match ← conjoinChildren solve x y (place.push "items") with
    | some z => return some (some z)
    | none => return none
  | x, y => return some (x.or y)

/-- The demands on properties that are not named. -/
def conjoinExtras (solve : Solver) (a b : Schema) (place : Pointer) :
    ArenaWork (Option Extras) := do
  match a.extras, b.extras with
  -- a side that allows everything leaves the other as it is
  | none, other | some (.allowed true), other => return other
  | other, none | other, some (.allowed true) => return other
  | some (.allowed false), _ | _, some (.allowed false) => return some (.allowed false)
  | some (.matching x), some (.matching y) =>
    match ← conjoinChildren solve x y (place.push "additionalProperties") with
    | some z => return some (.matching z)
    -- schemas that exclude each other allow no further property
    | none => return some (.allowed false)

/-- Whether no property beyond the named ones is allowed. -/
def isClosed (s : Schema) : Bool := s.extras == some (.allowed false)

/-- The schema of the properties that are not named. -/
def extraSchema? (s : Schema) : Option SchemaId :=
  match s.extras with
  | some (.matching id) => some id
  | _ => none

/-- The property names of a conjunction: those of either side, less what a closed side does not
    name. -/
def mergedKeys (a b : Schema) : List String :=
  (a.properties.keys ++ b.properties.keys.filter fun k => !a.properties.contains k).filter fun k =>
    (!isClosed a || a.properties.contains k) && (!isClosed b || b.properties.contains k)

/-- The schema of one property of a conjunction; a side that does not name it demands what it
    demands of such properties. -/
def conjoinProperty (solve : Solver) (a b : Schema) (key : String) (place : Pointer) :
    ArenaWork (Option SchemaId) :=
  match a.properties.get? key, b.properties.get? key with
  | some x, some y => conjoinChildren solve x y place
  | some x, none =>
    match extraSchema? b with
    | some extra => conjoinChildren solve x extra place
    | none => return some x
  | none, some y =>
    match extraSchema? a with
    | some extra => conjoinChildren solve extra y place
    | none => return some y
  -- a merged key is named by one side at least
  | none, none => return none

/-- The properties of a conjunction, one key after the other; none when a property cannot match. -/
def conjoinProperties (solve : Solver) (a b : Schema) (base : Pointer) :
    List String → Dict String SchemaId → ArenaWork (Option (Dict String SchemaId))
  | [], merged => return some merged
  | key :: keys, merged => do
    let some child ← conjoinProperty solve a b key (base.push key) | return none
    conjoinProperties solve a b base keys (merged.insert key child)

/-! ## Alternatives -/

/-- The distinct conjunctions of pairs of alternatives that match something. -/
def crossPairs (solve : Solver) (place : Pointer) :
    List (SchemaId × SchemaId) → List SchemaId → ArenaWork (List SchemaId)
  | [], found => return found
  | (l, r) :: rest, found => do
    -- the place counts what survived so far, not the pairs tried
    match ← solve (.conjoin l r (place.index found.length)) with
    | some branch =>
      crossPairs solve place rest (if found.contains branch then found else found ++ [branch])
    | none => crossPairs solve place rest found

/-- The conjunctions of the alternatives of one list with those of another. -/
def cross (solve : Solver) (left right : List SchemaId) (place : Pointer) :
    ArenaWork (List SchemaId) :=
  crossPairs solve place (left.flatMap fun l => right.map fun r => (l, r)) []

/-- The alternatives of a group, each conjoined with the schema's own demands; those that match
    nothing are dropped. -/
def survivors (solve : Solver) (own : SchemaId) (group : Pointer) :
    Nat → List SchemaId → ArenaWork (List SchemaId)
  | _, [] => return []
  | i, member :: rest => do
    let branch ← solve (.conjoin member own (group.index i))
    let others ← survivors solve own group (i + 1) rest
    return branch.toList ++ others

/-! ## Conjunction of normal forms -/

/-- A conjunction that demands the same as an operand is that operand; any other one is stored. -/
def reuseOrStore (ida idb : SchemaId) (a b out : Schema) : ArenaWork (Option SchemaId) :=
  if out.sameDemands a then return some ida
  else if out.sameDemands b then return some idb
  else store out

/-- The conjunction of two normal forms. One that demands nothing leaves the other as it is, and a
    result that demands the same as an operand is that operand. -/
def conjoinForms (solve : Solver) (ida idb : SchemaId) (place : Pointer) :
    ArenaWork (Option SchemaId) := do
  let a ← Work.view (·.schema ida)
  let b ← Work.view (·.schema idb)
  -- the second operand is asked first: of two that demand nothing the first one stays
  if b.isUnconstrained then return some ida
  if a.isUnconstrained then return some idb
  let keywords ← combineKeywords a b place
  let some items ← conjoinItems solve a b place | return none
  let extras ← conjoinExtras solve a b place
  let some properties ←
    conjoinProperties solve a b (place.push "properties") (mergedKeys a b) .empty | return none
  let own := { keywords with items := items, extras := extras, properties := properties }
  if a.anyOf.isEmpty && b.anyOf.isEmpty then reuseOrStore ida idb a b own
  else
    -- a side without alternatives counts as its own only one
    let left := if a.anyOf.isEmpty then [ida] else a.anyOf
    let right := if b.anyOf.isEmpty then [idb] else b.anyOf
    match ← cross solve left right (place.push "anyOf") with
    | [] => return none
    | [only] => return some only
    | branches => reuseOrStore ida idb a b { own with anyOf := branches }

/-- The conjunction of two schemas, by way of their normal forms and the memo. -/
def conjoin (solve : Solver) (x y : SchemaId) (place : Pointer) : ArenaWork (Option SchemaId) := do
  let some a ← solve (.normalize x) | return none
  let some b ← solve (.normalize y) | return none
  if a = b then return some a
  match ← Work.view fun s => s.conjunctions.get? (a, b, place) with
  | some known => return known
  | none =>
    -- only an answer is remembered; after a fault the next call tries again
    let result ← conjoinForms solve a b place
    Work.modify fun s => { s with conjunctions := s.conjunctions.insert (a, b, place) result }
    return result

/-! ## Normal forms -/

/-- A schema conjoined with the members of its `allOf`, one after the other. -/
def conjoinAll (solve : Solver) (place : Pointer) :
    SchemaId → List SchemaId → ArenaWork (Option SchemaId)
  | current, [] => return some current
  | current, member :: rest => do
    let some next ← solve (.conjoin current member place) | return none
    conjoinAll solve place next rest

/-- The normal form of a schema that is no more than its one combinator member with the kinds
    narrowed. -/
def narrowed (solve : Solver) (s : Schema) (child : SchemaId) : ArenaWork (Option SchemaId) := do
  let some inner ← solve (.normalize child) | return none
  match s.kinds with
  | none => return some inner
  | some kinds =>
    -- the kinds alone, as a schema of their own, narrow the member's normal form
    let some narrowing ← store { Schema.blank s.pointer with kinds := some kinds } | return none
    solve (.conjoin inner narrowing s.pointer)

/-- The normal form of a schema whose own demands, `allOf` included, are those of `own`. -/
def withAlternatives (solve : Solver) (s : Schema) (own : SchemaId) :
    ArenaWork (Option SchemaId) := do
  -- a group that has members, none of which survives, leaves nothing
  let ofAny ← survivors solve own (s.pointer.push "anyOf") 0 s.anyOf
  if !s.anyOf.isEmpty && ofAny.isEmpty then return none
  let ofOne ← survivors solve own (s.pointer.push "oneOf") 0 s.oneOf
  if !s.oneOf.isEmpty && ofOne.isEmpty then return none
  -- with both groups present a value has to match a member of each
  let branches ←
    if ofAny.isEmpty then pure ofOne
    else if ofOne.isEmpty then pure ofAny
    else cross solve ofAny ofOne (s.pointer.push "anyOf")
  match branches with
  | [] => return if s.anyOf.isEmpty && s.oneOf.isEmpty then some own else none
  | [only] => return some only
  | branches =>
    -- the alternatives carry the demands already; the whole repeats them
    let demands ← Work.view (·.schema own)
    store { demands with pointer := s.pointer, anyOf := branches }

/-- The normal form of a schema, worked out afresh. -/
def normalForm (solve : Solver) (id : SchemaId) : ArenaWork (Option SchemaId) := do
  let s ← Work.view (·.schema id)
  if s.isBottom then return none
  match s.soleChild? with
  | some child => narrowed solve s child
  | none =>
    -- a normal form always says which kinds it admits
    let base := { s.withoutCombinators with kinds := some (s.kinds.getD .full) }
    let some start ← store base | return none
    let some own ← conjoinAll solve s.pointer start s.allOf | return none
    withAlternatives solve s own

/-- What the memo holds after a normalization: the normal form is its own; after a failure there is
    no trace. -/
def settle (id : SchemaId) (outcome : Except Failure (Option SchemaId)) (a : Arena) : Arena :=
  let a := { a with pending := a.pending.dropLast }
  match outcome with
  | .ok form =>
    let progress := a.progress.insert id (.done form)
    { a with progress := match form with
        | some n => progress.insert n (.done (some n))
        | none => progress }
  | .error _ => { a with progress := a.progress.erase id }

/-- The normal form of a schema, by way of the memo. Coming back to a schema under normalization is
    a cycle of combinators. -/
def normalize (solve : Solver) (id : SchemaId) : ArenaWork (Option SchemaId) := do
  match ← Work.view fun a => a.progress.get? id with
  | some (.done form) => return form
  | some .inProgress =>
    Work.fault (.referenceCycle (← Work.view fun a => a.cycleTrail a.pending id))
  | none =>
    -- the mark and the place on the path are undone by `settle`, whatever comes of it
    Work.modify fun a =>
      { a with progress := a.progress.insert id .inProgress, pending := a.pending ++ [id] }
    Work.thenAlways (normalForm solve id) (settle id)

/-! ## The closed recursion -/

/-- The work of one task. -/
def step (solve : Solver) : Solver
  | .normalize id => normalize solve id
  | .conjoin a b place => conjoin solve a b place

/-- Work out a task with a supply of nested calls. -/
def solve : Nat → Solver
  | 0, _ => Work.exhausted
  | calls + 1, task => step (solve calls) task

end Arena

end ApiModel
