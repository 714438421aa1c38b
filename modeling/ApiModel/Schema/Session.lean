/-
  ApiModel.Schema.Session

  The state of one build of types: the arena of schemas, which pointers have been loaded, the types
  and class names worked out so far, the classes registered, and the warnings recorded. A step that
  fails leaves the state as it was when the fault came up.
-/
import ApiModel.Client.Class
import ApiModel.Schema.NormalForm

namespace ApiModel

/-- The state of one build of types. -/
structure Session where
  arena : Arena
  /-- The schemas by the pointers they were asked for under and found at. -/
  loaded : Dict Pointer SchemaId
  /-- The types of normal forms. -/
  types : Dict SchemaId TypeExpr
  /-- The normal forms whose types are being worked out, outermost first. -/
  typing : List SchemaId
  classNames : Dict SchemaId TypeName
  takenNames : List TypeName
  /-- Class names to prefer for schemas at certain places. -/
  suggestions : Dict Pointer String
  classes : Dict TypeName Client.Class
  /-- The normal forms whose classes have been extracted. -/
  collected : List SchemaId
  warnings : List Warning

/-- Computations on a session. -/
abbrev SessionWork := Work Session

namespace Session

/-- Nothing loaded yet. -/
def empty : Session :=
  ⟨.empty, .empty, .empty, [], .empty, [], .empty, .empty, [], []⟩

instance : Inhabited Session := ⟨empty⟩

/-- A computation on the arena of a session. -/
def onArena {α : Type} (x : ArenaWork α) : SessionWork α :=
  Work.focus Session.arena (fun a s => { s with arena := a }) x

/-- The schema with a number. -/
def schema (id : SchemaId) : SessionWork Schema := Work.view fun s => s.arena.schema id

/-- Record a warning, once. -/
def warn (w : Warning) : SessionWork Unit :=
  Work.modify fun s => if w ∈ s.warnings then s else { s with warnings := s.warnings ++ [w] }

/-- The normal form of a schema. -/
def normalize (calls : Nat) (id : SchemaId) : SessionWork (Option SchemaId) :=
  onArena (Arena.solve calls (.normalize id))

/-- The conjunction of two schemas; a new schema is located at `place`. -/
def conjoinAt (calls : Nat) (a b : SchemaId) (place : Pointer) : SessionWork (Option SchemaId) :=
  onArena (Arena.solve calls (.conjoin a b place))

/-- The conjunction of two schemas, located where the first one is. -/
def conjoin (calls : Nat) (a b : SchemaId) : SessionWork (Option SchemaId) := do
  conjoinAt calls a b (← schema a).pointer

/-- Prefer a class name for the schema at a place; the first suggestion counts. -/
def suggest (place : Pointer) (name : String) : SessionWork Unit :=
  Work.modify fun s => { s with suggestions := s.suggestions.insertIfNew place name }

end Session

end ApiModel
