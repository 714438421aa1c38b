/-
  ApiModel.Schema.Arena

  The schemas of a session, and what is known about their normal forms. Schemas are numbered in the
  order in which they come about and never change their number. Beside them stand the memo of normal
  forms, the schemas under normalization at the moment, the memo of conjunctions, and the
  conjunctions that were put off because an operand was still under normalization.
-/
import ApiModel.Schema
import ApiModel.Work

namespace ApiModel

/-- What is known about the normal form of a schema. -/
inductive Progress where
  /-- It is being worked out. -/
  | inProgress
  /-- It is a schema, or there is none because nothing matches. -/
  | done (form : Option SchemaId)
  deriving DecidableEq

/-- The schemas of a session and the memo of their normal forms. -/
structure Arena where
  schemas : Array Schema
  progress : Dict SchemaId Progress
  /-- The schemas under normalization, outermost first. -/
  pending : List SchemaId
  conjunctions : Dict (SchemaId × SchemaId × Pointer) (Option SchemaId)
  /-- The schema that stands for the conjunction of a set of schemas, put off until its use. -/
  deferred : Dict (SortedSet SchemaId) SchemaId
  /-- The operands of a conjunction that was put off. -/
  operands : Dict SchemaId (SortedSet SchemaId)

namespace Arena

/-- No schema yet. -/
def empty : Arena := ⟨#[], .empty, [], .empty, .empty, .empty⟩

/-- The schema with a number. -/
def schema (a : Arena) (id : SchemaId) : Schema := a.schemas.getD id (.blank .root)

/-- The number that the next schema will get. -/
def next (a : Arena) : SchemaId := a.schemas.size

/-- One more schema. -/
def push (a : Arena) (s : Schema) : Arena := { a with schemas := a.schemas.push s }

/-- Another schema under a number. -/
def replace (a : Arena) (id : SchemaId) (s : Schema) : Arena :=
  { a with schemas := a.schemas.setIfInBounds id s }

theorem next_push (a : Arena) (s : Schema) : (a.push s).next = a.next + 1 := by
  simp [next, push]

/-- A new schema is found under its number, and the others under theirs. -/
theorem schema_push (a : Arena) (s : Schema) (id : SchemaId) :
    (a.push s).schema id = if id = a.next then s else a.schema id := by
  unfold schema push next
  simp only [Array.getD_eq_getD_getElem?, Array.getElem?_push]
  split <;> rfl

/-- A replaced schema is found under its number, if there was one, and the others under theirs. -/
theorem schema_replace (a : Arena) (s : Schema) (id i : SchemaId) :
    (a.replace i s).schema id = if id = i ∧ i < a.next then s else a.schema id := by
  unfold schema replace next
  simp only [Array.getD_eq_getD_getElem?, Array.getElem?_setIfInBounds]
  grind

/-- The operands that a schema stands for: its own when its conjunction was put off, else itself. -/
def operandsOf (a : Arena) (id : SchemaId) : SortedSet SchemaId :=
  (a.operands.get? id).getD (.singleton id)

/-- The pointers of the schemas from the first mention of `id` in a list on, and that of `id`. -/
def cycleTrail (a : Arena) (path : List SchemaId) (id : SchemaId) : List Pointer :=
  (path.dropWhile (· != id) ++ [id]).map fun i => (a.schema i).pointer

/-- The numbers of schemas that are not in a list. -/
def unseen (a : Arena) (seen : List SchemaId) : List SchemaId :=
  (List.range a.schemas.size).filter (· ∉ seen)

/-- The steps that schemas not in a list can cause: a visit of each, and one for each member. -/
def unseenSteps (a : Arena) (seen : List SchemaId) : Nat :=
  (a.unseen seen).foldr (fun id steps => (a.schema id).members.length + 1 + steps) 0

/-- Without an entry, a list counts for less by what the entry counts for. -/
theorem foldr_filter_ne_le (f : SchemaId → Nat) (ids : List SchemaId) (id : SchemaId) :
    (ids.filter (· ≠ id)).foldr (fun i n => f i + n) 0 + (if id ∈ ids then f id else 0) ≤
      ids.foldr (fun i n => f i + n) 0 := by
  induction ids with
  | nil => simp
  | cons x ids ih =>
      rw [List.filter_cons, List.foldr_cons]
      by_cases hx : x = id
      · rw [if_neg (by simp [hx]), if_pos (by simp [hx]), hx]
        omega
      · rw [if_pos (by simp [hx]), List.foldr_cons]
        simp only [List.mem_cons, Ne.symm hx, false_or]
        omega

theorem unseenSteps_cons (a : Arena) {seen : List SchemaId} {id : SchemaId}
    (hid : id < a.schemas.size) (hn : id ∉ seen) :
    a.unseenSteps (id :: seen) + ((a.schema id).members.length + 1) ≤ a.unseenSteps seen := by
  have hsplit : a.unseen (id :: seen) = (a.unseen seen).filter (· ≠ id) := by
    simp only [unseen, List.filter_filter]
    congr 1
    funext x
    simp [not_or]
  have hmem : id ∈ a.unseen seen := by simp [unseen, List.mem_filter, hid, hn]
  unfold unseenSteps
  have hle := foldr_filter_ne_le (fun i => (a.schema i).members.length + 1) (a.unseen seen) id
  rw [if_pos hmem] at hle
  rw [hsplit]
  exact hle

/-- Whether a schema under normalization can be reached from the stack through combinators of
    schemas that have no normal form yet. -/
def reachesOpen (a : Arena) (seen : List SchemaId) : List SchemaId → Bool
  | [] => false
  | id :: stack =>
    if _h : id < a.schemas.size ∧ id ∉ seen then
      match a.progress.get? id with
      | some .inProgress => true
      -- a known normal form is looked up and leads nowhere
      | some (.done _) => reachesOpen a (id :: seen) stack
      | none => reachesOpen a (id :: seen) ((a.schema id).members ++ stack)
    else reachesOpen a seen stack
termination_by stack => a.unseenSteps seen + stack.length
decreasing_by
  · have := a.unseenSteps_cons _h.1 _h.2
    simp only [List.length_cons]
    omega
  · have := a.unseenSteps_cons _h.1 _h.2
    simp only [List.length_cons, List.length_append]
    omega
  · simp

/-- Whether normalizing a schema would come back to one under normalization. -/
def reachesInProgress (a : Arena) (id : SchemaId) : Bool := a.reachesOpen [] [id]

end Arena

/-- Computations on an arena. -/
abbrev ArenaWork := Work Arena

end ApiModel
