/-
  ApiModel.Proofs.Schema.Slot

  Where schemas refer to others. A slot is a keyword with its key or index; it stands for a place
  below that of a value, for the value there, and for the schema that is referred to. What is read of
  an object fills just the slots that the object fills.
-/
import ApiModel.Proofs.Schema.Chart

namespace ApiModel.Session

open Document Work

variable {document v : Json} {s : Session} {target : Pointer} {id : SchemaId}
  {fields : List (String × Json)}

/-! ## Where schemas refer to others -/

/-- The keywords that combine schemas. -/
inductive Combinator where
  | allOf
  | anyOf
  | oneOf

/-- The keyword as it is written. -/
def Combinator.keyword : Combinator → String
  | .allOf => "allOf"
  | .anyOf => "anyOf"
  | .oneOf => "oneOf"

/-- The members that a schema has under the keyword. -/
def Combinator.members (m : Schema) : Combinator → List SchemaId
  | .allOf => m.allOf
  | .anyOf => m.anyOf
  | .oneOf => m.oneOf

/-- Where a schema may refer to another one. -/
inductive Slot where
  | items
  | property (name : String)
  | extras
  | member (combinator : Combinator) (index : Nat)

namespace Slot

/-- The place of what a schema at `p` refers to. -/
def place (p : Pointer) : Slot → Pointer
  | items => p.push "items"
  | property name => (p.push "properties").push name
  | extras => p.push "additionalProperties"
  | member combinator i => (p.push combinator.keyword).index i

/-- The value there. A truth value for the properties that are not named refers to no schema. -/
def value? (v : Json) : Slot → Option Json
  | items => v.get? "items"
  | property name => do (← v.get? "properties").get? name
  | extras =>
    match v.get? "additionalProperties" with
    | some (.bool _) => none
    | other => other
  | member combinator i => do (← (← v.get? combinator.keyword).items?)[i]?

/-- The schema that is referred to. -/
def child? (m : Schema) : Slot → Option SchemaId
  | items => m.items
  | property name => m.properties.get? name
  | extras => Arena.extraSchema? m
  | member combinator i => (combinator.members m)[i]?

end Slot

/-- A schema for the value `v` at `target` refers to others just where the value does, and to the
    ones that loading their places gives. -/
def ChildrenAt (document : Json) (s : Session) (target : Pointer) (v : Json) (m : Schema) : Prop :=
  ∀ slot : Slot, Option.Rel (fun _ c => ((load document (slot.place target)).run s).1 = .ok c)
    (slot.value? v) (slot.child? m)

/-- A nullable schema of combinators that names no kinds. -/
def Split (v : Json) : Prop :=
  v.get? "nullable" = some (.bool true) ∧ v.get? "type" = none ∧
    ∃ combinator, (Slot.member combinator 0).value? v ≠ none

/-- The schema `id` of a session stands for the value `v` at `target`. -/
structure Mirrors (document : Json) (s : Session) (target : Pointer) (v : Json) (id : SchemaId) :
    Prop where
  pointer : (s.arena.schema id).pointer = target
  whole : ¬Split v → ChildrenAt document s target v (s.arena.schema id)
  /-- The schema is split into one without the null that it allows besides, and this null. -/
  split : Split v → ∃ inner null,
    s.arena.schema id = { Schema.blank target with anyOf := [inner, null] } ∧
    s.arena.schema null = nullAt target ∧ (s.arena.schema inner).pointer = target ∧
    ChildrenAt document s target v (s.arena.schema inner)

/-- The properties that are declared are those that there is something for. -/
theorem mem_propertyNames_iff {name : String} : name ∈ propertyNames fields ↔
    ((Slot.property name).value? (.obj fields)).isSome := by
  have hvalue : (Slot.property name).value? (.obj fields) =
      (((fields.lookup "properties").bind Json.fields?).getD []).lookup name := by
    show ((fields.lookup "properties").bind fun v => v.get? name) = _
    rcases fields.lookup "properties" with _ | v
    · rfl
    · cases v <;> rfl
  rw [hvalue, List.lookup_isSome_iff, propertyNames, List.mem_map]
  exact exists_congr fun e => and_congr_right fun _ => by rw [beq_iff_eq, eq_comm]

section Names

variable {child : Pointer → SchemaId} {place : Pointer}

theorem get?_propertiesAt (base : Pointer) (keys : List String) (read : Dict String SchemaId)
    (key : String) : (propertiesAt child base keys read).get? key =
      if key ∈ keys then some (child (base.push key)) else read.get? key := by
  induction keys generalizing read with
  | nil => rfl
  | cons k keys ih =>
      rw [propertiesAt, ih, Dict.get?_insert]
      by_cases hk : key = k
      · subst hk
        simp
      · simp [hk]

theorem getElem?_elementsAt (base : Pointer) (i : Nat) (items : List Json) (j : Nat) :
    (elementsAt child base i items)[j]? = items[j]?.map fun _ => child (base.index (i + j)) := by
  induction items generalizing i j with
  | nil => rfl
  | cons v items ih =>
      cases j with
      | zero => rfl
      | succ j =>
          have hindex : i + 1 + j = i + (j + 1) := by omega
          rw [elementsAt, List.getElem?_cons_succ, List.getElem?_cons_succ, ih, hindex]

theorem getElem?_membersAt (keyword : String) (j : Nat) :
    (membersAt child place fields keyword)[j]? =
      ((fields.lookup keyword).bind fun v => v.items?.bind (·[j]?)).map fun _ =>
        child ((place.push keyword).index j) := by
  unfold membersAt
  rcases fields.lookup keyword with _ | v
  · rfl
  cases v with
  | arr items => exact (getElem?_elementsAt _ 0 items j).trans (by rw [Nat.zero_add]; rfl)
  | _ => rfl

/-- The schema of an object refers to the names of the places where there is something. -/
theorem child?_objectAt {k : Schema} (hk : readKeywords place fields = .ok k) (slot : Slot) :
    slot.child? (objectAt child place fields) =
      (slot.value? (.obj fields)).map fun _ => child (slot.place place) := by
  rw [objectAt_of_readKeywords hk]
  cases slot with
  | items => rfl
  | property name =>
      show (propertiesAt child _ (propertyNames fields) .empty).get? name = _
      rw [get?_propertiesAt]
      simp only [mem_propertyNames_iff]
      cases (Slot.property name).value? (.obj fields) <;> rfl
  | extras =>
      show Arena.extraSchema? { k with extras := extrasAt child place fields, .. } =
        ((Slot.extras).value? (.obj fields)).map _
      have hvalue : (Slot.extras).value? (.obj fields) =
          match fields.lookup "additionalProperties" with
          | some (.bool _) => none
          | other => other := rfl
      rw [hvalue]
      unfold Arena.extraSchema? extrasAt
      rcases fields.lookup "additionalProperties" with _ | v
      · rfl
      · cases v <;> rfl
  | member combinator i =>
      cases combinator with
      | allOf => exact getElem?_membersAt "allOf" i
      | anyOf => exact getElem?_membersAt "anyOf" i
      | oneOf => exact getElem?_membersAt "oneOf" i

end Names

theorem hasCombinators_iff {m : Schema} :
    m.hasCombinators = true ↔ ∃ combinator, (Slot.member combinator 0).child? m ≠ none := by
  have hhead : ∀ l : List SchemaId, l[0]? ≠ none ↔ l.isEmpty = false := by
    intro l
    cases l <;> simp
  unfold Schema.hasCombinators
  rw [Bool.or_eq_true, Bool.or_eq_true, Bool.not_eq_true', Bool.not_eq_true', Bool.not_eq_true']
  constructor
  · rintro ((h | h) | h)
    · exact ⟨.allOf, (hhead _).2 h⟩
    · exact ⟨.anyOf, (hhead _).2 h⟩
    · exact ⟨.oneOf, (hhead _).2 h⟩
  · rintro ⟨combinator, h⟩
    cases combinator with
    | allOf => exact .inl (.inl ((hhead _).1 h))
    | anyOf => exact .inl (.inr ((hhead _).1 h))
    | oneOf => exact .inr ((hhead _).1 h)

/-- Kinds are named just where there is a type. -/
theorem kinds_eq_none_iff {place : Pointer} {k : Schema} (hk : readKeywords place fields = .ok k) :
    k.kinds = none ↔ fields.lookup "type" = none := by
  have hkinds := (readKeywords_eq_ok hk).1
  constructor
  · intro hnone
    have hsome : ∀ {names}, (some <$> kindsOf place names) ≠ .ok k.kinds := by
      intro names h
      rw [hnone] at h
      cases hnames : kindsOf place names with
      | error e => rw [hnames] at h; cases h
      | ok ks => rw [hnames] at h; cases h
    unfold readKinds at hkinds
    split at hkinds
    · next htype => exact htype
    · exact absurd hkinds hsome
    · exact absurd hkinds hsome
    · cases hkinds
  · intro htype
    rw [readKinds, htype] at hkinds
    exact (Except.ok.inj hkinds).symm

theorem flag_eq_true_iff {key : String} :
    flag fields key = true ↔ fields.lookup key = some (.bool true) := by
  unfold flag
  rcases fields.lookup key with _ | v
  · exact iff_of_false nofun nofun
  · cases v <;> simp [Json.truth?]

theorem pointer_objectAt {child : Pointer → SchemaId} {place : Pointer} :
    (objectAt child place fields).pointer = place := by
  unfold objectAt
  split
  · next k hk =>
      show k.pointer = place
      exact pointer_of_readKeywords hk
  · rfl

theorem pointer_schemaAt (document : Json) (name : Site → SchemaId) (place : Pointer) (v : Json) :
    (schemaAt document name place v).pointer = place := by
  unfold schemaAt
  split
  · rfl
  · rfl
  · dsimp only
    unfold nullableAt
    split
    · split
      · exact pointer_objectAt
      · split
        · rfl
        · exact pointer_objectAt
    · exact pointer_objectAt
  · rfl

end ApiModel.Session
