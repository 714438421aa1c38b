/-
  ApiModel.Proofs.Schema.Site

  The schemas of a document by the places where they are written. Loading stores the schema of a place,
  or the two that the schema of a nullable place is split into. What such a schema says is a matter of
  the document alone, once its children are called by the names of their places.
-/
import ApiModel.Proofs.Schema.Nomenclature
import ApiModel.Schema.Load

namespace ApiModel.Session

open Document
open Arena (Nomenclature)

/-- What a schema that loading stores is the schema of. -/
inductive Site where
  /-- The value at a place. -/
  | value (p : Pointer)
  /-- The value at a place without the null that it allows besides. -/
  | inner (p : Pointer)
  /-- The null that the value at a place allows besides. -/
  | null (p : Pointer)
  deriving Countable

/-! ## Schemas with names for children -/

section Children

variable (child : Pointer → SchemaId) (place : Pointer) (fields : List (String × Json))

/-- The name of the schema of the items. -/
def itemsAt : Option SchemaId := (fields.lookup "items").map fun _ => child (place.push "items")

/-- The names of the schemas of the properties, after those read before. -/
def propertiesAt (base : Pointer) : List String → Dict String SchemaId → Dict String SchemaId
  | [], read => read
  | key :: keys, read => propertiesAt base keys (read.insert key (child (base.push key)))

/-- What holds for properties that are not named. -/
def extrasAt : Option Extras :=
  match fields.lookup "additionalProperties" with
  | none => none
  | some (.bool yes) => some (.allowed yes)
  | some _ => some (.matching (child (place.push "additionalProperties")))

/-- The names of the schemas of an array from an index on. -/
def elementsAt (base : Pointer) : Nat → List Json → List SchemaId
  | _, [] => []
  | i, _ :: rest => child (base.index i) :: elementsAt base (i + 1) rest

/-- The names of the members of a combinator. -/
def membersAt (keyword : String) : List SchemaId :=
  match fields.lookup keyword with
  | some (.arr members) => elementsAt child (place.push keyword) 0 members
  | _ => []

/-- The schema of an object, without what `nullable` says. -/
def objectAt : Schema :=
  match readKeywords place fields with
  | .ok keywords => { keywords with
      items := itemsAt child place fields
      properties := propertiesAt child (place.push "properties") (propertyNames fields) .empty
      extras := extrasAt child place fields
      allOf := membersAt child place fields "allOf"
      anyOf := membersAt child place fields "anyOf"
      oneOf := membersAt child place fields "oneOf" }
  | .error _ => .blank place

variable {child place fields}

theorem objectAt_of_readKeywords {keywords : Schema}
    (h : readKeywords place fields = .ok keywords) :
    objectAt child place fields = { keywords with
      items := itemsAt child place fields
      properties := propertiesAt child (place.push "properties") (propertyNames fields) .empty
      extras := extrasAt child place fields
      allOf := membersAt child place fields "allOf"
      anyOf := membersAt child place fields "anyOf"
      oneOf := membersAt child place fields "oneOf" } := by
  unfold objectAt
  rw [h]

end Children

section Names

variable (document : Json) (name : Site → SchemaId)

/-- The name of the schema that a pointer leads to. -/
def nameAt (p : Pointer) : SchemaId :=
  match resolve document p with
  | .ok (target, _) => name (.value target)
  | .error _ => 0

/-- The null that a place allows besides. -/
def nullAt (place : Pointer) : Schema :=
  { Schema.blank (place.push "nullable") with kinds := some (.single .null) }

/-- A schema that allows null besides. -/
def nullableAt (place : Pointer) (s : Schema) : Schema :=
  match s.kinds with
  | some kinds => { s with kinds := some (kinds.insert .null) }
  | none =>
    if s.hasCombinators then
      { Schema.blank place with anyOf := [name (.inner place), name (.null place)] }
    else s

/-- The schema that a value at a place is. -/
def schemaAt (place : Pointer) : Json → Schema
  | .bool true => .blank place
  | .bool false => { Schema.blank place with kinds := some .empty }
  | .obj fields =>
    let s := objectAt (nameAt document name) place fields
    if flag fields "nullable" then nullableAt name place s else s
  | _ => .blank place

/-- What the schema of a site says in terms of names. -/
def siteSchema : Site → Schema
  | .value p =>
    match node document p with
    | .ok v => schemaAt document name p v
    | .error _ => .blank p
  | .inner p =>
    match node document p with
    | .ok (.obj fields) => objectAt (nameAt document name) p fields
    | _ => .blank p
  | .null p => nullAt p

end Names

/-! ## Names for a document -/

/-- Names for all schemas that can come of a document. -/
structure Survey (document : Json) where
  names : Nomenclature
  name : Site → SchemaId
  inj : Function.Injective name
  content : ∀ site, names.content (name site) = siteSchema document name site
  /-- What the document has is not stored by the algebra. -/
  raw : ∀ site, ¬names.IsForm (name site)

/-- There are enough names for every document, without the one of pointers that lead nowhere. -/
theorem exists_survey_ne_zero (document : Json) :
    ∃ V : Survey document, ∀ site, V.name site ≠ 0 := by
  obtain ⟨number, hinj⟩ := exists_injective_nat Site
  have : Nonempty Site := ⟨.value .root⟩
  let name : Site → SchemaId := fun site => 2 * (number site + 1)
  obtain ⟨ν, hν⟩ := Nomenclature.exists_content fun n =>
    siteSchema document name (Function.invFun number (n - 1))
  refine ⟨⟨ν, name, fun site site' h => ?_, fun site => ?_, fun site => (hν (number site + 1)).2⟩,
    fun site => Nat.mul_ne_zero (by decide) (Nat.succ_ne_zero _)⟩
  · exact hinj (Nat.succ.inj (Nat.eq_of_mul_eq_mul_left Nat.two_pos h))
  · rw [(hν (number site + 1)).1, Nat.add_sub_cancel, Function.leftInverse_invFun hinj]

/-- There are enough names for every document. -/
theorem exists_survey (document : Json) : Nonempty (Survey document) :=
  (exists_survey_ne_zero document).elim fun V _ => ⟨V⟩

/-! ## Where pointers lead -/

variable {document v : Json} {p target : Pointer}

/-- Following references ends at a value that is no reference. -/
theorem resolveFrom_eq_ok {trail : List Pointer}
    (h : resolveFrom document trail p = .ok (target, v)) :
    node document target = .ok v ∧ reference? v = none := by
  fun_induction resolveFrom document trail p with
  | case1 => cases h
  | case2 trail current w hw hnone =>
      cases h
      exact ⟨hw, hnone⟩
  | case3 => cases h
  | case4 => cases h
  | case5 trail current w hw text ht next hq hn ih => exact ih h

theorem node_of_resolve (h : resolve document p = .ok (target, v)) : node document target = .ok v :=
  (resolveFrom_eq_ok h).1

/-- Where references end, there is nothing to follow. -/
theorem resolve_target (h : resolve document p = .ok (target, v)) :
    resolve document target = .ok (target, v) := by
  obtain ⟨hnode, href⟩ := resolveFrom_eq_ok h
  unfold resolve resolveFrom
  split
  · next e he => cases hnode.symm.trans he
  next w hw =>
  cases hnode.symm.trans hw
  split
  · rfl
  · next text htext => cases href.symm.trans htext

theorem nameAt_of_resolve (name : Site → SchemaId) (h : resolve document p = .ok (target, v)) :
    nameAt document name p = name (.value target) := by
  unfold nameAt
  rw [h]

end ApiModel.Session
