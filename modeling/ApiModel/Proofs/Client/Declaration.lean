/-
  ApiModel.Proofs.Client.Declaration

  The operations that a document declares: path by path in document order, and within one path
  method by method in listing order. Declared is what stands under the key of a method and is not
  null. The typed objects, once they are read, have these operations and no others, in this order.
-/
import ApiModel.Client.Build
import ApiModel.Proofs.Document.Record

namespace ApiModel.Client

open Document

/-- An operation that is declared under a path and a method. -/
structure Declaration (α : Type) where
  path : String
  method : Method
  operation : α

/-- The number of the method among the fields of a path item. -/
def Method.number : Method → Nat
  | get => 2
  | put => 3
  | post => 4
  | delete => 5
  | options => 6
  | head => 7
  | patch => 8
  | trace => 9

/-- The operations that the value of a path item declares. -/
def declarationsOf (path : String) (item : Json) : List (Declaration Json) :=
  Method.all.filterMap fun m => (given? item m.number m.key).map fun op => ⟨path, m, op⟩

/-- The operations that a document declares. -/
def declarations (document : Json) : List (Declaration Json) :=
  match member? document 3 "paths" with
  | some (.obj paths) => paths.flatMap fun (path, item) => declarationsOf path item
  | _ => []

/-- The id that the value of an operation gives. -/
def operationId? (op : Json) : Option String := (given? op 0 "operationId").bind Json.text?

/-- The requirement of its own that the value of an operation gives. -/
def ownSecurity? (op : Json) : Option Json := given? op 8 "security"

/-- The requirement that a document gives for all its operations. -/
def commonSecurity? (document : Json) : Option Json := given? document 5 "security"

/-! ## Typed objects -/

section

open Shape Fields

variable {v : Json}

theorem shape_of_readApi {document : Json} {api : Api} (h : readApi document = .ok api) :
    Api.shape document = .ok api := by
  obtain ⟨read, hread, h⟩ := Json.ok_of_bind h
  split at h
  · cases h
    exact mapError_eq_ok.1 hread
  · cases h

theorem reads_operation {op : Document.Operation} (h : Operation.shape v = .ok op) :
    ReadFrom (nullable text) (some none) (member? v 0 "operationId") op.operationId ∧
      ReadFrom (nullable requirementsShape) (some none) (member? v 8 "security") op.security := by
  replace h := reads_record ((reads_field ..).map
    |>.seq (reads_field ..) |>.seq (reads_field ..) |>.seq (reads_field ..)
    |>.seq (reads_field ..) |>.seq (reads_field ..) |>.seq (reads_field ..)
    |>.seq (reads_field ..) |>.seq (reads_field ..)) h
  obtain ⟨_, _, h, hsecurity, rfl⟩ := h
  obtain ⟨_, _, ⟨_, _, ⟨_, _, ⟨_, _, h, -, rfl⟩, -, rfl⟩, -, rfl⟩, -, rfl⟩ := h
  obtain ⟨_, _, ⟨_, _, ⟨_, _, ⟨_, hid, rfl⟩, -, rfl⟩, -, rfl⟩, -, rfl⟩ := h
  exact ⟨hid, hsecurity⟩

theorem reads_pathItem {item : PathItem} (h : PathItem.shape v = .ok item) (m : Method) :
    ReadFrom (nullable Operation.shape) (some none) (member? v m.number m.key)
      (m.operation? item) := by
  replace h := reads_record ((reads_field ..).map
    |>.seq (reads_field ..) |>.seq (reads_field ..) |>.seq (reads_field ..)
    |>.seq (reads_field ..) |>.seq (reads_field ..) |>.seq (reads_field ..)
    |>.seq (reads_field ..) |>.seq (reads_field ..) |>.seq (reads_field ..)
    |>.seq (reads_field ..)) h
  obtain ⟨_, _, h, -, rfl⟩ := h
  obtain ⟨_, _, ⟨_, _, ⟨_, _, ⟨_, _, h, hoptions, rfl⟩, hhead, rfl⟩, hpatch, rfl⟩, htrace, rfl⟩ := h
  obtain ⟨_, _, ⟨_, _, ⟨_, _, ⟨_, _, h, hget, rfl⟩, hput, rfl⟩, hpost, rfl⟩, hdelete, rfl⟩ := h
  obtain ⟨_, _, ⟨_, -, rfl⟩, -, rfl⟩ := h
  cases m with
  | get => exact hget
  | put => exact hput
  | post => exact hpost
  | delete => exact hdelete
  | options => exact hoptions
  | head => exact hhead
  | patch => exact hpatch
  | trace => exact htrace

theorem reads_api {api : Api} (h : Api.shape v = .ok api) :
    ReadFrom (dictOf PathItem.shape) (some .empty) (member? v 3 "paths") api.paths ∧
      ReadFrom (nullable requirementsShape) (some none) (member? v 5 "security") api.security := by
  replace h := reads_record ((reads_field ..).map
    |>.seq (reads_field ..) |>.seq (reads_field ..) |>.seq (reads_field ..)
    |>.seq (reads_field ..) |>.seq (reads_field ..) |>.seq (reads_field ..)
    |>.seq (reads_field ..)) h
  obtain ⟨_, _, ⟨_, _, ⟨_, _, h, hsecurity, rfl⟩, -, rfl⟩, -, rfl⟩ := h
  obtain ⟨_, _, ⟨_, _, ⟨_, _, ⟨_, _, ⟨_, -, rfl⟩, -, rfl⟩, -, rfl⟩, hpaths, rfl⟩, -, rfl⟩ := h
  exact ⟨hpaths, hsecurity⟩

end

/-! ## Operations that were read -/

/-- The typed operations of one path. -/
def typedOperationsOf (path : String) (item : PathItem) : List (Declaration Document.Operation) :=
  (Method.declared item).map fun (m, op) => ⟨path, m, op⟩

/-- The typed operations of several paths. -/
def typedOperations (paths : List (String × PathItem)) : List (Declaration Document.Operation) :=
  paths.flatMap fun (path, item) => typedOperationsOf path item

/-- The typed operation `e` was read from the value that `d` declares. -/
structure Declaration.ReadAs (d : Declaration Json) (e : Declaration Document.Operation) :
    Prop where
  path : d.path = e.path
  method : d.method = e.method
  operation : Operation.shape d.operation = .ok e.operation

theorem forall₂_declarationsOf {item : PathItem} {v : Json} (h : PathItem.shape v = .ok item)
    (path : String) :
    List.Forall₂ Declaration.ReadAs (declarationsOf path v) (typedOperationsOf path item) := by
  unfold declarationsOf typedOperationsOf Method.declared
  rw [List.map_filterMap]
  -- method by method: both have an operation, or neither has
  induction Method.all with
  | nil => exact .nil
  | cons m ms ih =>
      have hm := (reads_pathItem h m).given
      rw [List.filterMap_cons, List.filterMap_cons]
      cases hgiven : given? v m.number m.key with
      | none =>
          rw [hgiven] at hm
          rw [hm]
          exact ih
      | some op =>
          rw [hgiven] at hm
          obtain ⟨a, ha, hop⟩ := hm
          rw [hop]
          exact .cons ⟨rfl, rfl, ha⟩ ih

theorem forall₂_declarations {document : Json} {api : Api} (h : readApi document = .ok api) :
    List.Forall₂ Declaration.ReadAs (declarations document)
      (typedOperations api.paths.entries) := by
  have hpaths := (reads_api (shape_of_readApi h)).1
  unfold declarations typedOperations
  cases hmember : member? document 3 "paths" with
  | none =>
      rw [hmember] at hpaths
      rw [show api.paths = .empty from (Option.some.inj hpaths).symm]
      exact .nil
  | some v =>
      rw [hmember] at hpaths
      obtain ⟨fields, rfl, hfields⟩ := eq_of_dictOf hpaths
      refine List.rel_flatMap hfields ?_
      rintro ⟨path, w⟩ ⟨_, item⟩ ⟨rfl, hitem⟩
      exact forall₂_declarationsOf hitem path

end ApiModel.Client
