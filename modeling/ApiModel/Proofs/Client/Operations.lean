/-
  ApiModel.Proofs.Client.Operations

  No operation is lost, doubled or moved. The model of a document lists the operations that stand in
  it, path by path and method by method, with the ids that they have there. The ids differ from each
  other, and so do the names that are escaped from them, since escaping can be undone. A document in
  which an operation has no id, or two have the same, has no model.
-/
import ApiModel.Proofs.Client.Walk
import ApiModel.Proofs.Identifier

namespace ApiModel.Client

open Document

/-- The operations of a model are those that a document declares, in the order in which it declares
    them, each with its path, its method and its id. No two ids are the same, and with the usual
    naming no two names. -/
structure Model.Lists (m : Model) (document : Json) (naming : Naming) : Prop where
  listed : m.operations.map (fun o => (o.path, o.method, some o.operationId)) =
    (declarations document).map fun d => (d.path, d.method, operationId? d.operation)
  distinct : (m.operations.map Operation.operationId).Nodup
  names : ∀ extra, naming = .escaping extra → (m.operations.map Operation.name).Nodup

variable {naming : Naming} {common : Option Requirement}

theorem Declaration.ReadAs.operationId {d : Declaration Json}
    {e : Declaration Document.Operation} (h : d.ReadAs e) :
    operationId? d.operation = e.operation.operationId := by
  have hread := (reads_operation h.operation).1.given
  unfold operationId?
  cases hgiven : given? d.operation 0 "operationId" with
  | none =>
      rw [hgiven] at hread
      exact hread.symm
  | some v =>
      rw [hgiven] at hread
      obtain ⟨id, hid, hsome⟩ := hread
      rw [hsome, eq_of_text hid]
      rfl

theorem map_name_of_made {es : List (Declaration Document.Operation)} {os : List Operation}
    (hmade : List.Forall₂ (Made naming common) es os) :
    os.map Operation.name = (os.map Operation.operationId).map naming.operationName := by
  induction hmade with
  | nil => rfl
  | cons hmade _ ih => rw [List.map_cons, hmade.name, ih, List.map_cons, List.map_cons]

/-- The usual naming gives different operations different names, whatever words are reserved. -/
theorem operationName_injective (extra : List String) :
    Function.Injective (Naming.escaping extra).operationName := fun _ _ h =>
  Identifier.eq_of_escape_eq h

theorem lists_of_buildWithin {calls : Nat} {document : Json} {config : Config} {m : Model}
    (h : buildWithin calls document config naming = .ok m) : m.Lists document naming := by
  obtain ⟨api, hapi, hbuilt⟩ := built_of_buildWithin h
  refine ⟨(map_eq_map_of_forall₂ ((hbuilt.declared hapi).imp ?_)).symm, hbuilt.distinct, ?_⟩
  · rintro d o ⟨e, hread, hmade⟩
    rw [hread.path, hread.method, hread.operationId, hmade.path, hmade.method, hmade.operationId]
  · rintro extra rfl
    rw [map_name_of_made hbuilt.operations]
    exact hbuilt.distinct.map (operationName_injective extra)

/-- The ids of the declared operations are those of the model. -/
theorem Model.Lists.map_operationId {m : Model} {document : Json} (h : m.Lists document naming) :
    (declarations document).map (fun d => operationId? d.operation) =
      (m.operations.map Operation.operationId).map some := by
  have hthird := congrArg (List.map fun x => x.2.2) h.listed
  rw [List.map_map, List.map_map] at hthird
  rw [List.map_map]
  exact hthird.symm

/-- Every model lists the operations of its document. Where an operation has no id, or two have the
    same, there is no model. -/
theorem operations_exact (calls : Nat) (document : Json) (config : Config) (naming : Naming) :
    (∀ m, buildWithin calls document config naming = .ok m → m.Lists document naming) ∧
    ((∃ d ∈ declarations document, operationId? d.operation = none) ∨
        ¬((declarations document).map fun d => operationId? d.operation).Nodup →
      ∀ m, buildWithin calls document config naming ≠ .ok m) := by
  refine ⟨fun m hm => lists_of_buildWithin hm, fun hbad m hm => ?_⟩
  have hlists := lists_of_buildWithin hm
  rcases hbad with ⟨d, hd, hnone⟩ | htwice
  · have hmem : none ∈ (m.operations.map Operation.operationId).map some := by
      rw [← hlists.map_operationId, ← hnone]
      exact List.mem_map_of_mem hd
    obtain ⟨id, -, hsome⟩ := List.mem_map.1 hmem
    cases hsome
  · rw [hlists.map_operationId] at htwice
    exact htwice (hlists.distinct.map fun _ _ h => Option.some.inj h)

/-- A description with three operations, those of the first path against the listing order, and a
    path without any. -/
def threeOperations (last : String) : Json :=
  let operation (id : String) := Json.obj [("operationId", .str id)]
  .obj [("openapi", .str "3.0.0"),
    ("info", .obj [("title", .str "Pets"), ("version", .str "1")]),
    ("paths", .obj [
      ("/pets", .obj [("post", operation "import"), ("get", operation "list")]),
      ("/hidden", .obj [("get", .null)]),
      ("/pet", .obj [("delete", operation last)])])]

theorem operations_exact_threeOperations :
    (∃ m, buildWithin 8 (threeOperations "import_") .standard (.escaping []) = .ok m ∧
      m.operations.map (fun o => (o.path, o.method, some o.operationId)) =
        [("/pets", .get, some "list"), ("/pets", .post, some "import"),
          ("/pet", .delete, some "import_")] ∧
      (m.operations.map Operation.name).Nodup) ∧
    ∀ m, buildWithin 8 (threeOperations "list") .standard (.escaping []) ≠ .ok m := by
  have hbuilds : (buildWithin 8 (threeOperations "import_") .standard
      (.escaping [])).toOption.isSome := by decide +kernel
  have hdeclared : (declarations (threeOperations "import_")).map
      (fun d => (d.path, d.method, operationId? d.operation)) =
        [("/pets", .get, some "list"), ("/pets", .post, some "import"),
          ("/pet", .delete, some "import_")] := by decide +kernel
  refine ⟨?_, (operations_exact 8 (threeOperations "list") .standard (.escaping [])).2
    (.inr (by decide +kernel))⟩
  cases hm : buildWithin 8 (threeOperations "import_") .standard (.escaping []) with
  | error e => simp [hm, Except.toOption] at hbuilds
  | ok m =>
      have hlists := (operations_exact 8 (threeOperations "import_") .standard
        (.escaping [])).1 m hm
      exact ⟨m, rfl, hlists.listed.trans hdeclared, hlists.names [] rfl⟩

end ApiModel.Client
