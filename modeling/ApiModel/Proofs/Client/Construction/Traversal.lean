/-
  ApiModel.Proofs.Client.Construction.Traversal

  The way through a description. Operations are built path by path and method by method, each with
  the parameters that its path shares. What is known of an operation as it is built, and stays true
  while the rest is built, holds of all operations in the end, in the order in which they are
  declared; and what stays true to the end is known when the classes are handed out.
-/
import ApiModel.Proofs.Client.Declaration
import ApiModel.Proofs.Effect

namespace ApiModel.Client

/-- An operation that is declared, with the item of its path. -/
structure Site extends Declaration Document.Operation where
  item : Document.PathItem

/-- The operations that some paths declare. -/
def sites (paths : List (String × Document.PathItem)) : List Site :=
  paths.flatMap fun (path, item) => (typedOperationsOf path item).map fun e => ⟨e, item⟩

namespace Construction

open Work

variable {b : Setting} {c d : Construction} {I : Construction → Prop}
  {R : Construction → Construction → Prop} [IsPreorder Construction R]
  {S : String → Document.PathItem → List Parameter → Construction → Prop}
  {Q : Site → Operation → Construction → Prop}

section

variable (hshared : ∀ path item {c}, I c → Gives I R (pathParameters b path item) c (S path item))
  (hoperation : ∀ (x : Site) {shared c}, I c → S x.path x.item shared c →
    Gives I R (operation b x.path shared x.method x.operation) c (Q x))
  (hS : ∀ {path item shared c d}, I c → R c d → S path item shared c → S path item shared d)
  (hQ : ∀ {x o c d}, I c → R c d → Q x o c → Q x o d)

include hoperation hS hQ in
theorem gives_operationsOf (hc : I c) (path : String) (item : Document.PathItem)
    {shared : List Parameter} (h : S path item shared c)
    (ops : List (Method × Document.Operation)) :
    Gives I R (operationsOf b path shared ops) c fun os d => List.Forall₂ (Q · · d)
      (ops.map fun (m, op) => ⟨⟨path, m, op⟩, item⟩) os := by
  induction ops generalizing c with
  | nil => exact .pure hc .nil
  | cons op rest ih =>
      obtain ⟨method, op⟩ := op
      unfold operationsOf
      refine .bind (hoperation ⟨⟨path, method, op⟩, item⟩ hc h) fun o d hd hcd ho => ?_
      exact .bind (ih hd (hS hc hcd h)) fun os e he hde hos => .pure he (.cons (hQ hd hde ho) hos)

include hshared hoperation hS hQ in
/-- What each operation is known to be as soon as it is built. -/
theorem gives_operations (hc : I c) (paths : List (String × Document.PathItem)) :
    Gives I R (operations b paths) c fun os d => List.Forall₂ (Q · · d) (sites paths) os := by
  induction paths generalizing c with
  | nil => exact .pure hc .nil
  | cons path rest ih =>
      obtain ⟨path, item⟩ := path
      have hsites : sites ((path, item) :: rest) =
          ((Method.declared item).map fun (m, op) => ⟨⟨path, m, op⟩, item⟩) ++ sites rest := by
        show (typedOperationsOf path item).map _ ++ sites rest = _
        rw [typedOperationsOf, List.map_map]
        rfl
      unfold operations
      dsimp only
      rw [hsites]
      split
      · next hempty =>
          -- a path without operations adds nothing
          rw [List.isEmpty_iff.1 hempty]
          exact ih hc
      · refine .bind (hshared path item hc) fun shared d hd _ h => ?_
        refine .bind (gives_operationsOf hoperation hS hQ hd path item h _) fun here e he _ hhere =>
          ?_
        refine .bind (ih he) fun os f hf hef hos => .pure hf ?_
        exact List.rel_append (hhere.imp fun _ _ h => hQ he hef h) hos

end

/-- What each operation is known to be, whatever was built before it. -/
theorem returns_operations_of {Q : Site → Operation → Prop}
    (hoperation : ∀ (x : Site) shared c,
      Returns (operation b x.path shared x.method x.operation) c fun o _ => Q x o)
    (paths : List (String × Document.PathItem)) :
    Returns (operations b paths) c fun os _ => List.Forall₂ Q (sites paths) os := by
  let Any (_ _ : Construction) : Prop := True
  have : IsPreorder Construction Any :=
    { refl := fun _ => trivial, trans := fun _ _ _ _ _ => trivial }
  have h : Gives (fun _ => True) Any (operations b paths) c
      fun os _ => List.Forall₂ Q (sites paths) os :=
    gives_operations (S := fun _ _ _ _ => True) (Q := fun x o _ => Q x o)
      (fun _ _ c _ => Ends.mono (Returns.any _ c) (fun _ _ _ => ⟨⟨trivial, trivial⟩, trivial⟩)
        fun _ _ h => h)
      (fun x shared c _ _ => Ends.mono (hoperation x shared c)
        (fun _ _ h => ⟨⟨trivial, trivial⟩, h⟩) fun _ _ h => h)
      (fun _ _ h => h) (fun _ _ h => h) trivial paths
  exact Ends.mono h (fun _ _ h => h.2) fun _ _ h => h

/-! ## The model -/

/-- The model of what has been built. -/
def handOut (api : Document.Api) (i : Init) (os : List Operation) : BuildWork Model := do
  let classes ← onSession Session.takeClasses
  let schemes ← Work.view fun c => c.schemes.values
  let warnings ← onSession Session.takeWarnings
  return {
    title := api.info.title
    version := api.info.version
    init := i
    securitySchemes := schemes
    operations := os
    modules := byModule classes
    warnings := warnings }

/-- What is known of the common parts, then of the operations, and stays true whatever comes of the
    component schemas, is known when the model is handed out. -/
theorem returns_model_of {api : Document.Api} {P : Init → Construction → Prop}
    {Q : Init → List Operation → Construction → Prop} {ok : Model → Construction → Prop}
    (hinit : Returns (init b api) c P)
    (hoperations : ∀ i d, P i d → Returns (operations b api.paths.entries) d (Q i))
    (hschemas : ∀ i os d names, Q i os d → Returns (componentSchemas b names) d fun _ => Q i os)
    (hmodel : ∀ i os d, Q i os d → Returns (handOut api i os) d ok) :
    Returns (model b api) c ok := by
  unfold model
  refine Returns.bind hinit fun i d hi => Returns.bind (hoperations i d hi) fun os e hos => ?_
  dsimp only
  split
  · split
    · exact Returns.bind (hschemas i os e _ hos) fun _ f hf => hmodel i os f hf
    · exact hmodel i os e hos
  · exact hmodel i os e hos

end Construction

/-- A model of a document is what a run of the builder gives on the typed objects. -/
theorem run_model_of_buildWithin {calls : Nat} {document : Json} {config : Config} {naming : Naming}
    {m : Model} (h : buildWithin calls document config naming = .ok m) :
    ∃ api c, readApi document = .ok api ∧
      (Construction.model ⟨document, config, naming, calls⟩ api).run .empty = (.ok m, c) := by
  unfold buildWithin at h
  split at h
  · cases h
  · next api hapi => exact ⟨api, _, hapi, Prod.ext h rfl⟩

end ApiModel.Client
