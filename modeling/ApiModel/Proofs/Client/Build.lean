/-
  ApiModel.Proofs.Client.Build

  What a built model promises: it has a class for every class name in its types, and no two classes
  share a name. Types and classes come about in two traversals, each with a memo of its own; the walk
  over the builder shows that whatever a type names is registered as soon as the type is there, and
  that the classes which are handed out at the end name nothing that was left behind.
-/
import ApiModel.Proofs.Client.Construction.Parameters
import ApiModel.Proofs.Client.Construction.Responses
import ApiModel.Proofs.Client.Construction.Traversal

namespace ApiModel.Client

/-- Every class name in the types of a model is that of one of its classes, and classes and their
    names determine each other. -/
structure Model.Resolved (m : Model) : Prop where
  named : ∀ t ∈ m.types, ∀ n ∈ t.names, ∃ c ∈ m.classes, c.name = n ∧ m.class? n = some c
  found : ∀ c ∈ m.classes, m.class? c.name = some c
  distinct : (m.classes.map Class.name).Nodup

namespace Construction

open Work

variable {b : Setting} {c d : Construction} {place : Pointer}

/-! ## Security -/

theorem builds_schemePart {α : Type} (hc : c.Closed) (type field : String) (part : Option α) :
    Builds (schemePart place type field part) c fun _ _ => True := by
  unfold schemePart
  split
  · exact .pure hc trivial
  · exact .fault

theorem builds_schemeKind (hc : c.Closed) (s : Document.SecurityScheme) :
    Builds (schemeKind place s) c fun _ _ => True := by
  unfold schemeKind
  split
  · refine .bind (builds_schemePart hc _ _ _) fun _ d hd _ _ => ?_
    exact .bind (builds_schemePart hd _ _ _) fun _ e he _ _ => .pure he trivial
  · exact .bind (builds_schemePart hc _ _ _) fun _ d hd _ _ => .pure hd trivial
  · exact .pure hc trivial
  · exact .bind (builds_schemePart hc _ _ _) fun _ d hd _ _ => .pure hd trivial
  · exact .fault

theorem builds_useSchemes (hc : c.Closed) (names : List String) :
    Builds (useSchemes b names) c fun _ _ => True := by
  induction names generalizing c with
  | nil => exact .pure hc trivial
  | cons name rest ih =>
      unfold useSchemes useScheme
      refine .bind (Q := fun _ _ => True) (.view_bind ?_) fun _ d hd _ _ => ih hd
      split
      · exact .pure hc trivial
      · refine .bind (.ofExcept (Q := fun _ _ => True) hc fun _ _ => trivial) fun r d hd _ _ => ?_
        refine .bind (builds_schemeKind hd _) fun kind e he _ _ => ?_
        exact builds_modify he rfl

theorem builds_requirement (hc : c.Closed) (declared : List Document.Requirement) :
    Builds (some <$> requirement b declared) c fun _ _ => True := by
  have hread : Builds (requirement b declared) c fun _ _ => True :=
    .bind (builds_useSchemes hc _) fun _ _ hd _ _ => .pure hd trivial
  exact .bind hread fun _ _ hd _ _ => .pure hd trivial

/-! ## What all requests share -/

theorem builds_baseUrl (hc : c.Closed) (servers : List Document.Server) :
    Builds (baseUrl servers) c fun _ _ => True := by
  cases servers with
  | nil => exact .pure hc trivial
  | cons server others =>
      unfold baseUrl
      dsimp only
      split
      · exact .bind (builds_warn hc _) fun _ d hd _ _ => .pure hd trivial
      · exact .pure hc trivial

theorem builds_init (hc : c.Closed) (api : Document.Api) :
    Builds (init b api) c fun i d => ∀ t ∈ i.types, d.Registered t := by
  unfold init
  refine .bind (builds_parametersFrom hc _ _ 0 _) fun headers d hd _ hheaders => ?_
  refine .bind (builds_responses hd _ _ _) fun shared e he hde hshared => ?_
  refine .bind (Q := fun _ _ => True) ?_ fun security f hf hef _ => ?_
  · split
    · exact builds_requirement he _
    · exact .pure he trivial
  refine .bind (builds_modify hf rfl) fun _ g hg hfg _ => ?_
  refine .bind (builds_baseUrl hg _) fun url u hu hgu _ => .pure hu fun t ht => ?_
  have heu : Grows e u := trans_of Grows hef (trans_of Grows hfg hgu)
  rcases List.mem_append.1 ht with ht | ht
  · obtain ⟨p, hp, rfl⟩ := List.mem_map.1 ht
    exact (hheaders p hp).mono (trans_of Grows hde heu)
  · obtain ⟨r, hr, ht⟩ := List.mem_flatMap.1 ht
    exact (hshared r hr t ht).mono heu

/-! ## Operations -/

theorem builds_claimId (hc : c.Closed) (path : String) (method : Method)
    (op : Document.Operation) :
    Builds (claimId place path method op) c fun _ _ => True := by
  unfold claimId
  split
  · refine .view_bind ?_
    split
    · exact .fault
    · exact .bind (builds_modify hc rfl) fun _ d hd _ _ => .pure hd trivial
  · exact .fault

theorem builds_operation (hc : c.Closed) (path : String) {shared : List Parameter}
    (hshared : ∀ p ∈ shared, c.Registered p.type) (method : Method) (op : Document.Operation) :
    Builds (operation b path shared method op) c fun o d => ∀ t ∈ o.types, d.Registered t := by
  unfold operation
  refine .bind (builds_claimId hc path method op) fun id d hd hcd _ => ?_
  refine .bind (builds_parametersFrom hd _ _ 0 _) fun own e he hde hown => ?_
  refine .bind (builds_signature he _ ?_) fun parameters f hf _ hparameters => ?_
  -- the parameters are those of the path and those of the operation itself
  · intro p hp
    rcases List.mem_append.1 hp with hp | hp
    · exact (hshared p hp).mono (trans_of Grows hcd hde)
    · exact hown p hp
  refine .bind (Q := fun (body : Option RequestBody) g => ∀ x ∈ body, g.Registered x.type) ?_ ?_
  · split
    · exact builds_requestBody hf _ _
    · exact .pure hf (by rintro _ ⟨⟩)
  intro body g hg hfg hbody
  refine .bind (builds_responses hg _ _ _) fun rs u hu hgu hrs => ?_
  refine .bind (Q := fun _ _ => True) ?_ fun security v hv huv _ => .pure hv fun t ht => ?_
  · split
    · exact builds_requirement hu _
    · exact .view_bind (.pure hu trivial)
  -- every list of types was registered at its own step, and the table has only grown since
  have hgv : Grows g v := trans_of Grows hgu huv
  have hresponses : ∀ r ∈ rs, ∀ t ∈ r.types, v.Registered t := fun r hr t ht =>
    (hrs r hr t ht).mono huv
  simp only [Operation.types, List.mem_append, List.mem_map, List.mem_flatMap,
    List.mem_singleton, Option.mem_toList] at ht
  rcases ht with ((⟨p, hp, rfl⟩ | ⟨x, hx, rfl⟩) | ⟨r, hr, ht⟩) | rfl
  · exact (hparameters p hp).mono (trans_of Grows hfg hgv)
  · exact (hbody x hx).mono hgv
  · exact hresponses r hr t ht
  · exact registered_returnType hresponses

theorem builds_operations (hc : c.Closed) (paths : List (String × Document.PathItem)) :
    Builds (operations b paths) c fun os d => ∀ o ∈ os, ∀ t ∈ o.types, d.Registered t := by
  have hall := gives_operations (b := b) (I := Closed) (R := Grows)
    (S := fun _ _ shared c => ∀ p ∈ shared, c.Registered p.type)
    (Q := fun _ o c => ∀ t ∈ o.types, c.Registered t)
    (fun _ _ _ hc => builds_parametersFrom hc _ _ 0 _)
    (fun x _ _ hc hshared => builds_operation hc x.path hshared x.method x.operation)
    (fun _ hcd h p hp => (h p hp).mono hcd) (fun _ hcd h t ht => (h t ht).mono hcd) hc paths
  refine Ends.mono hall (fun os d h => ⟨h.1, ?_⟩) fun _ _ h => h
  have hflip : List.Forall₂ (fun o _ => (∀ t ∈ o.types, d.Registered t) ∧ True) os (sites paths) :=
    h.2.flip.imp fun _ _ ho => ⟨ho, trivial⟩
  exact ((List.forall₂_and_left _ _).1 hflip).1

/-! ## The model -/

theorem builds_componentSchemas (hc : c.Closed) (names : List String) :
    Builds (componentSchemas b names) c fun _ _ => True := by
  induction names generalizing c with
  | nil => exact .pure hc trivial
  | cons name rest ih =>
      unfold componentSchemas
      refine .bind (builds_serves hc (Session.serves_typeAt Arena.upheld_free hc.lawful
        hereditary_true trivial _ true)) fun t d hd _ _ => ?_
      dsimp only
      split
      -- a component that matches nothing gives a warning and no class
      · exact .bind (builds_warn hd _) fun _ e he _ _ => ih he
      · exact ih hd

/-- Classes are registered under their own names. -/
theorem map_name_values {s : Session} (hs : s.Classed) :
    s.classes.values.map Class.name = s.classes.keys := by
  unfold Dict.values Dict.keys
  rw [List.map_map]
  refine List.map_congr_left fun e he => ?_
  exact hs.named e.1 e.2 (Dict.get?_of_mem hs.keys he)

/-- The classes that are handed out are all that the types of a model need. -/
theorem Closed.resolved (hc : c.Closed) {m : Model}
    (hmodules : m.modules = byModule c.session.classes.values)
    (hinit : ∀ t ∈ m.init.types, c.Registered t)
    (hops : ∀ o ∈ m.operations, ∀ t ∈ o.types, c.Registered t) : m.Resolved := by
  have hclassed := hc.lawful.classed
  -- files and modules only order the classes anew
  have hperm : m.classes.Perm c.session.classes.values := by
    unfold Model.classes
    rw [hmodules]
    exact perm_byModule _
  have hdistinct : (m.classes.map Class.name).Nodup := by
    rw [(hperm.map Class.name).nodup_iff, map_name_values hclassed]
    exact hclassed.keys
  have hfound : ∀ k ∈ m.classes, m.class? k.name = some k := fun k hk =>
    Model.class?_eq_some (hmodules ▸ filed_byModule _) hdistinct hk
  -- what the operations name was registered there; what fields name leads to nothing new, since no
  -- form waits to be explored
  have hregistered : ∀ t ∈ m.types, c.Registered t := by
    intro t ht
    simp only [Model.types, List.mem_append, List.mem_flatMap] at ht
    rcases ht with (ht | ⟨o, ho, ht⟩) | ⟨k, hk, ht⟩
    · exact hinit t ht
    · exact hops o ho t ht
    · obtain ⟨f, hf, rfl⟩ := List.mem_map.1 ht
      obtain ⟨n, hget⟩ := Dict.get?_of_mem_values hclassed.keys (hperm.mem_iff.1 hk)
      exact fun i hi => hc.frontier.of_promised (hclassed.fields n k hget f hf i hi)
  refine ⟨fun t ht n hn => ?_, hfound, hdistinct⟩
  obtain ⟨k, hget⟩ := Option.isSome_iff_exists.1 (hregistered t ht n hn)
  have hk : k ∈ m.classes := hperm.mem_iff.2 (Dict.mem_values_of_get? hget)
  have hname : k.name = n := hclassed.named n k hget
  exact ⟨k, hk, hname, hname ▸ hfound k hk⟩

theorem ends_model (hc : c.Closed) (api : Document.Api) :
    (model b api).Ends c (fun m _ => m.Resolved) fun _ _ => True := by
  refine returns_model_of
    (P := fun i d => d.Closed ∧ ∀ t ∈ i.types, d.Registered t)
    (Q := fun i os d => d.Closed ∧ (∀ t ∈ i.types, d.Registered t) ∧
      ∀ o ∈ os, ∀ t ∈ o.types, d.Registered t) ?_ ?_ ?_ ?_
  · exact Ends.mono (builds_init hc api) (fun i d h => ⟨h.1.1, h.2⟩) fun _ _ h => h
  · rintro i d ⟨hd, hi⟩
    refine Ends.mono (builds_operations hd _) (fun os e h => ?_) fun _ _ h => h
    exact ⟨h.1.1, fun t ht => (hi t ht).mono h.1.2, h.2⟩
  · rintro i os d names ⟨hd, hi, hos⟩
    refine Ends.mono (builds_componentSchemas hd names) (fun _ e h => ?_) fun _ _ h => h
    exact ⟨h.1.1, fun t ht => (hi t ht).mono h.1.2, fun o ho t ht => (hos o ho t ht).mono h.1.2⟩
  · rintro i os d ⟨hd, hi, hos⟩
    exact hd.resolved rfl hi hos

end Construction

/-- In every model that is built, each class name that occurs in a type, be it the type of a
    parameter, of a body, of headers, of what an operation returns, of something that all requests
    share, or of a field of a class, is the name of a class of the model, and it is found by that
    name. No two classes have the same name. -/
theorem resolved_of_buildWithin {calls : Nat} {document : Json} {config : Config}
    {naming : Naming} {m : Model} (h : buildWithin calls document config naming = .ok m) :
    m.Resolved := by
  unfold buildWithin at h
  split at h
  · cases h
  · next api _ =>
      have hends := Construction.ends_model (b := ⟨document, config, naming, calls⟩)
        Construction.closed_empty api
      exact hends.of_ok (Prod.ext h rfl)

/-- A description with one operation, which returns the head of a linked list. -/
def linkedList : Json :=
  let link := Json.obj [("$ref", .str "#/components/schemas/Link")]
  let media := Json.obj [("application/json", .obj [("schema", link)])]
  let response := Json.obj [("description", .str "The head."), ("content", media)]
  let operation := Json.obj [("operationId", .str "head"), ("responses", .obj [("200", response)])]
  let schema := Json.obj [("type", .str "object"), ("properties", .obj [("next", link)])]
  .obj [("openapi", .str "3.0.0"),
    ("info", .obj [("title", .str "Lists"), ("version", .str "1")]),
    ("paths", .obj [("/head", .obj [("get", operation)])]),
    ("components", .obj [("schemas", .obj [("Link", schema)])])]

/-- The class of its links. -/
def linkName : TypeName := ⟨["m_components", "m_schemas"], "CLink"⟩

theorem resolved_linkedList : ∃ m, buildWithin 8 linkedList .standard .marked = .ok m ∧
    linkName ∈ m.types.flatMap TypeExpr.names ∧ ∃ c, m.class? linkName = some c := by
  have hnames : ((buildWithin 8 linkedList .standard .marked).toOption.map fun m =>
      m.types.flatMap TypeExpr.names) = some [linkName, linkName, linkName] := by decide +kernel
  cases hm : buildWithin 8 linkedList .standard .marked with
  | error e => simp [hm, Except.toOption] at hnames
  | ok m =>
      rw [hm] at hnames
      have hall : m.types.flatMap TypeExpr.names = [linkName, linkName, linkName] :=
        Option.some.inj hnames
      have hmem : linkName ∈ m.types.flatMap TypeExpr.names := hall ▸ List.mem_cons_self
      obtain ⟨t, ht, hn⟩ := List.mem_flatMap.1 hmem
      obtain ⟨c, -, -, hc⟩ := (resolved_of_buildWithin hm).named t ht linkName hn
      exact ⟨m, rfl, hmem, c, hc⟩

end ApiModel.Client
