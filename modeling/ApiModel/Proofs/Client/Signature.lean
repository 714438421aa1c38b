/-
  ApiModel.Proofs.Client.Signature

  The signatures of operations. Every operation of a model is signed by the parameters that its path
  and it itself declare, those of the path first. The class of its header and cookie parameters is
  one of the model: it was registered under a new name, and no class is given up later.
-/
import ApiModel.Proofs.Client.Build
import ApiModel.Proofs.Client.Construction.Signature
import ApiModel.Proofs.Client.Walk

namespace ApiModel.Client

/-- The parameters that are declared for an operation: those of its path, followed by its own,
    without the headers that the settings ignore. -/
def Site.Declares (b : Setting) (x : Site) (ds : List ParameterAt) : Prop :=
  ∃ shared own : List ParameterAt,
    DeclaresAt b.document (((Pointer.root.push "paths").push x.path).push "parameters")
      x.item.parameters shared ∧
    DeclaresAt b.document
      ((((Pointer.root.push "paths").push x.path).push x.method.key).push "parameters")
      x.operation.parameters own ∧
    ds = (shared ++ own).filter (ParameterAt.counts b.config)

/-- The operation is the one that is declared at `x`, and is signed by the parameters that are
    declared for it. -/
structure Operation.SignedAt (b : Setting) (class? : TypeName → Option Class) (x : Site)
    (o : Operation) : Prop where
  path : o.path = x.path
  method : o.method = x.method
  operationId : x.operation.operationId = some o.operationId
  signs : ∃ ds, x.Declares b ds ∧ Signs b class? ds o.parameters

theorem Operation.SignedAt.mono {b : Setting} {class? class?' : TypeName → Option Class} {x : Site}
    {o : Operation} (h : o.SignedAt b class? x)
    (hfound : ∀ c, class? c.name = some c → class?' c.name = some c) : o.SignedAt b class?' x :=
  { h with signs := h.signs.imp fun _ h => ⟨h.1, h.2.mono hfound⟩ }

namespace Construction

open Work

variable {b : Setting} {c d : Construction} {place : Pointer}

/-! ## Steps that give up no class -/

theorem secured_of_secures {α : Type} {x : BuildWork α} {post : α → Construction → Prop}
    (hc : c.session.Reserved) (h : Returns x c fun a d => c.Secures d ∧ post a d) :
    Secured x c post :=
  Ends.mono h (fun _ _ h => ⟨⟨h.1.reserved hc, h.1⟩, h.2⟩) fun _ _ h => h

theorem secured_of_steady {α : Type} {x : BuildWork α} {post : α → Construction → Prop}
    (hc : c.session.Reserved) (hx : Obeys Steady x) (h : Returns x c post) : Secured x c post :=
  secured_of_secures hc (Ends.mono (Ends.and (Returns.of_obeys hx c) h)
    (fun _ _ h => ⟨h.1.secures, h.2⟩) fun _ _ _ => trivial)

/-! ## Operations -/

/-- The parameters are made of those that a list declares. -/
def MadeAt (b : Setting) (base : Pointer) (items : List (Document.OrRef Document.Parameter))
    (ps : List Parameter) : Prop :=
  ∃ ds : List ParameterAt, DeclaresAt b.document base items ds ∧
    List.Forall₂ (Parameter.MadeOf b) (ds.filter (ParameterAt.counts b.config)) ps

theorem secured_parametersFrom (hc : c.session.Reserved) (base : Pointer) (owner : String)
    (items : List (Document.OrRef Document.Parameter)) :
    Secured (parametersFrom b base owner 0 items) c fun ps _ => MadeAt b base items ps := by
  refine secured_of_steady hc (steady_parametersFrom _ _ 0 _)
    ((returns_parametersFrom base owner 0 items).mono fun ps _ h => ?_)
  simpa only [MadeAt, DeclaresAt, Nat.zero_add] using h

theorem secured_operation (hc : c.session.Reserved) (x : Site) {shared : List Parameter}
    (h : MadeAt b (((Pointer.root.push "paths").push x.path).push "parameters") x.item.parameters
      shared) :
    Secured (operation b x.path shared x.method x.operation) c fun o d =>
      o.SignedAt b d.session.classes.get? x := by
  obtain ⟨common, hcommon, hshared⟩ := h
  unfold operation
  refine .bind (secured_of_secures hc ((returns_claimId _ _ _).mono fun id d h =>
    ⟨h.2.secures, h.1⟩)) fun id d hd _ hid => ?_
  refine .bind (secured_parametersFrom hd _ _ _) ?_
  rintro ps e he - ⟨own, hown, hps⟩
  refine .bind (secured_signature he _ (List.rel_append hshared hps)) fun qs f hf _ hqs => ?_
  -- what is worked out after the signature gives up no class
  refine .bind (secured_of_steady hf (steady_optionalBody _ _) (.any _ _)) fun body g hg hfg _ => ?_
  refine .bind (secured_of_steady hg (steady_responses _ _ _) (.any _ _)) fun rs u hu hgu _ => ?_
  have hview : Returns (Work.view Construction.defaultSecurity) u fun r v =>
      r = u.defaultSecurity ∧ Advances [] [] u v := ⟨rfl, advances_refl u⟩
  refine .bind (secured_of_secures hu ((returns_demand hview _).mono fun r v h =>
    ⟨h.2.secures, trivial⟩)) fun security v hv huv _ => ?_
  have hfv : Secures f v := trans_of Secures hfg (trans_of Secures hgu huv)
  refine .pure hv ⟨rfl, rfl, hid, _, ⟨common, own, hcommon, hown, rfl⟩, ?_⟩
  rw [List.filter_append]
  exact hqs.mono fun k => hfv.classes hf k.name k

theorem secured_operations (hc : c.session.Reserved) (paths : List (String × Document.PathItem)) :
    Secured (operations b paths) c fun os d =>
      List.Forall₂ (Operation.SignedAt b d.session.classes.get?) (sites paths) os :=
  gives_operations
    (S := fun path item shared _ => MadeAt b
      (((Pointer.root.push "paths").push path).push "parameters") item.parameters shared)
    (Q := fun x o c => o.SignedAt b c.session.classes.get? x)
    (fun _ _ _ hc => secured_parametersFrom hc _ _ _)
    (fun x _ _ hc h => secured_operation hc x h) (fun _ _ h => h)
    (fun hc hcd h => h.mono fun k => hcd.classes hc k.name k) hc paths

/-! ## The model -/

/-- The operations of a model are signed as declared, once its classes can be found by name. -/
theorem returns_model_signed (api : Document.Api) :
    Returns (model b api) empty fun m _ => (∀ k ∈ m.classes, m.class? k.name = some k) →
      List.Forall₂ (Operation.SignedAt b m.class?) (sites api.paths.entries) m.operations := by
  refine returns_model_of
    (P := fun _ c => c.session.Reserved)
    (Q := fun _ os d => d.session.Reserved ∧
      List.Forall₂ (Operation.SignedAt b d.session.classes.get?) (sites api.paths.entries) os)
    ?_ ?_ ?_ ?_
  · exact (returns_init api).mono fun _ _ h => h.2.secures.reserved Session.reserved_empty
  · intro i c hc
    exact Ends.mono (secured_operations hc _) (fun _ _ h => ⟨h.1.1, h.2⟩) fun _ _ h => h
  · rintro i os d names ⟨hd, hos⟩
    refine (Returns.of_obeys (steady_componentSchemas names) d).mono fun _ e hde => ?_
    exact ⟨hde.secures.reserved hd, hos.imp fun _ _ h => h.mono fun k =>
      hde.secures.classes hd k.name k⟩
  · rintro i os d ⟨-, hos⟩ hfound
    refine hos.imp fun x o h => h.mono fun k hk => hfound k ?_
    exact (perm_byModule _).mem_iff.2 (Dict.mem_values_of_get? hk)

end Construction

/-- In every model, the operations are those of the paths, in order, and each is signed by the
    parameters that its path and it itself declare. References are followed, and ignored headers do
    not count. Of the declarations with the same location and name the last one counts, in the place
    of the first. Path and query parameters come first, in this order; if there is any header or
    cookie parameter, one metadata parameter follows, whose class has one field for each of them, in
    this order. No two parameters of an operation have the same name, and no two fields of the
    class. -/
theorem signatures_of_buildWithin {calls : Nat} {document : Json} {config : Config}
    {naming : Naming} {m : Model} (h : buildWithin calls document config naming = .ok m) :
    ∃ api, readApi document = .ok api ∧
      List.Forall₂ (Operation.SignedAt ⟨document, config, naming, calls⟩ m.class?)
        (sites api.paths.entries) m.operations := by
  obtain ⟨api, c, hapi, hrun⟩ := run_model_of_buildWithin h
  have hresolved := (Construction.ends_model Construction.closed_empty api).of_ok hrun
  exact ⟨api, hapi, (Construction.returns_model_signed api).of_ok hrun hresolved.found⟩

/-- A description with one operation that declares parameters of its own and shares those of its
    path: it replaces one by its like and one through a reference, and there are names that collide
    as they are and with a number. -/
def crossedParameters : Json :=
  let parameter (name place : String) (more : List (String × Json)) :=
    Json.obj ([("name", .str name), ("in", .str place)] ++ more)
  let shared := [parameter "id" "path" [], parameter "id" "query" [("required", .bool true)],
    parameter "X-Trace" "header" [], parameter "session" "cookie" []]
  let own := [parameter "id_2" "query" [], parameter "id" "query" [("description", .str "Mine.")],
    parameter "accept" "header" [], .obj [("$ref", .str "#/components/parameters/Trace")],
    parameter "metadata" "query" []]
  let trace := parameter "X-Trace" "header" [("required", .bool true)]
  .obj [("openapi", .str "3.0.0"),
    ("info", .obj [("title", .str "Pets"), ("version", .str "1")]),
    ("paths", .obj [("/pets/\x7bid\x7d", .obj [("parameters", .arr shared),
      ("get", .obj [("operationId", .str "get"), ("parameters", .arr own)])])]),
    ("components", .obj [("parameters", .obj [("Trace", trace)])])]

theorem signatures_crossedParameters :
    ∃ m, buildWithin 8 crossedParameters .standard .marked = .ok m ∧
      (∃ api, readApi crossedParameters = .ok api ∧
        List.Forall₂ (Operation.SignedAt ⟨crossedParameters, .standard, .marked, 8⟩ m.class?)
          (sites api.paths.entries) m.operations) ∧
      m.operations.map (fun o => o.parameters.map fun p => (p.name, p.wireName, p.required)) =
        [[("f_id", "id", true), ("f_id_2", "id", false), ("f_id_2_2", "id_2", false),
          ("f_metadata", "metadata", false), ("f_metadata_2", "metadata", true)]] ∧
      m.classes.map (fun c => c.fields.map fun f => (f.name, f.wireName, f.required)) =
        [[("f_X-Trace", "X-Trace", true), ("f_session", "session", false)]] := by
  have hrun : ((buildWithin 8 crossedParameters .standard .marked).toOption.map fun m =>
      (m.operations.map fun o => o.parameters.map fun p => (p.name, p.wireName, p.required),
        m.classes.map fun c => c.fields.map fun f => (f.name, f.wireName, f.required))) =
      some ([[("f_id", "id", true), ("f_id_2", "id", false), ("f_id_2_2", "id_2", false),
          ("f_metadata", "metadata", false), ("f_metadata_2", "metadata", true)]],
        [[("f_X-Trace", "X-Trace", true), ("f_session", "session", false)]]) := by
    -- the instance that decides a pair of nested lists is larger than the default allows
    set_option synthInstance.maxSize 400 in decide +kernel
  cases hm : buildWithin 8 crossedParameters .standard .marked with
  | error e => simp [hm, Except.toOption] at hrun
  | ok m =>
      rw [hm] at hrun
      obtain ⟨hparameters, hfields⟩ := Prod.mk.inj (Option.some.inj hrun)
      exact ⟨m, rfl, signatures_of_buildWithin hm, hparameters, hfields⟩

end ApiModel.Client
