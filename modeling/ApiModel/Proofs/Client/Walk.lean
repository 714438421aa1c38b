/-
  ApiModel.Proofs.Client.Walk

  The walk over the paths. Each declared operation is made once, in the order of the declarations:
  it claims its id, has its parts worked out and takes its own requirement or that of the whole
  description. `built_of_buildWithin` gathers what this makes of a model.
-/
import ApiModel.Proofs.Client.Construction.Requirements
import ApiModel.Proofs.Client.Construction.Traversal
import ApiModel.Proofs.Client.Model

namespace ApiModel.Client

/-- `o` is what a description with a common requirement makes of a typed operation. -/
structure Made (naming : Naming) (common : Option Requirement)
    (e : Declaration Document.Operation) (o : Operation) : Prop where
  path : o.path = e.path
  method : o.method = e.method
  operationId : e.operation.operationId = some o.operationId
  name : o.name = naming.operationName o.operationId
  security : o.security = Construction.demand common e.operation.security

/-- The names of the schemes that typed operations demand themselves. -/
def ownNames (es : List (Declaration Document.Operation)) : List String :=
  es.flatMap fun e => Construction.demandedNames e.operation.security

/-- `m` is what a description makes: its operations are those of the paths, and the security schemes
    are those named by a requirement. -/
structure Built (naming : Naming) (api : Document.Api) (m : Model) : Prop where
  operations : List.Forall₂ (Made naming m.init.defaultSecurity)
    (typedOperations api.paths.entries) m.operations
  distinct : (m.operations.map Operation.operationId).Nodup
  common : m.init.defaultSecurity = Construction.demand none api.security
  schemes : (m.securitySchemes.map SecurityScheme.name).Nodup
  scheme : ∀ n, n ∈ m.securitySchemes.map SecurityScheme.name ↔
    n ∈ Construction.demandedNames api.security ∨ n ∈ ownNames (typedOperations api.paths.entries)
  tidy : ∀ c ∈ m.classes, c.GathersHeaders ∨ c.Unambiguous

namespace Construction

open Work

variable {b : Setting} {c d : Construction} {place : Pointer}

/-! ## Operations -/

theorem advances_claim {id : String} (h : id ∉ c.operationIds) :
    Advances [id] [] c { c with operationIds := c.operationIds ++ [id] } where
  operationIds := rfl
  distinct hc := hc.append (List.nodup_singleton id) fun x hx hid =>
    h (List.mem_singleton.1 hid ▸ hx)
  scheme n := by rw [List.mem_nil_iff, or_false]
  indexed hc := ⟨hc.keys, hc.named⟩
  defaultSecurity := rfl
  tidies hs := hs
  secures := refl_of Session.Secures c.session

/-- The id of an operation must be given, and no earlier operation may have it. -/
theorem returns_claimId (path : String) (method : Method) (op : Document.Operation) :
    Returns (claimId place path method op) c fun id d =>
      op.operationId = some id ∧ Advances [id] [] c d := by
  unfold claimId
  split
  · next id hid =>
      refine .view_bind ?_
      split
      · exact .fault
      · next hnew => exact ⟨hid, advances_claim (by simpa using hnew)⟩
  · exact .fault

/-- An operation claims its id and uses the schemes of its own requirement, nothing else. -/
theorem returns_operation (path : String) (shared : List Parameter) (method : Method)
    (op : Document.Operation) :
    Returns (operation b path shared method op) c fun o d =>
      Made b.naming c.defaultSecurity ⟨path, method, op⟩ o ∧
        Advances [o.operationId] (demandedNames op.security) c d := by
  unfold operation
  refine .bind (returns_claimId path method op) ?_
  rintro id d ⟨hid, hcd⟩
  -- the parts of the operation concern the session alone
  refine .bind (.of_obeys (steady_parametersFrom _ _ 0 _) d) fun own e hde => ?_
  refine .bind (.of_obeys (steady_signature _ _) e) fun parameters f hef => ?_
  refine .bind (.of_obeys (steady_optionalBody _ _) f) fun body g hfg => ?_
  refine .bind (.of_obeys (steady_responses _ _ _) g) fun rs u hgu => ?_
  have hcu : Advances [id] [] c u :=
    (((hcd.steady hde).steady hef).steady hfg).steady hgu
  have hcommon : Returns (Work.view Construction.defaultSecurity) u fun r v =>
      r = c.defaultSecurity ∧ Advances [] [] u v := ⟨hcu.defaultSecurity, advances_refl u⟩
  refine .bind (returns_demand hcommon _) ?_
  rintro security v ⟨hr, huv⟩
  exact .pure ⟨⟨rfl, rfl, hid, rfl, hr⟩, hcu.trans huv⟩

theorem returns_operationsOf (path : String) (shared : List Parameter)
    (ops : List (Method × Document.Operation)) {es : List (Declaration Document.Operation)}
    (hes : es = ops.map fun (m, op) => ⟨path, m, op⟩) :
    Returns (operationsOf b path shared ops) c fun os d =>
      List.Forall₂ (Made b.naming c.defaultSecurity) es os ∧
        Advances (os.map Operation.operationId) (ownNames es) c d := by
  subst hes
  induction ops generalizing c with
  | nil => exact ⟨.nil, advances_refl c⟩
  | cons op rest ih =>
      obtain ⟨method, op⟩ := op
      unfold operationsOf
      refine .bind (returns_operation path shared method op) ?_
      rintro o d ⟨ho, hcd⟩
      refine .bind ih ?_
      rintro os e ⟨hos, hde⟩
      rw [hcd.defaultSecurity] at hos
      exact .pure ⟨.cons ho hos, hcd.trans hde⟩

theorem returns_operations (paths : List (String × Document.PathItem)) :
    Returns (operations b paths) c fun os d =>
      List.Forall₂ (Made b.naming c.defaultSecurity) (typedOperations paths) os ∧
        Advances (os.map Operation.operationId) (ownNames (typedOperations paths)) c d := by
  induction paths generalizing c with
  | nil => exact ⟨.nil, advances_refl c⟩
  | cons path rest ih =>
      obtain ⟨path, item⟩ := path
      have htyped : typedOperations ((path, item) :: rest) =
          typedOperationsOf path item ++ typedOperations rest := rfl
      unfold operations
      dsimp only
      split
      · next hempty =>
          -- a path without operations adds nothing
          have hnone : typedOperationsOf path item = [] := by
            rw [typedOperationsOf, List.isEmpty_iff.1 hempty, List.map_nil]
          rw [htyped, hnone]
          exact ih
      · refine .bind (.of_obeys (steady_parametersFrom _ _ 0 _) c) fun shared d hcd => ?_
        refine .bind (returns_operationsOf path shared _ rfl) ?_
        rintro here e ⟨hhere, hde⟩
        refine .bind ih ?_
        rintro os f ⟨hos, hef⟩
        rw [hcd.defaultSecurity] at hhere
        rw [hde.defaultSecurity, hcd.defaultSecurity] at hos
        refine .pure ?_
        rw [htyped, List.map_append, ownNames, List.flatMap_append]
        exact ⟨List.rel_append hhere hos, hcd.advances.trans (hde.trans hef)⟩

/-! ## The model -/

/-- The common requirement is recorded where the account starts from. -/
theorem Advances.record {ids names : List String} (h : Advances ids names c d)
    (r : Option Requirement) :
    Advances ids names { c with defaultSecurity := r } { d with defaultSecurity := r } where
  operationIds := h.operationIds
  distinct := h.distinct
  scheme := h.scheme
  indexed hc := ⟨(h.indexed ⟨hc.keys, hc.named⟩).keys, (h.indexed ⟨hc.keys, hc.named⟩).named⟩
  defaultSecurity := rfl
  tidies := h.tidies
  secures := h.secures

theorem returns_init (api : Document.Api) :
    Returns (init b api) c fun i d => i.defaultSecurity = demand none api.security ∧
      Advances [] (demandedNames api.security)
        { c with defaultSecurity := i.defaultSecurity } d := by
  unfold init
  refine .bind (.of_obeys (steady_parametersFrom _ _ 0 _) c) fun headers d hcd => ?_
  refine .bind (.of_obeys (steady_responses _ _ _) d) fun shared e hde => ?_
  have hce : Advances [] [] c e := (trans_of Steady hcd hde).advances
  have hnone : Returns (pure none : BuildWork (Option Requirement)) e fun r f =>
      r = none ∧ Advances [] [] e f := ⟨rfl, advances_refl e⟩
  refine .bind (returns_demand hnone _) ?_
  rintro r f ⟨hr, hef⟩
  have hrecord : Returns (Work.modify fun c => { c with defaultSecurity := r }) f
      fun _ g => g = { f with defaultSecurity := r } := rfl
  refine .bind hrecord ?_
  rintro _ g rfl
  refine .bind (.of_obeys (steady_baseUrl _) _) fun url g hfg => .pure ⟨hr, ?_⟩
  exact ((hce.trans hef).record r).steady hfg

theorem returns_model (api : Document.Api) :
    Returns (model b api) empty fun m _ => Built b.naming api m := by
  refine returns_model_of
    (P := fun i c => i.defaultSecurity = demand none api.security ∧
      Advances [] (demandedNames api.security)
        { empty with defaultSecurity := i.defaultSecurity } c)
    (Q := fun i os d => i.defaultSecurity = demand none api.security ∧
      List.Forall₂ (Made b.naming i.defaultSecurity) (typedOperations api.paths.entries) os ∧
      Advances (os.map Operation.operationId)
        (demandedNames api.security ++ ownNames (typedOperations api.paths.entries))
        { empty with defaultSecurity := i.defaultSecurity } d) (returns_init api) ?_ ?_ ?_
  · rintro i c ⟨hcommon, hc⟩
    refine (returns_operations _).mono fun os d h => ⟨hcommon, ?_, hc.trans h.2⟩
    have hsecurity : c.defaultSecurity = i.defaultSecurity := hc.defaultSecurity
    rw [← hsecurity]
    exact h.1
  · rintro i os d names ⟨hcommon, hos, hd⟩
    exact (Returns.of_obeys (steady_componentSchemas names) d).mono fun _ e hde =>
      ⟨hcommon, hos, hd.steady hde⟩
  · rintro i os e ⟨hcommon, hos, he⟩
    have hindexed := he.indexed ⟨indexed_empty.keys, indexed_empty.named⟩
    have hids : e.operationIds = os.map Operation.operationId := he.operationIds
    refine ⟨hos, hids ▸ he.distinct List.nodup_nil, hcommon, ?_, fun n => ?_, fun k hk => ?_⟩
    · show (e.schemes.values.map SecurityScheme.name).Nodup
      rw [hindexed.map_name]
      exact hindexed.keys
    · show n ∈ e.schemes.values.map SecurityScheme.name ↔ _
      rw [hindexed.map_name, he.scheme, List.mem_append]
      exact ⟨fun h => h.elim (fun h => by cases h) id, .inr⟩
    · have hvalue : k ∈ e.session.classes.values := (perm_byModule _).mem_iff.1 hk
      obtain ⟨entry, hentry, rfl⟩ := List.mem_map.1 hvalue
      exact he.tidies Session.tidy_empty entry hentry

end Construction

/-! ## Models of documents -/

theorem forall₂_comp {α β γ : Type} {R : α → β → Prop} {S : β → γ → Prop} {as : List α}
    {bs : List β} {cs : List γ} (h : List.Forall₂ R as bs) (h' : List.Forall₂ S bs cs) :
    List.Forall₂ (fun a c => ∃ b, R a b ∧ S b c) as cs := by
  induction h generalizing cs with
  | nil =>
      cases h'
      exact .nil
  | cons hab _ ih =>
      cases h' with
      | cons hbc h' => exact .cons ⟨_, hab, hbc⟩ (ih h')

/-- What the operations that a document declares are made into. -/
theorem Built.declared {document : Json} {api : Document.Api} {naming : Naming} {m : Model}
    (h : Built naming api m) (hread : readApi document = .ok api) :
    List.Forall₂ (fun d o => ∃ e, d.ReadAs e ∧ Made naming m.init.defaultSecurity e o)
      (declarations document) m.operations :=
  forall₂_comp (forall₂_declarations hread) h.operations

theorem built_of_buildWithin {calls : Nat} {document : Json} {config : Config} {naming : Naming}
    {m : Model} (h : buildWithin calls document config naming = .ok m) :
    ∃ api, readApi document = .ok api ∧ Built naming api m := by
  obtain ⟨api, c, hapi, hrun⟩ := run_model_of_buildWithin h
  exact ⟨api, hapi, (Construction.returns_model api).of_ok hrun⟩

end ApiModel.Client
