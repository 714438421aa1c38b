/-
  ApiModel.Proofs.Client.Construction.Steady

  The steps for the parts of an operation. Parameters, bodies and responses are worked out in the
  session alone: whatever comes of such a step, the security schemes, the operation ids and the
  default requirement stay as they are. The session stays tidy, as every class that is registered
  on the way has distinct fields or gathers the headers of a response, and keeps the classes that
  have been registered before.
-/
import ApiModel.Client.Build
import ApiModel.Proofs.Schema.Field
import ApiModel.Proofs.Schema.Reserved

namespace ApiModel.Client.Construction

open Work

variable {b : Setting} {place : Pointer}

/-- Only the session may differ between `c` and `d`; it is still tidy if it was, and no class is
    given up. -/
structure Steady (c d : Construction) : Prop where
  schemes : d.schemes = c.schemes
  operationIds : d.operationIds = c.operationIds
  defaultSecurity : d.defaultSecurity = c.defaultSecurity
  tidies : c.session.Tidies d.session
  secures : c.session.Secures d.session

instance : IsPreorder Construction Steady where
  refl c := ⟨rfl, rfl, rfl, refl_of Session.Tidies c.session, refl_of Session.Secures c.session⟩
  trans _ _ _ h h' := ⟨h'.schemes.trans h.schemes, h'.operationIds.trans h.operationIds,
    h'.defaultSecurity.trans h.defaultSecurity, trans_of Session.Tidies h.tidies h'.tidies,
    trans_of Session.Secures h.secures h'.secures⟩

/-! ## Steps of the session -/

theorem steady_onSession {α : Type} {x : SessionWork α} (h : Obeys Session.Tidies x)
    (h' : Obeys Session.Secures x) : Obeys Steady (onSession x) :=
  (h.and h').focus fun _ _ hs => ⟨rfl, rfl, rfl, hs.1, hs.2⟩

theorem steady_warn (w : Warning) : Obeys Steady (warn w) :=
  steady_onSession (Session.obeys_warn Session.allows_tidies.toAllowsWork w)
    (Session.obeys_warn Session.allowsWork_secures w)

theorem steady_typeAt (required : Bool) :
    Obeys Steady (onSession (Session.typeAt b.document b.calls b.naming place required)) :=
  steady_onSession (Session.tidies_typeAt _ _) (Session.secures_typeAt _ _)

theorem steady_schemaType (required : Bool) (hint : String) :
    Obeys Steady (schemaType b place required hint) := by
  unfold schemaType
  have hsuggest : Obeys Steady (onSession (Session.suggest place hint)) :=
    steady_onSession (.modify fun _ hs => hs) (.modify fun _ => Session.secures_of_eq rfl rfl rfl)
  refine .bind hsuggest fun _ => .bind (steady_typeAt _) fun type => ?_
  split
  · exact .pure _
  · exact .bind (steady_warn _) fun _ => .pure _

theorem steady_payload (schema : Option Json) (content : Option Document.Content)
    (required : Bool) (hint : String) :
    Obeys Steady (payload b place schema content required hint) := by
  unfold payload
  split
  · exact .fault _
  · exact .bind (steady_schemaType _ _) fun _ => .pure _
  · exact .pure _
  · split
    · exact .pure _
    · split
      · exact .bind (steady_schemaType _ _) fun _ => .pure _
      · exact .pure _
    · exact .fault _

/-- A class for header or cookie values is registered under a new name. -/
theorem run_syntheticClass (b : Setting) (place : Pointer) (base : String) (fields : List Field)
    (allowExtra : Bool) (c : Construction) :
    ∃ n, n ∉ c.session.takenNames ∧ (syntheticClass b place base fields allowExtra).run c =
      (.ok n, { c with session := { c.session with
        takenNames := c.session.takenNames ++ [n]
        classes := c.session.classes.insert n {
          name := n, base := .metadata, allowExtra := allowExtra, description := none,
          fields := fields, pointer := place } } }) := by
  refine ⟨_, firstFree_not_mem (fun i j hij => ?_) _, rfl⟩
  exact numbered_injective _ _ (congrArg TypeName.name hij)

/-- Only the class of the headers of a response may have fields of one name. -/
theorem steady_syntheticClass (base : String) {fields : List Field} {allowExtra : Bool}
    (h : allowExtra = true ∨ (fields.map Field.name).Nodup) :
    Obeys Steady (syntheticClass b place base fields allowExtra) := by
  intro c
  obtain ⟨n, hn, hrun⟩ := run_syntheticClass b place base fields allowExtra c
  rw [hrun]
  refine ⟨rfl, rfl, rfl, fun hs => ?_, Session.secures_register hn _⟩
  refine Session.tidies_register (c := ⟨n, .metadata, allowExtra, none, fields, place⟩) ?_ _ hs
  exact h.imp_left fun hextra => ⟨rfl, hextra⟩

/-! ## Parameters -/

theorem steady_parameter (item : Document.OrRef Document.Parameter) (owner : String) :
    Obeys Steady (parameter b item place owner) := by
  have hlocation : ∀ place word, Obeys Steady (readLocation place word) := by
    intro place word
    unfold readLocation
    split
    · exact .pure _
    · exact .fault _
  have hstyle : ∀ place location word, Obeys Steady (readStyle place location word) := by
    intro place location word
    unfold readStyle
    split
    · exact .pure _
    · split
      · exact .pure _
      · exact .fault _
  unfold parameter
  refine .bind (.ofExcept _) fun r => .bind (hlocation _ _) fun location => ?_
  split
  · exact .bind (steady_warn _) fun _ => .pure _
  · exact .bind (steady_payload _ _ _ _) fun r => .bind (hstyle _ _ _) fun _ => .pure _

theorem steady_parametersFrom (base : Pointer) (owner : String) (i : Nat)
    (items : List (Document.OrRef Document.Parameter)) :
    Obeys Steady (parametersFrom b base owner i items) := by
  induction items generalizing i with
  | nil => exact .pure _
  | cons item rest ih =>
      exact .bind (steady_parameter item owner) fun p => .bind (ih _) fun ps => .pure _

theorem not_mem_of_mem_distinctNames {taken names : List String} {name : String}
    (h : name ∈ distinctNames taken names) : name ∉ taken := by
  induction names generalizing taken with
  | nil => cases h
  | cons first rest ih =>
      rcases List.mem_cons.1 h with rfl | h
      · exact firstFree_not_mem (numbered_injective _ _) _
      · exact fun htaken => ih h (List.mem_cons_of_mem _ htaken)

theorem nodup_distinctNames (taken names : List String) : (distinctNames taken names).Nodup := by
  induction names generalizing taken with
  | nil => exact List.nodup_nil
  | cons first rest ih =>
      -- the names that follow are apart from those taken, among which this one is then
      exact List.nodup_cons.2
        ⟨fun h => not_mem_of_mem_distinctNames h List.mem_cons_self, ih _⟩

theorem length_distinctNames (taken names : List String) :
    (distinctNames taken names).length = names.length := by
  induction names generalizing taken with
  | nil => rfl
  | cons first rest ih => exact congrArg Nat.succ (ih _)

theorem map_name_rename {ps : List Parameter} {names : List String}
    (h : names.length = ps.length) : (rename ps names).map Parameter.name = names := by
  unfold rename
  induction ps generalizing names with
  | nil => exact (List.length_eq_zero_iff.1 h).symm
  | cons p ps ih =>
      cases names with
      | nil => cases h
      | cons name names => exact congrArg (name :: ·) (ih (Nat.succ.inj h))

theorem steady_signature (classBase : String) (ps : List Parameter) :
    Obeys Steady (signature b place classBase ps) := by
  have hmetadata : ∀ (name : String) metadata,
      Obeys Steady (metadataParameter b place classBase name metadata) := by
    intro name metadata
    refine .bind (steady_syntheticClass _ (.inr ?_)) fun _ => .pure _
    rw [List.map_map]
    show ((rename metadata (distinctNames [] _)).map Parameter.name).Nodup
    rw [map_name_rename (by rw [length_distinctNames, List.length_map])]
    exact nodup_distinctNames _ _
  unfold signature
  dsimp only
  split
  · exact .pure _
  · exact .bind (hmetadata _ _) fun _ => .pure _

/-! ## Bodies and responses -/

theorem steady_requestBody (item : Document.OrRef Document.RequestBody) (classBase : String) :
    Obeys Steady (requestBody b item place classBase) := by
  unfold requestBody
  refine .bind (.ofExcept _) fun r => ?_
  dsimp only
  split
  · split
    · exact .bind (steady_schemaType _ _) fun _ => .pure _
    · exact .pure _
  · exact .pure _

theorem steady_optionalBody (item : Option (Document.OrRef Document.RequestBody))
    (classBase : String) :
    Obeys Steady (match item with
      | some item => requestBody b item place classBase
      | none => pure none) := by
  cases item with
  | none => exact .pure _
  | some item => exact steady_requestBody item classBase

theorem steady_headerFields (base : Pointer) (stem : String)
    (headers : List (String × Document.OrRef Document.Header)) :
    Obeys Steady (headerFields b base stem headers) := by
  induction headers with
  | nil => exact .pure _
  | cons header rest ih =>
      obtain ⟨wireName, item⟩ := header
      unfold headerFields
      split
      · exact .bind (steady_warn _) fun _ => ih
      · exact .bind (.ofExcept _) fun r => .bind (steady_payload _ _ _ _) fun t =>
          .bind ih fun fields => .pure _

theorem steady_responseHeaders (headers : Dict String (Document.OrRef Document.Header))
    (stem : String) : Obeys Steady (responseHeaders b headers place stem) := by
  unfold responseHeaders
  refine .bind (steady_headerFields _ _ _) fun fields => ?_
  split
  · exact .pure _
  · exact .bind (steady_syntheticClass _ (.inl rfl)) fun _ => .pure _

theorem steady_responseBody (content : Document.Content) (stem : String) :
    Obeys Steady (responseBody b content place stem) := by
  unfold responseBody
  split
  · exact .pure _
  · split
    · exact .bind (steady_schemaType _ _) fun _ => .pure _
    · exact .pure _

theorem steady_responses (base : Pointer) (classBase : String)
    (items : List (String × Document.OrRef Document.Response)) :
    Obeys Steady (responses b base classBase items) := by
  have hresponse : ∀ key item place, Obeys Steady (response b key item place classBase) := by
    intro key item place
    unfold response
    split
    · refine .bind (.ofExcept _) fun r => .bind (steady_responseBody _ _) fun body => ?_
      exact .bind (steady_responseHeaders _ _) fun metadata => .pure _
    · exact .fault _
  induction items with
  | nil => exact .pure _
  | cons item rest ih => exact .bind (hresponse _ _ _) fun r => .bind ih fun rs => .pure _

/-! ## What all operations share -/

theorem steady_baseUrl (servers : List Document.Server) : Obeys Steady (baseUrl servers) := by
  cases servers with
  | nil => exact .pure _
  | cons server others =>
      unfold baseUrl
      dsimp only
      split
      · exact .bind (steady_warn _) fun _ => .pure _
      · exact .pure _

theorem steady_componentSchemas (names : List String) :
    Obeys Steady (componentSchemas b names) := by
  induction names with
  | nil => exact .pure _
  | cons name rest ih =>
      unfold componentSchemas
      refine .bind (steady_typeAt _) fun t => ?_
      dsimp only
      split
      · exact .bind (steady_warn _) fun _ => ih
      · exact ih

end ApiModel.Client.Construction
