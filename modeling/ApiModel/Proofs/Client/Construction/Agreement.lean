/-
  ApiModel.Proofs.Client.Construction.Agreement

  Building from two descriptions that are alike as far as the builder looks. It looks below `paths`
  and below the common headers and responses, at the security schemes, and wherever references lead
  from there. As long as the descriptions are alike in all these places, and the settings in what the
  operations depend on, whatever can be built from the first is built from the second.
-/
import ApiModel.Client.Build
import ApiModel.Proofs.Schema.Agreement

namespace ApiModel.Client

/-- The description shows the same in both settings at the places of `Seen`, and the settings differ
    at most in what becomes of the component schemas. -/
structure Setting.Alike (Seen : Pointer → Prop) (b b' : Setting) : Prop where
  document : Document.Alike Seen b.document b'.document
  supply : Session.loadBound b.document ≤ Session.loadBound b'.document
  naming : b'.naming = b.naming
  calls : b'.calls = b.calls
  preferred : b'.config.preferredMediaTypes = b.config.preferredMediaTypes
  ignored : b'.config.ignoredHeaders = b.config.ignoredHeaders
  outside : ∀ p first rest, p.segments = first :: rest → first ≠ "components" → Seen p
  scheme : ∀ name, Seen (((Pointer.root.push "components").push "securitySchemes").push name)

/-- A response, in place or at the end of a reference, whose references and those of its headers
    stay among the places of `Seen`. -/
structure ResponseStaysIn (Seen : Pointer → Prop) (document : Json)
    (item : Document.OrRef Document.Response) : Prop where
  self : item.StaysIn Seen
  header : ∀ place target r, Document.resolveItem document Document.Response.shape item place =
    .ok (target, r) → ∀ e ∈ r.headers.entries, e.2.StaysIn Seen

/-- An operation whose references stay among the places of `Seen`. -/
structure OperationStaysIn (Seen : Pointer → Prop) (document : Json)
    (op : Document.Operation) : Prop where
  parameters : ∀ item ∈ op.parameters, item.StaysIn Seen
  body : ∀ item, op.requestBody = some item → item.StaysIn Seen
  responses : ∀ e ∈ op.responses.entries, ResponseStaysIn Seen document e.2

/-- The references of the paths of a description, and of what all requests share, stay among the
    places of `Seen`. -/
structure ApiStaysIn (Seen : Pointer → Prop) (document : Json) (api : Document.Api) : Prop where
  headers : ∀ item ∈ api.globalHeaders, item.StaysIn Seen
  responses : ∀ e ∈ api.globalResponses.entries, ResponseStaysIn Seen document e.2
  shared : ∀ e ∈ api.paths.entries, ∀ item ∈ e.2.parameters, item.StaysIn Seen
  operations : ∀ e ∈ api.paths.entries, ∀ o ∈ Method.declared e.2,
    OperationStaysIn Seen document o.2

namespace Construction

open Work

variable {Seen : Pointer → Prop} {b b' : Setting} {place : Pointer}

/-! ## Types -/

theorem agrees_onSession {α : Type} {x y : SessionWork α} (h : Agrees x y) :
    Agrees (onSession x) (onSession y) := h.focus

theorem agrees_schemaType (h : Setting.Alike Seen b b') (hplace : Seen place) (required : Bool)
    (hint : String) :
    Agrees (schemaType b place required hint) (schemaType b' place required hint) := by
  unfold schemaType
  rw [h.naming, h.calls]
  refine (Agrees.refl _).bind fun _ => ?_
  exact (agrees_onSession (Session.agrees_typeAt h.document h.supply hplace _ _ _)).bind_refl _

theorem seen_mediaSchema (h : Setting.Alike Seen b b') (hplace : Seen place) (media : String) :
    Seen (mediaSchema place media) :=
  h.document.push _ _ (h.document.push _ _ (h.document.push _ _ hplace))

theorem agrees_payload (h : Setting.Alike Seen b b') (hplace : Seen place) (schema : Option Json)
    (content : Option Document.Content) (required : Bool) (hint : String) :
    Agrees (payload b place schema content required hint)
      (payload b' place schema content required hint) := by
  unfold payload
  split
  · exact .refl _
  · exact (agrees_schemaType h (h.document.push _ _ hplace) _ _).bind_refl _
  · exact .refl _
  · split
    · exact .refl _
    · split
      · exact (agrees_schemaType h (seen_mediaSchema h hplace _) _ _).bind_refl _
      · exact .refl _
    · exact .refl _

theorem syntheticClass_eq (h : Setting.Alike Seen b b') (base : String) (fields : List Field)
    (allowExtra : Bool) :
    syntheticClass b' place base fields allowExtra = syntheticClass b place base fields allowExtra := by
  unfold syntheticClass
  rw [h.naming]

theorem ignoresHeader_eq (h : Setting.Alike Seen b b') (name : String) :
    b'.config.ignoresHeader name = b.config.ignoresHeader name := by
  unfold Config.ignoresHeader
  rw [h.ignored]

theorem pickMedia_eq (h : Setting.Alike Seen b b') (content : Document.Content) :
    pickMedia b'.config content = pickMedia b.config content := by
  unfold pickMedia
  rw [h.preferred]

/-! ## Parameters -/

theorem agrees_parameter (h : Setting.Alike Seen b b')
    {item : Document.OrRef Document.Parameter} (hitem : item.StaysIn Seen) (hplace : Seen place)
    (owner : String) : Agrees (parameter b item place owner) (parameter b' item place owner) := by
  unfold parameter
  refine .ofExcept_bind fun ⟨target, p⟩ hres => ?_
  obtain ⟨hres', htarget⟩ := h.document.resolveItem hitem hplace hres
  refine ⟨hres', (Agrees.refl _).bind fun location => ?_⟩
  rw [ignoresHeader_eq h, h.naming]
  split
  · exact .refl _
  · exact (agrees_payload h htarget _ _ _ _).bind_refl _

theorem agrees_parametersFrom (h : Setting.Alike Seen b b') (hplace : Seen place) (owner : String)
    (i : Nat) {items : List (Document.OrRef Document.Parameter)}
    (hitems : ∀ item ∈ items, item.StaysIn Seen) :
    Agrees (parametersFrom b place owner i items) (parametersFrom b' place owner i items) := by
  induction items generalizing i with
  | nil => exact .refl _
  | cons item rest ih =>
      rw [List.forall_mem_cons] at hitems
      refine (agrees_parameter h hitems.1 (h.document.push _ _ hplace) owner).bind fun p => ?_
      exact (ih (i + 1) hitems.2).bind_refl _

theorem signature_eq (h : Setting.Alike Seen b b') (classBase : String) (ps : List Parameter) :
    signature b' place classBase ps = signature b place classBase ps := by
  unfold signature metadataParameter
  simp only [syntheticClass_eq h, h.naming]

/-! ## Bodies and responses -/

theorem agrees_requestBody (h : Setting.Alike Seen b b')
    {item : Document.OrRef Document.RequestBody} (hitem : item.StaysIn Seen) (hplace : Seen place)
    (classBase : String) :
    Agrees (requestBody b item place classBase) (requestBody b' item place classBase) := by
  unfold requestBody
  refine .ofExcept_bind fun ⟨target, body⟩ hres => ?_
  obtain ⟨hres', htarget⟩ := h.document.resolveItem hitem hplace hres
  refine ⟨hres', ?_⟩
  dsimp only
  rw [pickMedia_eq h]
  split
  · split
    · exact (agrees_schemaType h (seen_mediaSchema h htarget _) _ _).bind_refl _
    · exact .refl _
  · exact .refl _

theorem agrees_headerFields (h : Setting.Alike Seen b b') (hplace : Seen place) (stem : String)
    {headers : List (String × Document.OrRef Document.Header)}
    (hheaders : ∀ e ∈ headers, e.2.StaysIn Seen) :
    Agrees (headerFields b place stem headers) (headerFields b' place stem headers) := by
  induction headers with
  | nil => exact .refl _
  | cons header rest ih =>
      obtain ⟨wireName, item⟩ := header
      rw [List.forall_mem_cons] at hheaders
      unfold headerFields
      rw [ignoresHeader_eq h, h.naming]
      split
      · exact (Agrees.refl _).bind fun _ => ih hheaders.2
      · refine .ofExcept_bind fun ⟨target, header⟩ hres => ?_
        obtain ⟨hres', htarget⟩ :=
          h.document.resolveItem hheaders.1 (h.document.push _ _ hplace) hres
        refine ⟨hres', (agrees_payload h htarget _ _ _ _).bind fun type => ?_⟩
        exact (ih hheaders.2).bind_refl _

theorem agrees_responseHeaders (h : Setting.Alike Seen b b') (hplace : Seen place) (stem : String)
    {headers : Dict String (Document.OrRef Document.Header)}
    (hheaders : ∀ e ∈ headers.entries, e.2.StaysIn Seen) :
    Agrees (responseHeaders b headers place stem) (responseHeaders b' headers place stem) := by
  unfold responseHeaders
  simp only [syntheticClass_eq h]
  exact (agrees_headerFields h (h.document.push _ _ hplace) stem hheaders).bind_refl _

theorem agrees_responseBody (h : Setting.Alike Seen b b') (hplace : Seen place)
    (content : Document.Content) (stem : String) :
    Agrees (responseBody b content place stem) (responseBody b' content place stem) := by
  unfold responseBody
  rw [pickMedia_eq h]
  split
  · exact .refl _
  · split
    · exact (agrees_schemaType h (seen_mediaSchema h hplace _) _ _).bind_refl _
    · exact .refl _

theorem agrees_response (h : Setting.Alike Seen b b') (key : String)
    {item : Document.OrRef Document.Response} (hitem : ResponseStaysIn Seen b.document item)
    (hplace : Seen place) (classBase : String) :
    Agrees (response b key item place classBase) (response b' key item place classBase) := by
  unfold response
  split
  · refine .ofExcept_bind fun ⟨target, r⟩ hres => ?_
    obtain ⟨hres', htarget⟩ := h.document.resolveItem hitem.self hplace hres
    refine ⟨hres', (agrees_responseBody h htarget _ _).bind fun body => ?_⟩
    exact (agrees_responseHeaders h htarget _ (hitem.header _ _ _ hres)).bind_refl _
  · exact .refl _

theorem agrees_responses (h : Setting.Alike Seen b b') (hplace : Seen place) (classBase : String)
    {items : List (String × Document.OrRef Document.Response)}
    (hitems : ∀ e ∈ items, ResponseStaysIn Seen b.document e.2) :
    Agrees (responses b place classBase items) (responses b' place classBase items) := by
  induction items with
  | nil => exact .refl _
  | cons item rest ih =>
      obtain ⟨key, item⟩ := item
      rw [List.forall_mem_cons] at hitems
      refine (agrees_response h key hitems.1 (h.document.push _ _ hplace) classBase).bind fun r => ?_
      exact (ih hitems.2).bind_refl _

/-! ## Requirements -/

theorem agrees_useScheme (h : Setting.Alike Seen b b') (name : String) :
    Agrees (useScheme b name) (useScheme b' name) := by
  unfold useScheme
  refine .view_bind fun known => ?_
  split
  · exact .refl _
  · refine .ofExcept_bind fun ⟨target, s⟩ hres => ?_
    exact ⟨(h.document.resolveAs (h.scheme name) hres).1, .refl _⟩

theorem agrees_requirement (h : Setting.Alike Seen b b') (declared : List Document.Requirement) :
    Agrees (requirement b declared) (requirement b' declared) := by
  have hschemes : ∀ names, Agrees (useSchemes b names) (useSchemes b' names) := by
    intro names
    induction names with
    | nil => exact .refl _
    | cons name rest ih => exact (agrees_useScheme h name).bind fun _ => ih
  exact (hschemes _).bind_refl _

/-! ## Operations -/

theorem agrees_init (h : Setting.Alike Seen b b') {api : Document.Api}
    (hapi : ApiStaysIn Seen b.document api) : Agrees (init b api) (init b' api) := by
  unfold init
  have hheaders : Seen (Pointer.root.push "x-global-headers") := h.outside _ _ _ rfl (by decide)
  have hresponses : Seen (Pointer.root.push "x-global-responses") :=
    h.outside _ _ _ rfl (by decide)
  refine (agrees_parametersFrom h hheaders _ _ hapi.headers).bind fun headers => ?_
  refine (agrees_responses h hresponses _ hapi.responses).bind fun shared => ?_
  refine Agrees.bind_refl ?_ _
  split
  · exact (agrees_requirement h _).bind_refl _
  · exact .refl _

theorem agrees_operation (h : Setting.Alike Seen b b') (path : String) (shared : List Parameter)
    (method : Method) {op : Document.Operation} (hop : OperationStaysIn Seen b.document op) :
    Agrees (operation b path shared method op) (operation b' path shared method op) := by
  unfold operation
  rw [h.naming]
  have hplace : Seen (((Pointer.root.push "paths").push path).push method.key) :=
    h.outside _ _ _ rfl (by decide)
  refine (Agrees.refl _).bind fun id => ?_
  dsimp only
  refine (agrees_parametersFrom h (h.document.push _ _ hplace) _ _ hop.parameters).bind fun own => ?_
  rw [signature_eq h]
  refine (Agrees.refl _).bind fun parameters => ?_
  refine Agrees.bind ?_ fun body => ?_
  · split
    · next item hitem =>
        exact agrees_requestBody h (hop.body item hitem) (h.document.push _ _ hplace) _
    · exact .refl _
  refine (agrees_responses h (h.document.push _ _ hplace) _ hop.responses).bind fun rs => ?_
  refine Agrees.bind_refl ?_ _
  split
  · exact (agrees_requirement h _).bind_refl _
  · exact .refl _

theorem agrees_operationsOf (h : Setting.Alike Seen b b') (path : String)
    (shared : List Parameter) {ops : List (Method × Document.Operation)}
    (hops : ∀ o ∈ ops, OperationStaysIn Seen b.document o.2) :
    Agrees (operationsOf b path shared ops) (operationsOf b' path shared ops) := by
  induction ops with
  | nil => exact .refl _
  | cons op rest ih =>
      obtain ⟨method, op⟩ := op
      rw [List.forall_mem_cons] at hops
      exact (agrees_operation h path shared method hops.1).bind fun o => (ih hops.2).bind_refl _

theorem agrees_operations (h : Setting.Alike Seen b b')
    {paths : List (String × Document.PathItem)}
    (hshared : ∀ e ∈ paths, ∀ item ∈ e.2.parameters, item.StaysIn Seen)
    (hoperations : ∀ e ∈ paths, ∀ o ∈ Method.declared e.2, OperationStaysIn Seen b.document o.2) :
    Agrees (operations b paths) (operations b' paths) := by
  induction paths with
  | nil => exact .refl _
  | cons path rest ih =>
      obtain ⟨path, item⟩ := path
      rw [List.forall_mem_cons] at hshared hoperations
      have hrest := ih hshared.2 hoperations.2
      unfold operations
      dsimp only
      split
      · exact hrest
      · have hplace : Seen (((Pointer.root.push "paths").push path).push "parameters") :=
          h.outside _ _ _ rfl (by decide)
        have hparameters : Agrees (pathParameters b path item) (pathParameters b' path item) := by
          unfold pathParameters
          rw [h.naming]
          exact agrees_parametersFrom h hplace _ _ hshared.1
        refine hparameters.bind fun shared => ?_
        exact (agrees_operationsOf h path shared hoperations.1).bind fun here => hrest.bind_refl _

end Construction

end ApiModel.Client
