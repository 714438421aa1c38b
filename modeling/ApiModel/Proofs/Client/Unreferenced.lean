/-
  ApiModel.Proofs.Client.Unreferenced

  Component schemas that nothing refers to. When component schemas are not emitted for their own
  sake, the builder sees of them only what references lead to; so an entry that no reference leads
  to, into or around can be added without a trace.
-/
import ApiModel.Proofs.Client.Declaration
import ApiModel.Proofs.Client.Emission
import ApiModel.Proofs.Document.Insertion

namespace ApiModel.Client

open Document

variable {document document' : Json} {api : Api} {name : String} {value : Json}

/-! ## The references of a description -/

/-- The parameters of a description: those of all requests, of its paths and of its operations. -/
def parametersOf (api : Api) : List (OrRef Document.Parameter) :=
  api.globalHeaders ++ api.paths.values.flatMap fun item =>
    item.parameters ++ (Method.declared item).flatMap fun o => o.2.parameters

/-- The request bodies of the operations. -/
def bodiesOf (api : Api) : List (OrRef Document.RequestBody) :=
  api.paths.values.flatMap fun item => (Method.declared item).filterMap fun o => o.2.requestBody

/-- The responses of all requests and of the operations. -/
def responsesOf (api : Api) : List (OrRef Document.Response) :=
  api.globalResponses.values ++ api.paths.values.flatMap fun item =>
    (Method.declared item).flatMap fun o => o.2.responses.values

/-- A text that a description uses as a reference. It stands under `$ref`, or it is the one item of
    an array where a parameter, a body, a response or one of its headers may be a reference. -/
inductive Mentions (document : Json) (api : Api) : String → Prop
  | written {text : String} (h : text ∈ references document) : Mentions document api text
  | parameter {text : String} (h : .ref text ∈ parametersOf api) : Mentions document api text
  | body {text : String} (h : .ref text ∈ bodiesOf api) : Mentions document api text
  | response {text : String} (h : .ref text ∈ responsesOf api) : Mentions document api text
  | header {text key : String} {item : OrRef Document.Response} {place target : Pointer}
      {r : Document.Response} (hitem : item ∈ responsesOf api)
      (hr : resolveItem document Response.shape item place = .ok (target, r))
      (h : (key, .ref text) ∈ r.headers.entries) : Mentions document api text

/-- The place of a component schema. -/
def schemaPlace (name : String) : Pointer := ⟨["components", "schemas", name]⟩

/-- What is not below the components is apart from each of their schemas. -/
theorem apart_schemaPlace {p : Pointer} {first : String} {rest : List String}
    (hp : p.segments = first :: rest) (hne : first ≠ "components") :
    p.Apart (schemaPlace name) := by
  unfold Pointer.Apart schemaPlace
  rw [hp, List.cons_prefix_cons, List.cons_prefix_cons]
  exact ⟨fun h => hne h.1, fun h => hne h.1.symm⟩

/-- No reference of a description leads to the component schema of a name, to something inside it,
    or to something that it is part of. -/
def Unreferenced (document : Json) (name : String) : Prop :=
  ∀ api, readApi document = .ok api → ∀ text, Mentions document api text →
    ∀ p, Pointer.parse? text = some p → p.Apart (schemaPlace name)

/-- Where nothing refers to a component schema, the builder stays apart from it. -/
theorem Unreferenced.staysIn (h : Unreferenced document name) (hapi : readApi document = .ok api) :
    ApiStaysIn (Pointer.Apart · (schemaPlace name)) document api := by
  have hapart := h api hapi
  have hresponse : ∀ item ∈ responsesOf api,
      ResponseStaysIn (Pointer.Apart · (schemaPlace name)) document item := by
    intro item hitem
    refine ⟨fun text q heq => hapart text (.response (heq ▸ hitem)) q, ?_⟩
    rintro place target r hr ⟨key, header⟩ he text q rfl
    exact hapart text (.header hitem hr he) q
  constructor
  · intro item hitem text q heq
    exact hapart text (.parameter (heq ▸ List.mem_append_left _ hitem)) q
  · intro e he
    exact hresponse e.2 (List.mem_append_left _ (List.mem_map_of_mem he))
  · intro e he item hitem text q heq
    refine hapart text (.parameter (heq ▸ List.mem_append_right _ ?_)) q
    exact List.mem_flatMap.2 ⟨e.2, List.mem_map_of_mem he, List.mem_append_left _ hitem⟩
  · intro e he o ho
    have hvalue : e.2 ∈ api.paths.values := List.mem_map_of_mem he
    constructor
    · intro item hitem text q heq
      refine hapart text (.parameter (heq ▸ List.mem_append_right _ ?_)) q
      refine List.mem_flatMap.2 ⟨e.2, hvalue, List.mem_append_right _ ?_⟩
      exact List.mem_flatMap.2 ⟨o, ho, hitem⟩
    · intro item hitem text q heq
      refine hapart text (.body (heq ▸ ?_)) q
      exact List.mem_flatMap.2 ⟨e.2, hvalue, List.mem_filterMap.2 ⟨o, ho, hitem⟩⟩
    · intro r hr
      refine hresponse r.2 (List.mem_append_right _ ?_)
      refine List.mem_flatMap.2 ⟨e.2, hvalue, List.mem_flatMap.2 ⟨o, ho, ?_⟩⟩
      exact List.mem_map_of_mem hr

/-! ## Reading with one more schema -/

section Reading

open Shape Fields

/-- Every object is read as a dictionary of whatever stands in it. -/
theorem dictOf_anything (fields : List (String × Json)) :
    dictOf anything (.obj fields) = .ok ⟨fields⟩ := by
  have hall : fields.mapM (pure : _ → Except Mismatch (String × Json)) = pure fields := by
    induction fields with
    | nil => rfl
    | cons f fields ih =>
        rw [List.mapM_cons, ih]
        rfl
  show (fields.mapM pure >>= fun es => pure (Dict.mk es)) = _
  rw [hall]
  rfl

/-- What is read of the components. -/
theorem components_obj {es : List (String × Json)} {c : Components} :
    Components.shape (.obj es) = .ok c ↔
      ReadFrom (dictOf anything) (some .empty) (es.lookup "schemas") c.schemas ∧
      ReadFrom (dictOf (orRef SecurityScheme.shape)) (some .empty) (es.lookup "securitySchemes")
        c.securitySchemes := by
  unfold Components.shape withDefault
  simp only [record_obj, ofObject_seq, ofObject_map, ofObject_field]
  constructor
  · rintro ⟨_, security, ⟨schemas, hschemas, rfl⟩, hsecurity, rfl⟩
    exact ⟨hschemas, hsecurity⟩
  · rintro ⟨hschemas, hsecurity⟩
    exact ⟨_, _, ⟨_, hschemas, rfl⟩, hsecurity, rfl⟩

/-- What is read of a description. -/
theorem api_obj {es : List (String × Json)} {api : Api} : Api.shape (.obj es) = .ok api ↔
    ReadFrom text none (es.lookup "openapi") api.openapi ∧
    ReadFrom Info.shape none (es.lookup "info") api.info ∧
    ReadFrom (listOf Server.shape) (some []) (es.lookup "servers") api.servers ∧
    ReadFrom (dictOf PathItem.shape) (some .empty) (es.lookup "paths") api.paths ∧
    ReadFrom (nullable Components.shape) (some none) (es.lookup "components") api.components ∧
    ReadFrom (nullable requirementsShape) (some none) (es.lookup "security") api.security ∧
    ReadFrom (listOf (orRef Parameter.shape)) (some []) (es.lookup "x-global-headers")
      api.globalHeaders ∧
    ReadFrom (dictOf (orRef Response.shape)) (some .empty) (es.lookup "x-global-responses")
      api.globalResponses := by
  unfold Api.shape mandatory withDefault Fields.optional
  simp only [record_obj, ofObject_seq, ofObject_map, ofObject_field]
  constructor
  · rintro ⟨_, _, ⟨_, _, ⟨_, _, ⟨_, _, h, h₅, rfl⟩, h₆, rfl⟩, h₇, rfl⟩, h₈, rfl⟩
    obtain ⟨_, _, ⟨_, _, ⟨_, _, ⟨_, h₁, rfl⟩, h₂, rfl⟩, h₃, rfl⟩, h₄, rfl⟩ := h
    exact ⟨h₁, h₂, h₃, h₄, h₅, h₆, h₇, h₈⟩
  · rintro ⟨h₁, h₂, h₃, h₄, h₅, h₆, h₇, h₈⟩
    exact ⟨_, _, ⟨_, _, ⟨_, _, ⟨_, _, ⟨_, _, ⟨_, _, ⟨_, _, ⟨_, h₁, rfl⟩, h₂, rfl⟩, h₃, rfl⟩, h₄, rfl⟩,
      h₅, rfl⟩, h₆, rfl⟩, h₇, rfl⟩, h₈, rfl⟩

/-- The components are still read with one more schema among them. -/
theorem components_insert {v w : Json} (h : Inserts name value ["schemas"] v w) {c : Components}
    (hc : Components.shape v = .ok c) : ∃ c', Components.shape w = .ok c' := by
  cases h with
  | @inside before after _ v w _ hfirst h =>
      cases h with
      | here inner rest hnew =>
          obtain ⟨-, hsecurity⟩ := components_obj.1 hc
          have hschemas := dictOf_anything (inner ++ (name, value) :: rest)
          refine ⟨{ c with schemas := ⟨inner ++ (name, value) :: rest⟩ },
            components_obj.2 ⟨?_, ?_⟩⟩
          · rw [lookup_insert_self hfirst]
            exact hschemas
          · rwa [lookup_insert_of_ne (by decide)] at hsecurity ⊢

/-- The typed objects of a description with one more component schema are the same, the components
    left aside. -/
theorem shape_api_insert (h : Inserts name value ["components", "schemas"] document document')
    (hapi : Api.shape document = .ok api) :
    ∃ components, Api.shape document' = .ok { api with components := components } := by
  cases h with
  | @inside before after _ v w _ hfirst h =>
      have hcomponents : ∀ c, ReadFrom (nullable Components.shape) (some none) (some v) c →
          ∃ c', ReadFrom (nullable Components.shape) (some none) (some w) c' := by
        intro c hc
        obtain ⟨fs, gs, rfl, rfl⟩ := h.objects
        obtain ⟨read, hread, -⟩ := Json.ok_of_bind hc
        obtain ⟨read', hread'⟩ := components_insert h hread
        refine ⟨some read', ?_⟩
        show (do return some (← Components.shape (.obj gs))) = _
        rw [hread']
        rfl
      simp only [api_obj, lookup_insert_self hfirst] at hapi ⊢
      obtain ⟨h₁, h₂, h₃, h₄, h₅, h₆, h₇, h₈⟩ := hapi
      obtain ⟨c, hc⟩ := hcomponents _ h₅
      have hother : ∀ key ≠ "components", (before ++ ("components", w) :: after).lookup key =
          (before ++ ("components", v) :: after).lookup key := fun key hne => lookup_insert_congr hne
      refine ⟨c, ?_, ?_, ?_, ?_, hc, ?_, ?_, ?_⟩ <;> rwa [hother _ (by decide)]

end Reading

theorem readApi_insert (h : Inserts name value ["components", "schemas"] document document')
    (hapi : readApi document = .ok api) :
    ∃ components, readApi document' = .ok { api with components := components } := by
  obtain ⟨components, hshape⟩ := shape_api_insert h (shape_of_readApi hapi)
  refine ⟨components, ?_⟩
  obtain ⟨read, hread, hversion⟩ := Json.ok_of_bind hapi
  unfold readApi
  rw [show readAt Api.shape .root document' = _ from Fields.mapError_eq_ok.2 hshape]
  split at hversion
  · next hprefix =>
      cases hversion
      exact if_pos hprefix
  · cases hversion

/-! ## Building with one more schema -/

namespace Construction

open Work

/-- Without component schemas a model consists of what all requests share and the operations. -/
theorem agrees_model {Seen : Pointer → Prop} {b b' : Setting} (h : Setting.Alike Seen b b')
    (hapi : ApiStaysIn Seen b.document api) (hb : b.config.includeComponentSchemas = false)
    (hb' : b'.config.includeComponentSchemas = false) (components : Option Components) :
    Agrees (model b api) (model b' { api with components := components }) := by
  unfold model
  have hinit : Agrees (init b api) (init b' { api with components := components }) :=
    agrees_init h hapi
  refine hinit.bind fun i => (agrees_operations h hapi.shared hapi.operations).bind fun os => ?_
  rw [hb, hb', if_neg Bool.false_ne_true, if_neg Bool.false_ne_true]
  exact .refl _

end Construction

/-- A component schema that no reference leads to, into or around does not influence the client, as
    long as component schemas are not emitted for their own sake: with it, whatever it says and
    wherever among the others it stands, the same model is built. -/
theorem buildWithin_of_unreferenced {calls : Nat} {config : Config} {naming : Naming} {m : Model}
    (hinserts : Inserts name value ["components", "schemas"] document document')
    (hunreferenced : Unreferenced document name) (hconfig : config.includeComponentSchemas = false)
    (h : buildWithin calls document config naming = .ok m) :
    buildWithin calls document' config naming = .ok m := by
  unfold buildWithin at h ⊢
  split at h
  · cases h
  next api hapi =>
  obtain ⟨components, hapi'⟩ := readApi_insert hinserts hapi
  rw [hapi']
  dsimp only at h ⊢
  have halike : Setting.Alike (Pointer.Apart · (schemaPlace name)) ⟨document, config, naming, calls⟩
      ⟨document', config, naming, calls⟩ := {
    document := hinserts.alike fun text htext => hunreferenced api hapi text (.written htext)
    supply := hinserts.loadBound_le
    naming := rfl
    calls := rfl
    preferred := rfl
    ignored := rfl
    outside := fun p first rest hp hne => apart_schemaPlace hp hne
    scheme := fun _ => by simp [Pointer.Apart, Pointer.push, Pointer.root, schemaPlace] }
  have hmodel := Construction.agrees_model halike (hunreferenced.staysIn hapi) hconfig hconfig components
  refine Prod.ext_iff.1 (hmodel _ _ _ (Prod.ext h rfl)) |>.1

/-- The only reference is that to the pet. -/
theorem unreferenced_petShop : Unreferenced (petShop [("Pet", named)]) "Toy" := by
  have hitems : ((readApi (petShop [("Pet", named)])).toOption.map fun api =>
      ((parametersOf api).isEmpty, (responsesOf api).isEmpty,
        (bodiesOf api).all fun | .ref _ => false | .item _ => true)) = some (true, true, true) := by
    decide +kernel
  have hwritten : references (petShop [("Pet", named)]) = ["#/components/schemas/Pet"] := by
    decide +kernel
  intro api hapi text htext p hp
  rw [hapi] at hitems
  simp only [Except.toOption, Option.map_some, Option.some.injEq, Prod.mk.injEq,
    List.isEmpty_iff, List.all_eq_true] at hitems
  obtain ⟨hparameters, hresponses, hbodies⟩ := hitems
  cases htext with
  | written h =>
      rw [hwritten, List.mem_singleton] at h
      subst h
      have hparse : Pointer.parse? "#/components/schemas/Pet" = some (schemaPlace "Pet") := by
        decide +kernel
      cases hparse.symm.trans hp
      decide
  | parameter h => rw [hparameters] at h; cases h
  | body h => cases hbodies _ h
  | response h => rw [hresponses] at h; cases h
  | header hitem => rw [hresponses] at hitem; cases hitem

theorem buildWithin_petShop : ∃ m,
    buildWithin 8 (petShop [("Pet", named)]) usedOnly .marked = .ok m ∧ m.classCount = 1 ∧
    buildWithin 8 (petShop [("Pet", named), ("Toy", .str "no schema")]) usedOnly .marked =
      .ok m := by
  have hcount : ((buildWithin 8 (petShop [("Pet", named)]) usedOnly .marked).toOption.map
      Model.classCount) = some 1 := by decide +kernel
  cases hm : buildWithin 8 (petShop [("Pet", named)]) usedOnly .marked with
  | error e => simp [hm, Except.toOption] at hcount
  | ok m =>
      rw [hm] at hcount
      have hinserts : Inserts "Toy" (.str "no schema") ["components", "schemas"]
          (petShop [("Pet", named)]) (petShop [("Pet", named), ("Toy", .str "no schema")]) :=
        .inside [_, _, _] [] (by decide) (.inside [] [] (by decide)
          (.here [("Pet", named)] [] (by decide)))
      exact ⟨m, rfl, Option.some.inj hcount,
        buildWithin_of_unreferenced hinserts unreferenced_petShop rfl hm⟩

end ApiModel.Client
