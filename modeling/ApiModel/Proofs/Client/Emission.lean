/-
  ApiModel.Proofs.Client.Emission

  Emitting component schemas. They come after everything else, so a model that is built with them is
  the one built without, to which classes and warnings have been added at the end: working out a type
  renames, replaces and removes nothing that is registered.
-/
import ApiModel.Proofs.Client.Construction.Agreement
import ApiModel.Proofs.Client.Model
import ApiModel.Proofs.Schema.Effect

namespace ApiModel

open Work

/-! ## Sessions -/

namespace Session

variable {naming : Naming} {calls : Nat} {document : Json}

/-- Classes and warnings have at most come after those that were there. -/
structure Appends (s t : Session) : Prop where
  classes : s.classes.entries <+: t.classes.entries
  warnings : s.warnings <+: t.warnings

instance : IsPreorder Session Appends where
  refl _ := ⟨List.prefix_rfl, List.prefix_rfl⟩
  trans _ _ _ h h' := ⟨h.classes.trans h'.classes, h.warnings.trans h'.warnings⟩

theorem allows_appends : Allows Appends where
  arena _ _ _ := ⟨List.prefix_rfl, List.prefix_rfl⟩
  loaded _ _ := ⟨List.prefix_rfl, List.prefix_rfl⟩
  read _ _ _ := ⟨List.prefix_rfl, List.prefix_rfl⟩
  typing _ _ _ := ⟨List.prefix_rfl, List.prefix_rfl⟩
  named _ _ _ := ⟨List.prefix_rfl, List.prefix_rfl⟩
  marked _ _ := ⟨List.prefix_rfl, List.prefix_rfl⟩
  warned _ _ := ⟨List.prefix_rfl, List.prefix_append _ _⟩

theorem appends_typeAt (p : Pointer) (required : Bool) :
    Obeys Appends (typeAt document calls naming p required) := by
  refine obeys_typeAt allows_appends.allowsTyping allows_appends.toAllowsLoading
    (fun _ _ _ _ _ => ?_) p
    required
  exact ⟨Dict.entries_prefix_insertIfNew _ _ _, List.prefix_rfl⟩

end Session

namespace Client

/-- The model `m` has what `m'` has, and at most further classes at the end of its modules and
    further warnings. -/
structure Model.Extends (m' m : Model) : Prop where
  title : m'.title = m.title
  version : m'.version = m.version
  init : m'.init = m.init
  securitySchemes : m'.securitySchemes = m.securitySchemes
  operations : m'.operations = m.operations
  modules : ∀ path cs, m'.modules.get? path = some cs →
    ∃ more, m.modules.get? path = some (cs ++ more)
  warnings : m'.warnings <+: m.warnings

namespace Construction

variable {b : Setting} {api : Document.Api}

/-! ## Component schemas -/

/-- Apart from the session nothing has changed, and there classes and warnings have come last. -/
structure Appends (c d : Construction) : Prop where
  schemes : d.schemes = c.schemes
  session : c.session.Appends d.session

instance : IsPreorder Construction Appends where
  refl c := ⟨rfl, refl_of Session.Appends c.session⟩
  trans _ _ _ h h' :=
    ⟨h'.schemes.trans h.schemes, trans_of Session.Appends h.session h'.session⟩

theorem appends_componentSchemas (names : List String) :
    Obeys Appends (componentSchemas b names) := by
  have hsession : ∀ {α : Type} {x : SessionWork α}, Obeys Session.Appends x →
      Obeys Appends (onSession x) := fun h => h.focus fun _ _ hs => ⟨rfl, hs⟩
  induction names with
  | nil => exact .pure _
  | cons name rest ih =>
      unfold componentSchemas
      refine .bind (hsession (Session.appends_typeAt _ _)) fun t => ?_
      dsimp only
      split
      · exact .bind (hsession (Session.obeys_warn Session.allows_appends.toAllowsWork _)) fun _ => ih
      · exact ih

/-! ## Models with and without them -/

/-- The model that is there when the operations are done. -/
def modelOf (api : Document.Api) (i : Init) (os : List Operation) (c : Construction) : Model where
  title := api.info.title
  version := api.info.version
  init := i
  securitySchemes := c.schemes.values
  operations := os
  modules := byModule c.session.classes.values
  warnings := c.session.warnings

theorem Appends.extends {c d : Construction} (h : Appends c d) (i : Init) (os : List Operation) :
    (modelOf api i os c).Extends (modelOf api i os d) := by
  obtain ⟨more, hclasses⟩ := h.session.classes
  refine ⟨rfl, rfl, rfl, congrArg Dict.values h.schemes.symm, rfl, fun path cs hcs => ?_,
    h.session.warnings⟩
  have hvalues : d.session.classes.values = c.session.classes.values ++ more.map Prod.snd := by
    unfold Dict.values
    rw [← hclasses, List.map_append]
  show ∃ rest, (byModule d.session.classes.values).get? path = _
  rw [hvalues]
  exact get?_byModule_append hcs _

/-- A model is put together when the operations are done and component schemas have at most been
    appended. -/
theorem returns_model_steps (c : Construction) : Returns (model b api) c fun m _ =>
    ∃ i d os e f, (init b api).run c = (.ok i, d) ∧
      (operations b api.paths.entries).run d = (.ok os, e) ∧ Appends e f ∧
      m = modelOf api i os f := by
  unfold model
  refine .bind ((Agrees.refl _).returns c) fun i d hi => ?_
  refine .bind ((Agrees.refl _).returns d) fun os e hos => ?_
  have hrest : ∀ f, Appends e f → Returns (do
      let classes ← onSession Session.takeClasses
      let schemes ← Work.view fun c => c.schemes.values
      let warnings ← onSession Session.takeWarnings
      return { title := api.info.title, version := api.info.version, init := i,
               securitySchemes := schemes, operations := os, modules := byModule classes,
               warnings := warnings : Model }) f fun m _ => ∃ i d os e f,
        (init b api).run c = (.ok i, d) ∧ (operations b api.paths.entries).run d = (.ok os, e) ∧
        Appends e f ∧ m = modelOf api i os f :=
    fun f hef => ⟨i, d, os, e, f, hi, hos, hef, rfl⟩
  dsimp only
  split
  · split
    · exact .bind (.of_obeys (appends_componentSchemas _) e) fun _ f hef => hrest f hef
    · exact hrest e (refl_of Appends e)
  · exact hrest e (refl_of Appends e)

/-- Without component schemas nothing comes after the operations. -/
theorem run_model_without (hb : b.config.includeComponentSchemas = false) {c d e : Construction}
    {i : Init} {os : List Operation} (hi : (init b api).run c = (.ok i, d))
    (hos : (operations b api.paths.entries).run d = (.ok os, e)) :
    ((model b api).run c).1 = .ok (modelOf api i os e) := by
  unfold model
  rw [run_bind, hi]
  dsimp only
  rw [run_bind, hos]
  dsimp only
  rw [hb, if_neg Bool.false_ne_true]
  rfl

/-- What all requests share and the operations do not depend on whether component schemas come
    after them. -/
theorem exists_extends {b b' : Setting} (h : Setting.Alike (fun _ => True) b b')
    (hb' : b'.config.includeComponentSchemas = false) {c : Construction} {m : Model}
    (hrun : ((model b api).run c).1 = .ok m) :
    ∃ m', ((model b' api).run c).1 = .ok m' ∧ m'.Extends m := by
  have hresponse : ∀ item, ResponseStaysIn (fun _ => True) b.document item := fun _ =>
    ⟨fun _ _ _ _ => trivial, fun _ _ _ _ _ _ _ _ _ _ => trivial⟩
  have hstays : ApiStaysIn (fun _ => True) b.document api :=
    ⟨fun _ _ _ _ _ _ => trivial, fun _ _ => hresponse _, fun _ _ _ _ _ _ _ _ => trivial,
      fun _ _ _ _ => ⟨fun _ _ _ _ _ _ => trivial, fun _ _ _ _ _ _ => trivial,
        fun _ _ => hresponse _⟩⟩
  obtain ⟨i, d, os, e, f, hi, hos, hef, rfl⟩ := (returns_model_steps c).of_ok (Prod.ext hrun rfl)
  refine ⟨modelOf api i os e, run_model_without hb' (agrees_init h hstays c i d hi) ?_,
    hef.extends i os⟩
  exact agrees_operations h hstays.shared hstays.operations d os e hos

end Construction

/-- Emitting component schemas only appends. When a description can be built, with or without them,
    it can be built without; title, version, what all requests share, security schemes and operations
    are the same, the classes of each module are the first of those that it had, in the same order,
    and so are the warnings. -/
theorem buildWithin_of_emitting {calls : Nat} {document : Json} {config : Config}
    {naming : Naming} {m : Model} (h : buildWithin calls document config naming = .ok m) :
    ∃ m', buildWithin calls document { config with includeComponentSchemas := false } naming =
      .ok m' ∧ m'.Extends m := by
  unfold buildWithin at h ⊢
  split at h
  · cases h
  next api _ =>
  have halike : Setting.Alike (fun _ => True)
      ⟨document, config, naming, calls⟩
      ⟨document, { config with includeComponentSchemas := false }, naming, calls⟩ :=
    ⟨.refl document, Nat.le_refl _, rfl, rfl, rfl, rfl, fun _ _ _ _ _ => trivial, fun _ => trivial⟩
  exact Construction.exists_extends halike rfl h

/-- A description with one operation, which takes a pet; its component schemas are those given. -/
def petShop (schemas : List (String × Json)) : Json :=
  let pet := Json.obj [("schema", .obj [("$ref", .str "#/components/schemas/Pet")])]
  let operation := Json.obj [("operationId", .str "add"),
    ("requestBody", .obj [("content", .obj [("application/json", pet)])])]
  .obj [("openapi", .str "3.0.0"),
    ("info", .obj [("title", .str "Pets"), ("version", .str "1")]),
    ("paths", .obj [("/pets", .obj [("post", operation)])]),
    ("components", .obj [("schemas", .obj schemas)])]

/-- Something with a name. -/
def named : Json :=
  .obj [("type", .str "object"), ("properties", .obj [("name", .obj [("type", .str "string")])])]

/-- The usual settings, but component schemas are emitted only where they are used. -/
def usedOnly : Config := { Config.standard with includeComponentSchemas := false }

/-- Beside the pet, which the operation uses, a toy is emitted. -/
theorem buildWithin_of_emitting_petShop :
    ∃ m m', buildWithin 8 (petShop [("Toy", named), ("Pet", named)]) .standard .marked = .ok m ∧
      m.classCount = 2 ∧
      buildWithin 8 (petShop [("Toy", named), ("Pet", named)]) usedOnly .marked = .ok m' ∧
      m'.Extends m := by
  have hcount : ((buildWithin 8 (petShop [("Toy", named), ("Pet", named)]) .standard
      .marked).toOption.map Model.classCount) = some 2 := by decide +kernel
  cases hm : buildWithin 8 (petShop [("Toy", named), ("Pet", named)]) .standard .marked with
  | error e => simp [hm, Except.toOption] at hcount
  | ok m =>
      rw [hm] at hcount
      obtain ⟨m', hm', hextends⟩ := buildWithin_of_emitting hm
      exact ⟨m, m', rfl, Option.some.inj hcount, hm', hextends⟩

end Client

end ApiModel
