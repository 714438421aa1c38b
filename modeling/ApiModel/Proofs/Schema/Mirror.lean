/-
  ApiModel.Proofs.Schema.Mirror

  The fields of a class mirror the properties of its schema. There is one field for every property
  that something matches, in the same order; its type is that of the property's normal form, and it
  is optional just where the property is not required. Normalizing and typing one property add to the
  session that the next one meets, and nothing that was found before is lost.
-/
import ApiModel.Proofs.Document.Record
import ApiModel.Proofs.Schema.Field
import ApiModel.Proofs.Schema.Recall

namespace ApiModel.Session

open Work

variable {P : Json → Prop} {L : Arena.Law P} {s t : Session} {document : Json} {naming : Naming}
  {calls : Nat} {id form : SchemaId} {u : TypeExpr} {required : SortedSet String}
  {es : List (String × SchemaId)} {e : String × SchemaId} {f : Client.Field}

/-! ## Answers that are known -/

/-- The normal form that a schema has been found to have. -/
def form? (s : Session) (id : SchemaId) : Option SchemaId :=
  match s.arena.progress.get? id with
  | some (.done r) => r
  | _ => none

/-- Asking for the normal form of a schema gives `r`, and nothing else happens. -/
def Normalizes (s : Session) (id : SchemaId) (r : Option SchemaId) : Prop :=
  ∀ calls, (normalize (calls + 1) id).run s = (.ok r, s)

/-- Asking for the type of a normal form gives `u`, and nothing else happens. -/
def HasType (s : Session) (naming : Naming) (form : SchemaId) (u : TypeExpr) : Prop :=
  ∀ calls, (formType (calls + 1) naming form).run s = (.ok u, s)

theorem form?_eq {r : Option SchemaId} (h : s.arena.progress.get? id = some (.done r)) :
    s.form? id = r := by
  rw [form?, h]

/-! ## Fields of properties -/

/-- The field has been made of a property: of its normal form, of the type of that, and of what both
    schemas say about themselves. -/
def MadeOf (naming : Naming) (s : Session) (required : SortedSet String) (e : String × SchemaId)
    (f : Client.Field) : Prop :=
  ∃ form u taken, s.arena.progress.get? e.2 = some (.done (some form)) ∧
    s.types.get? form = some u ∧
    f = fieldOf naming taken e.1 (required.contains e.1) u (s.arena.schema e.2)
      (s.arena.schema form)

/-- The properties have been looked at: those with a normal form have one field each, in order, and a
    warning tells of the others. -/
structure Listed (naming : Naming) (s : Session) (required : SortedSet String)
    (es : List (String × SchemaId)) (fields : List Client.Field) : Prop where
  answered : ∀ e ∈ es, ∃ r, s.arena.progress.get? e.2 = some (.done r)
  made : List.Forall₂ (MadeOf naming s required) (es.filter fun e => (s.form? e.2).isSome) fields
  omitted : ∀ e ∈ es, s.form? e.2 = none →
    .bottomSchema (s.arena.schema e.2).pointer ∈ s.warnings

theorem Listed.nil : Listed naming s required [] [] := ⟨nofun, .nil, nofun⟩

/-- A property that nothing matches gives no field. -/
theorem Listed.skip {fields : List Client.Field}
    (hform : s.arena.progress.get? e.2 = some (.done none))
    (hwarned : .bottomSchema (s.arena.schema e.2).pointer ∈ s.warnings)
    (h : Listed naming s required es fields) : Listed naming s required (e :: es) fields where
  answered := List.forall_mem_cons.2 ⟨⟨none, hform⟩, h.answered⟩
  made := by
    rw [List.filter_cons_of_neg (by rw [form?_eq hform]; simp)]
    exact h.made
  omitted := List.forall_mem_cons.2 ⟨fun _ => hwarned, h.omitted⟩

/-- Any other property gives one. -/
theorem Listed.cons {fields : List Client.Field} (hf : MadeOf naming s required e f)
    (h : Listed naming s required es fields) :
    Listed naming s required (e :: es) (f :: fields) := by
  obtain ⟨form, -, -, hform, -, -⟩ := id hf
  refine ⟨List.forall_mem_cons.2 ⟨⟨some form, hform⟩, h.answered⟩, ?_,
    List.forall_mem_cons.2 ⟨fun hnone => ?_, h.omitted⟩⟩
  · rw [List.filter_cons_of_pos (by rw [form?_eq hform]; rfl)]
    exact .cons hf h.made
  · rw [form?_eq hform] at hnone
    cases hnone

/-- What has been made of a property stays so. -/
theorem MadeOf.mono (hs : s.Lawful L) (hst : Retains s t) (h : MadeOf naming s required e f) :
    MadeOf naming t required e f := by
  obtain ⟨form, u, taken, hform, hu, rfl⟩ := h
  refine ⟨form, u, taken, hst.arena.done e.2 _ hform, hst.types form u hu, ?_⟩
  rw [hst.arena.schema e.2 (hs.arena.known e.2 _ hform),
    hst.arena.schema form (hs.arena.isForm_lt (hs.arena.form e.2 form hform))]

/-- The fields of the properties come after those that were there. -/
theorem retains_fieldsOf (hL : Arena.Upheld L) (hs : s.Lawful L) (required : SortedSet String)
    (hes : ∀ e ∈ es, e.2 < s.arena.next) (fields : List Client.Field) :
    Yields (Lawful L) Retains (fieldsOf calls naming required es fields) s fun all t =>
      ∃ new, all = fields ++ new ∧ Listed naming t required es new := by
  induction es generalizing s fields with
  | nil => exact .pure hs ⟨[], by simp, .nil⟩
  | cons e es ih =>
      obtain ⟨wireName, child⟩ := e
      have hchild : child < s.arena.next := hes _ List.mem_cons_self
      unfold fieldsOf
      refine .bind (retains_normalize hL hs hchild) fun r t ht hst hr => ?_
      have hrest : ∀ {w}, Retains t w → ∀ e ∈ es, e.2 < w.arena.next := fun htw e he =>
        Nat.lt_of_lt_of_le (hes e (List.mem_cons_of_mem _ he))
          (Nat.le_trans hst.arena.next htw.arena.next)
      cases r with
      | none =>
          refine .view_bind (.bind (retains_warn ht _) fun _ w hw htw hwarned => ?_)
          refine (ih hw (hrest htw) fields).mono fun all v hv hwv hall => ?_
          obtain ⟨new, hnew, hlisted⟩ := hall
          have htv : Retains t v := trans_of Retains htw hwv
          refine ⟨new, hnew, hlisted.skip (htv.arena.done child _ hr) ?_⟩
          rw [htv.arena.schema child (ht.arena.known child _ hr)]
          exact hwv.warnings _ hwarned
      | some form =>
          refine .bind (retains_formType hL ht (ht.arena.form child form hr))
            fun u w hw htw hu => ?_
          refine .view_bind (.view_bind ?_)
          have hmade : ∀ taken, MadeOf naming w required (wireName, child)
              (fieldOf naming taken wireName (required.contains wireName) u
                (w.arena.schema child) (w.arena.schema form)) :=
            fun taken => ⟨form, u, taken, htw.arena.done child _ hr, hu, rfl⟩
          refine (ih hw (hrest htw) _).mono fun all v hv hwv hall => ?_
          obtain ⟨new, rfl, hlisted⟩ := hall
          exact ⟨_ :: new, List.append_assoc _ _ _, hlisted.cons ((hmade _).mono hw hwv)⟩

/-- The class of a normal form has the fields of its properties. -/
theorem retains_asType (hL : Arena.Upheld L) (hs : s.Lawful L) (id : SchemaId) :
    Yields (Lawful L) Retains (asType calls naming id) s fun r t => ∀ c ∈ r,
      Listed naming t (s.arena.schema id).required (s.arena.schema id).properties.entries
        c.fields := by
  unfold asType
  refine .view_bind ?_
  split
  · exact .pure hs nofun
  · refine .bind (retains_className hs id) fun name t ht hst _ => ?_
    refine .bind (retains_fieldsOf hL ht _ (fun e he => ?_) []) fun fields u hu _ hfields =>
      .pure hu ?_
    · have hchild : e.2 ∈ (s.arena.schema id).properties.values := List.mem_map.2 ⟨e, he, rfl⟩
      exact Nat.lt_of_lt_of_le ((hs.arena.proper id).links _
        (Schema.mem_links_of_part (by simp [Schema.parts, hchild]))) hst.arena.next
    · obtain ⟨new, rfl, hlisted⟩ := hfields
      rintro _ ⟨⟩
      exact hlisted

/-! ## Classes and their schemas -/

/-- The field is that of a property: it goes by its name, is required where the property is, and has
    the type of the property's normal form, made optional where the property is not required. -/
structure MirrorsProperty (naming : Naming) (s : Session) (required : SortedSet String)
    (e : String × SchemaId) (f : Client.Field) : Prop where
  wireName : f.wireName = e.1
  type : ∃ form u, s.Normalizes e.2 (some form) ∧ s.HasType naming form u ∧
    f.type = if required.contains e.1 then u else .optionalOf u
  required : f.required = required.contains e.1

/-- The class has one field for every property of the schema that something matches. -/
structure MirrorsClass (naming : Naming) (s : Session) (m : Schema) (c : Client.Class) : Prop where
  answered : ∀ e ∈ m.properties.entries, s.Normalizes e.2 (s.form? e.2)
  wireNames : c.fields.map Client.Field.wireName =
    (m.properties.entries.filter fun e => (s.form? e.2).isSome).map Prod.fst
  unrepeated : (c.fields.map Client.Field.wireName).Nodup
  names : (c.fields.map Client.Field.name).Nodup
  fields : List.Forall₂ (s.MirrorsProperty naming m.required)
    (m.properties.entries.filter fun e => (s.form? e.2).isSome) c.fields
  omitted : ∀ e ∈ m.properties.entries, s.form? e.2 = none →
    .bottomSchema (s.arena.schema e.2).pointer ∈ s.warnings

theorem MadeOf.mirrors (h : MadeOf naming s required e f) :
    s.MirrorsProperty naming required e f := by
  obtain ⟨form, u, taken, hform, hu, rfl⟩ := h
  exact ⟨rfl, ⟨form, u, run_normalize_of_done hform, run_formType_of_remembered hu, rfl⟩, rfl⟩

/-- In any session, the class that is made of a schema mirrors its properties, as they are known
    then: the wire names of the fields are, in order and without repetition, the names of the
    properties that something matches; required fields are those of required properties; the types
    are those of the normal forms, made optional elsewhere; no two fields have the same name; and
    there is a warning for every property that nothing matches. -/
theorem mirrors_of_asType (hs : Reachable document naming s) {c : Client.Class}
    (hrun : (asType calls naming id).run s = (.ok (some c), t)) :
    MirrorsClass naming t (s.arena.schema id) c := by
  have hlawful := hs.lawful Arena.upheld_free hereditary_true trivial
  have hlisted := ((retains_asType Arena.upheld_free hlawful id).of_ok hrun).2 c rfl
  have hfields := hlisted.made.imp fun _ _ h => h.mirrors
  have hwire : c.fields.map Client.Field.wireName =
      ((s.arena.schema id).properties.entries.filter fun e => (t.form? e.2).isSome).map
        Prod.fst :=
    (Document.map_eq_map_of_forall₂ (hfields.imp fun _ _ h => h.wireName.symm)).symm
  refine ⟨fun e he => ?_, hwire, ?_, unambiguous_of_asType hrun, hfields, hlisted.omitted⟩
  · obtain ⟨r, hr⟩ := hlisted.answered e he
    rw [form?_eq hr]
    exact run_normalize_of_done hr
  · rw [hwire]
    exact ((List.filter_sublist).map Prod.fst).nodup (hlawful.arena.proper id).keys

/-- An object with a property that nothing matches, and with two that ask for the same field name. -/
def crowded : Json :=
  .obj [("type", .str "object"), ("required", .arr [.str "b", .str "gone"]),
    ("properties", .obj [("a", .obj [("type", .str "string"), ("x-name", .str "b")]),
      ("gone", .bool false), ("b", .obj [("type", .str "integer")])])]

/-- The session that has loaded and normalized it. -/
def crowdedNormal : Session :=
  let loaded := ((answer crowded .marked 1 (.load .root)).run .empty).2
  ((answer crowded .marked 3 (.normalize 0)).run loaded).2

theorem reachable_crowdedNormal : Reachable crowded .marked crowdedNormal :=
  .tail (.single (step_ask (.load .root) 1 (by simp [Request.ids])))
    (step_ask (.normalize 0) 3 (by decide +kernel))

theorem mirrors_crowded : ∃ c t, (asType 9 .marked 4).run crowdedNormal = (.ok (some c), t) ∧
    MirrorsClass .marked t (crowdedNormal.arena.schema 4) c ∧
    c.fields.map (fun f => (f.name, f.wireName, f.required)) =
      [("f_b", "a", false), ("f_b_2", "b", true)] := by
  have hfields : (((asType 9 .marked 4).run crowdedNormal).1.toOption.bind id).map (fun c =>
      c.fields.map fun f => (f.name, f.wireName, f.required)) =
        some [("f_b", "a", false), ("f_b_2", "b", true)] := by decide +kernel
  obtain ⟨c, hc, hfields⟩ := Option.map_eq_some_iff.1 hfields
  obtain ⟨_, hr, rfl⟩ := Option.bind_eq_some_iff.1 hc
  have hrun := Work.run_eq_of_toOption hr
  exact ⟨c, _, hrun, mirrors_of_asType reachable_crowdedNormal hrun, hfields⟩

end ApiModel.Session
