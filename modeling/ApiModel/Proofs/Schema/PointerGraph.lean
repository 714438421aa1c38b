/-
  ApiModel.Proofs.Schema.PointerGraph

  Loading builds the graph of the pointers of a document. In a session that has only been asked for
  schemas that there are, a schema stands for the place where its pointer ends, two pointers have the
  same schema just when they end at the same place, and where a schema says something about other
  schemas, it refers to the ones that loading their places gives.
-/
import ApiModel.Proofs.Schema.Legible
import ApiModel.Proofs.Schema.Located
import ApiModel.Proofs.Schema.Slot
import Mathlib.Data.Set.Function

namespace ApiModel.Session

open Arena (Labels Named named_id named_none named_some named_nil named_empty
  named_ids)
open Document Work

variable {document v : Json} {s t u : Session} {p q target : Pointer} {id c : SchemaId}
  {fields : List (String × Json)} {naming : Naming}

/-! ## Sessions that have only been asked for schemas that there are -/

/-- The session `t` is left by a load in `s` that gave a schema. -/
def Loading (document : Json) (s t : Session) : Prop :=
  ∃ p id, (load document p).run s = (.ok id, t)

/-- A session that loads lead to from an empty one, each of which gave a schema. -/
abbrev Assembled (document : Json) (s : Session) : Prop :=
  Relation.ReflTransGen (Loading document) .empty s

/-- What is known of such a session: its schemas have the names of their places, and they can be
    read. -/
structure Graph (V : Survey document) (ℓ : Labels) (s : Session) : Prop extends
    Charted V 0 [] ℓ s where
  legible : ∀ q v id, resolve document q = .ok (q, v) → s.loaded.get? q = some id → Legible q v

section Graph

variable {V : Survey document} {ℓ : Labels}

theorem graph_empty (V : Survey document) (ℓ : Labels) : Graph V ℓ .empty :=
  ⟨charted_empty V ℓ, fun _ _ _ _ h => by simp [Session.empty] at h⟩

theorem Graph.loading (h : Graph V ℓ s) (hrun : (load document p).run s = (.ok id, t)) :
    ∃ ℓ', Graph V ℓ' t ∧ Onward ℓ s ℓ' t ∧ Named ℓ' t.arena id (nameAt document V.name p) := by
  obtain ⟨ℓ', honward, hcharted, hid⟩ := (guiding_load V 0 p [] ℓ s h.toCharted).of_ok hrun
  have hdeciphers := (deciphering_loadWithin document (loadBound document) p s).of_ok hrun
  refine ⟨ℓ', ⟨hcharted, fun q v i hq hi => ?_⟩, honward, hid⟩
  rcases hdeciphers.1.2 q v i hq hi with ⟨j, hj⟩ | hlegible
  · exact h.legible q v j hq hj
  · exact hlegible

theorem Graph.later (h : Graph V ℓ s) (hst : Relation.ReflTransGen (Loading document) s t) :
    ∃ ℓ', Graph V ℓ' t ∧ Onward ℓ s ℓ' t := by
  induction hst with
  | refl => exact ⟨ℓ, h, .refl ℓ s⟩
  | tail _ hload ih =>
      obtain ⟨ℓ', h', honward⟩ := ih
      obtain ⟨p, id, hrun⟩ := hload
      obtain ⟨ℓ'', h'', honward', -⟩ := h'.loading hrun
      exact ⟨ℓ'', h'', honward.trans honward'⟩

/-! ## What a load does -/

/-- A pointer that is known is looked up, and nothing else happens. -/
theorem run_load_of_loaded (h : s.loaded.get? p = some id) :
    (load document p).run s = (.ok id, s) := by
  show (loadStep document _ p).run s = _
  unfold loadStep
  rw [run_bind, run_view, h]
  rfl

/-- Nothing happens for a pointer that leads nowhere. -/
theorem run_load_of_unresolved {f : Fault} (h : s.loaded.get? p = none)
    (hres : resolve document p = .error f) :
    (load document p).run s = (.error (.fault f), s) := by
  show (loadStep document _ p).run s = _
  unfold loadStep
  rw [run_bind, run_view, h]
  dsimp only
  rw [run_bind, hres]
  rfl

/-- A pointer that ends at a known place is added to what is known. -/
theorem run_load_of_target (h : s.loaded.get? p = none)
    (hres : resolve document p = .ok (target, v)) (ht : s.loaded.get? target = some id) :
    (load document p).run s = (.ok id, { s with loaded := s.loaded.insert p id }) := by
  show (loadStep document _ p).run s = _
  have hend : (Work.ofExcept (.ok (target, v)) : SessionWork _).run s = (.ok (target, v), s) := rfl
  unfold loadStep
  rw [run_bind, run_view, h]
  dsimp only
  rw [run_bind, hres, hend]
  dsimp only
  rw [run_bind, run_view, ht]
  rfl

/-- A pointer that ends at a new place gives it a number, and what is there is read. -/
theorem run_load_of_new (h : s.loaded.get? p = none) (hres : resolve document p = .ok (target, v))
    (ht : s.loaded.get? target = none) :
    (load document p).run s = (do
      let m ← readSchema (loadWithin document (loadBound document - 1)) target v
      Work.modify fun t => { t with arena := t.arena.replace s.arena.next m }
      return s.arena.next : SessionWork SchemaId).run (reserved s target p) := by
  show (loadStep document _ p).run s = _
  have hend : (Work.ofExcept (.ok (target, v)) : SessionWork _).run s = (.ok (target, v), s) := rfl
  unfold loadStep
  rw [run_bind, run_view, h]
  dsimp only
  rw [run_bind, hres, hend]
  dsimp only
  rw [run_bind, run_view, ht]
  rfl

/-- A schema with the name of the place of a pointer is that of the place where references end, if
    pointers that lead nowhere have another name. -/
theorem Graph.exists_target (h : Graph V ℓ s) (hV : ∀ site, V.name site ≠ 0)
    (hc : Named ℓ s.arena c (nameAt document V.name q)) :
    ∃ target v, resolve document q = .ok (target, v) ∧
      Named ℓ s.arena c (V.name (.value target)) := by
  obtain ⟨hlt, hname⟩ := named_id.1 hc
  cases hres : resolve document q with
  | error e =>
      obtain ⟨site, hsite, -⟩ := h.site c (Nat.zero_le c) hlt
      simp only [nameAt, hres] at hname
      exact absurd (hsite.symm.trans hname.symm) (hV site)
  | ok r =>
      rw [nameAt_of_resolve V.name hres] at hc
      exact ⟨r.1, r.2, rfl, hc⟩

/-- It is the schema that loading the pointer gives. -/
theorem Graph.load_eq (h : Graph V ℓ s) (hV : ∀ site, V.name site ≠ 0)
    (hc : Named ℓ s.arena c (nameAt document V.name q)) :
    ((load document q).run s).1 = .ok c := by
  obtain ⟨target, v, hres, htarget⟩ := h.exists_target hV hc
  obtain ⟨hlt, hname⟩ := named_id.1 htarget
  cases hq : s.loaded.get? q with
  | none => rw [run_load_of_target hq hres (h.value c target hlt hname.symm)]
  | some id =>
      obtain ⟨hid, hid'⟩ := named_id.1 (h.loaded q id hq)
      rw [nameAt_of_resolve V.name hres] at hid'
      rw [run_load_of_loaded hq, h.inj id c hid hlt (hid'.symm.trans hname)]

end Graph

/-! ## The graph -/

section Graph

variable {V : Survey document} {ℓ : Labels}

theorem named_child? {a : Arena} {m m' : Schema} (h : Named ℓ a m m') (slot : Slot) :
    Named ℓ a (slot.child? m) (slot.child? m') := by
  have hget : ∀ {l l' : List SchemaId}, Named ℓ a l l' →
      ∀ i : Nat, Named ℓ a l[i]? l'[i]? := by
    intro l l' hl i
    obtain ⟨hlt, rfl⟩ := named_ids.1 hl
    rw [List.getElem?_map]
    cases hi : l[i]? with
    | none => exact named_none.2 rfl
    | some c => exact named_some.2 ⟨_, rfl, named_id.2 ⟨hlt c (List.mem_of_getElem? hi), rfl⟩⟩
  cases slot with
  | items => exact h.items
  | property name => exact h.property name
  | extras => exact h.extraSchema?
  | member combinator i =>
      cases combinator with
      | allOf => exact hget h.allOf i
      | anyOf => exact hget h.anyOf i
      | oneOf => exact hget h.oneOf i

/-- A schema that is the schema of an object in terms of names refers to what is read at its places. -/
theorem Graph.childrenAt (h : Graph V ℓ s) (hV : ∀ site, V.name site ≠ 0) {m : Schema} {k : Schema}
    (hk : readKeywords target fields = .ok k)
    (hm : ∀ slot : Slot, Named ℓ s.arena (slot.child? m)
      (slot.child? (objectAt (nameAt document V.name) target fields))) :
    ChildrenAt document s target (.obj fields) m := by
  intro slot
  have hchild := hm slot
  rw [child?_objectAt hk] at hchild
  cases hvalue : slot.value? (.obj fields) with
  | none =>
      rw [hvalue] at hchild
      cases hc : slot.child? m with
      | none => exact .none
      | some c =>
          rw [hc] at hchild
          obtain ⟨_, hnone, -⟩ := named_some.1 hchild
          cases hnone
  | some w =>
      rw [hvalue] at hchild
      cases hc : slot.child? m with
      | none =>
          rw [hc] at hchild
          cases named_none.1 hchild
      | some c =>
          rw [hc] at hchild
          obtain ⟨_, hname, hc⟩ := named_some.1 hchild
          cases hname
          exact .some (h.load_eq hV hc)

/-- Names that tell schemas apart tell apart what the schemas say. -/
theorem named_unique {a : Arena} (hinj : ∀ i j, i < a.next → j < a.next → ℓ i = ℓ j → i = j)
    {m m' x : Schema} (h : Named ℓ a m x) (h' : Named ℓ a m' x) : m = m' := by
  have hinjOn : Set.InjOn ℓ {i | i < a.next} := fun i hi j hj => hinj i j hi hj
  let back := Function.invFunOn ℓ {i | i < a.next}
  have hback : ∀ {m}, Named ℓ a m x → x.rename back = m := by
    intro m h
    have hrename : x = m.rename ℓ := h.eq
    calc x.rename back = m.rename (back ∘ ℓ) := by rw [hrename, Schema.rename_rename]
      _ = m.rename id := Schema.schema_rename_congr fun c hc =>
          hinjOn.leftInvOn_invFunOn (h.known c hc)
      _ = m := Schema.rename_id m
  rw [← hback h, hback h']

theorem Graph.content (h : Graph V ℓ s) {site : Site} (hid : Named ℓ s.arena id (V.name site)) :
    Named ℓ s.arena (s.arena.schema id) (siteSchema document V.name site) := by
  obtain ⟨hlt, hname⟩ := named_id.1 hid
  obtain ⟨site', hsite, ⟨q, hq, -⟩ | hcontent⟩ := h.site id (Nat.zero_le id) hlt
  · cases hq
  · cases V.inj (hname.trans hsite)
    exact hcontent

/-- A nullable schema of combinators without a type is split, and only such a one. -/
theorem split_iff (child : Pointer → SchemaId) {k : Schema}
    (hk : readKeywords target fields = .ok k) : Split (.obj fields) ↔
      flag fields "nullable" = true ∧ (objectAt child target fields).kinds = none ∧
        (objectAt child target fields).hasCombinators = true := by
  have hkinds : (objectAt child target fields).kinds = k.kinds := by
    rw [objectAt_of_readKeywords hk]
  rw [flag_eq_true_iff, hkinds, kinds_eq_none_iff hk, hasCombinators_iff]
  refine and_congr_right fun _ => and_congr_right fun _ => exists_congr fun combinator => ?_
  rw [child?_objectAt hk, ne_eq, ne_eq, Option.map_eq_none_iff]

theorem get?_eq_none (hv : ∀ fields, v ≠ .obj fields) (key : String) : v.get? key = none := by
  cases v with
  | obj fields => exact absurd rfl (hv fields)
  | _ => rfl

/-- Only objects refer to schemas. -/
theorem value?_eq_none (hv : ∀ fields, v ≠ .obj fields) (slot : Slot) : slot.value? v = none := by
  have hget := get?_eq_none hv
  cases slot <;> simp [Slot.value?, hget]

theorem child?_blank (place : Pointer) (ks : Option KindSet) (slot : Slot) :
    slot.child? { Schema.blank place with kinds := ks } = none := by
  cases slot with
  | member combinator i => cases combinator <;> rfl
  | _ => rfl

theorem child?_schemaAt {name : Site → SchemaId} (hv : ∀ fields, v ≠ .obj fields)
    (place : Pointer) (slot : Slot) : slot.child? (schemaAt document name place v) = none := by
  unfold schemaAt
  split
  · exact child?_blank place none slot
  · exact child?_blank place (some .empty) slot
  · next fields => exact absurd rfl (hv fields)
  · exact child?_blank place none slot

/-- What is not split refers to what the object refers to. -/
theorem child?_nullableAt {name : Site → SchemaId} {m : Schema} (place : Pointer)
    (hm : ¬(m.kinds = none ∧ m.hasCombinators = true)) (slot : Slot) :
    slot.child? (nullableAt name place m) = slot.child? m := by
  unfold nullableAt
  split
  · cases slot with
    | member combinator i => cases combinator <;> rfl
    | _ => rfl
  · next hkinds =>
      rw [if_neg fun hcomb => hm ⟨hkinds, hcomb⟩]

theorem mirrors_of_not_object (hv : ∀ fields, v ≠ .obj fields)
    (hpointer : (s.arena.schema id).pointer = target)
    (hcontent : Named ℓ s.arena (s.arena.schema id) (schemaAt document V.name target v)) :
    Mirrors document s target v id where
  pointer := hpointer
  whole _ slot := by
    have hchild := named_child? hcontent slot
    rw [child?_schemaAt hv] at hchild
    rw [value?_eq_none hv]
    cases hc : slot.child? (s.arena.schema id) with
    | none => exact .none
    | some c =>
        rw [hc] at hchild
        obtain ⟨_, hnone, -⟩ := named_some.1 hchild
        cases hnone
  split h := by
    have hnullable := h.1
    rw [get?_eq_none hv] at hnullable
    cases hnullable

/-- The schema of a nullable object that is split, and the two that it is split into. -/
theorem Graph.mirrors_split (h : Graph V ℓ s) (hV : ∀ site, V.name site ≠ 0) {k : Schema}
    (hk : readKeywords target fields = .ok k) (hnode : node document target = .ok (.obj fields))
    (hcontent : Named ℓ s.arena (s.arena.schema id)
      { Schema.blank target with anyOf := [V.name (.inner target), V.name (.null target)] }) :
    ∃ inner null, s.arena.schema id = { Schema.blank target with anyOf := [inner, null] } ∧
      s.arena.schema null = nullAt target ∧ (s.arena.schema inner).pointer = target ∧
      ChildrenAt document s target (.obj fields) (s.arena.schema inner) := by
  have hanyOf := hcontent.anyOf
  obtain ⟨hlt, hnames⟩ := named_ids.1 hanyOf
  have htwo : (s.arena.schema id).anyOf.length = 2 := by
    simpa using (congrArg List.length hnames).symm
  obtain ⟨inner, null, hids⟩ := List.length_eq_two.1 htwo
  rw [hids] at hlt hnames
  simp only [List.map_cons, List.map_nil, List.cons.injEq, and_true] at hnames
  have hinner : Named ℓ s.arena inner (V.name (.inner target)) :=
    named_id.2 ⟨hlt inner (by simp), hnames.1⟩
  have hnull : Named ℓ s.arena null (V.name (.null target)) :=
    named_id.2 ⟨hlt null (by simp), hnames.2⟩
  have hobject : siteSchema document V.name (.inner target) =
      objectAt (nameAt document V.name) target fields := by
    simp [siteSchema, hnode]
  have hcontent' := hobject ▸ h.content hinner
  refine ⟨inner, null, ?_, ?_, ?_, h.childrenAt hV hk (named_child? hcontent')⟩
  · refine named_unique h.inj hcontent (named_object (Schema.blank target) (named_none.2 rfl)
      named_empty (named_none.2 rfl) (named_nil.2 rfl) ?_ (named_nil.2 rfl))
    exact hids ▸ hanyOf
  · exact named_unique h.inj (h.content hnull) ⟨by rintro _ ⟨⟩, rfl⟩
  · have heq := congrArg Schema.pointer hcontent'.eq
    exact heq.symm.trans pointer_objectAt

/-- The schema with the name of a place stands for the value there. -/
theorem Graph.mirrors (h : Graph V ℓ s) (hV : ∀ site, V.name site ≠ 0)
    (hres : resolve document target = .ok (target, v))
    (hid : Named ℓ s.arena id (V.name (.value target))) : Mirrors document s target v id := by
  have hnode := node_of_resolve hres
  have hsite : siteSchema document V.name (.value target) = schemaAt document V.name target v := by
    simp [siteSchema, hnode]
  have hcontent := hsite ▸ h.content hid
  have hpointer : (s.arena.schema id).pointer = target := by
    have heq := congrArg Schema.pointer hcontent.eq
    exact heq.symm.trans (pointer_schemaAt document V.name target v)
  by_cases hv : ∀ fields, v ≠ .obj fields
  · exact mirrors_of_not_object hv hpointer hcontent
  obtain ⟨fields, rfl⟩ : ∃ fields, v = .obj fields := by
    simpa using hv
  obtain ⟨hlt, hname⟩ := named_id.1 hid
  obtain ⟨k, hk⟩ := h.legible target _ id hres (h.value id target hlt hname.symm) fields rfl
  have hsplit := split_iff (nameAt document V.name) hk
  refine ⟨hpointer, fun hwhole => h.childrenAt hV hk fun slot => ?_, fun h' => ?_⟩
  · rw [hsplit] at hwhole
    have hchild := named_child? hcontent slot
    unfold schemaAt at hchild
    by_cases hflag : flag fields "nullable" = true
    · simp only [hflag, if_true] at hchild
      rwa [child?_nullableAt target fun hm => hwhole ⟨hflag, hm⟩] at hchild
    · dsimp only at hchild
      rwa [if_neg hflag] at hchild
  · obtain ⟨hflag, hkinds, hcomb⟩ := hsplit.1 h'
    refine h.mirrors_split hV hk hnode ?_
    unfold schemaAt nullableAt at hcontent
    simpa only [hflag, if_true, hkinds, hcomb] using hcontent

end Graph

/-- Loading comes to an end everywhere, and what loads build is the graph of the pointers. In a
    session that has only been asked for schemas that there are, the schema that loading a pointer
    gives has the pointer where references end from there and refers to what loading the places of
    its children gives; and loading another pointer, then or later, gives the same schema just when
    references end at the same place. -/
theorem pointer_graph (document : Json) (naming : Naming) :
    (∀ s, Reachable document naming s →
      ∀ p, ((load document p).run s).1 ≠ .error .exhausted) ∧
    ∀ s, Assembled document s → ∀ p id t, (load document p).run s = (.ok id, t) →
      ∃ target v, resolve document p = .ok (target, v) ∧ Mirrors document t target v id ∧
        ∀ t', Relation.ReflTransGen (Loading document) t t' →
          ∀ q id' u, (load document q).run t' = (.ok id', u) →
            (id' = id ↔ ∃ w, resolve document q = .ok (target, w)) := by
  refine ⟨fun s hs p hexhausted => ?_, fun s hs p id t hrun => ?_⟩
  · have hlawful := hs.lawful Arena.upheld_free hereditary_true trivial
    have hfails : Fails (load document p) s (· ≠ .exhausted) :=
      fails_load (fun _ h => .inl h) hereditary_true trivial hlawful.readable (Nat.le_refl _) p
    exact hfails.of_error hexhausted rfl
  obtain ⟨V, hV⟩ := exists_survey_ne_zero document
  obtain ⟨ℓ₀, h₀, -⟩ := (graph_empty V fun i => i).later hs
  obtain ⟨ℓ₁, h₁, -, hid⟩ := h₀.loading hrun
  obtain ⟨target, v, hres, htarget⟩ := h₁.exists_target hV hid
  refine ⟨target, v, hres, h₁.mirrors hV (resolve_target hres) htarget, ?_⟩
  intro t' hlater q id' u hrun'
  obtain ⟨ℓ₂, h₂, honward⟩ := h₁.later hlater
  obtain ⟨ℓ₃, h₃, honward', hid'⟩ := h₂.loading hrun'
  obtain ⟨target', w, hres', htarget'⟩ := h₃.exists_target hV hid'
  obtain ⟨hlt, hname⟩ := named_id.1 ((honward.trans honward').carry htarget)
  obtain ⟨hlt', hname'⟩ := named_id.1 htarget'
  constructor
  · rintro rfl
    cases V.inj (hname.trans hname'.symm)
    exact ⟨w, hres'⟩
  · rintro ⟨w', hw'⟩
    cases hres'.symm.trans hw'
    exact h₃.inj id' id hlt' hlt (hname'.symm.trans hname)

/-- Cells, each of which has a link to the next one or to nothing. -/
def cells : Json :=
  .obj [("cell", .obj [("type", .str "object"),
      ("properties", .obj [("next", .obj [("$ref", .str "#/link")])])]),
    ("link", .obj [("nullable", .bool true), ("anyOf", .arr [.obj [("$ref", .str "#/cell")]])])]

/-- The session that has loaded the links. -/
def cellsLoaded : Session := ((load cells (Pointer.root.push "link")).run .empty).2

theorem run_load_cells :
    (load cells (Pointer.root.push "link")).run .empty = (.ok 0, cellsLoaded) :=
  run_eq_of_toOption (by decide +kernel)

theorem pointer_graph_cells :
    ((load cells .root).run cellsLoaded).1 ≠ .error .exhausted ∧
    ∃ target v, resolve cells (Pointer.root.push "link") = .ok (target, v) ∧
      Mirrors cells cellsLoaded target v 0 ∧
      ∃ w, resolve cells (((Pointer.root.push "cell").push "properties").push "next") =
        .ok (target, w) := by
  obtain ⟨hends, hgraph⟩ := pointer_graph cells .marked
  obtain ⟨target, v, hres, hmirrors, hsame⟩ := hgraph .empty .refl _ 0 _ run_load_cells
  refine ⟨hends cellsLoaded (.single (step_load _ _)) .root, target, v,
    hres, hmirrors, ?_⟩
  -- the link in the cell leads back to the schema that the link has been loaded as
  have hnext : (load cells (((Pointer.root.push "cell").push "properties").push "next")).run
      cellsLoaded = (.ok 0, _) := run_eq_of_toOption (by decide +kernel)
  exact (hsame _ .refl _ 0 _ hnext).1 rfl

/-! ## Loading once more -/

/-- Whatever comes of reading what a new pointer leads to, the pointer leads to a number then. -/
theorem exists_loaded_of_new (hs : Reachable document naming s) (hp : s.loaded.get? p = none)
    (hres : resolve document p = .ok (target, v)) (htarget : s.loaded.get? target = none) :
    ∃ id, ((load document p).run s).2.loaded.get? p = some id := by
  have hreadable := (hs.lawful Arena.upheld_free hereditary_true trivial).readable
  have hK : ∀ id, s.arena.next ≤ id → Loadable s id := fun _ h => .inl h
  have hn := (loads_reserved (Nat.le_refl _) hp htarget).next
  have hreader : Reader (fun _ => True) (Loadable s) s.arena.next
      (loadWithin document (loadBound document - 1)) :=
    reader_loadWithin hK hereditary_true trivial _
  have hread : Reads (fun _ => True) (Loadable s) s.arena.next
      (readSchema (loadWithin document (loadBound document - 1)) target v)
      (reserved s target p) _ :=
    reads_readSchema hK hereditary_true hreader (readable_reserved hK hreadable (Nat.le_refl _)) hn
      trivial
  have hreserved : (reserved s target p).loaded.get? p = some s.arena.next := by
    rw [get?_reserved, if_pos (.inl rfl)]
  refine ⟨s.arena.next, ?_⟩
  rw [run_load_of_new hp hres htarget, run_bind]
  have hkept := hread.final.2.loaded p _ hreserved
  rcases hrun : (readSchema (loadWithin document (loadBound document - 1)) target v).run
    (reserved s target p) with ⟨e | m, t⟩ <;> rw [hrun] at hkept <;> exact hkept

/-- A load is not undone when it fails: the number is reserved first, and the pointer leads to it
    ever after. So a pointer that has been asked for once is looked up from then on, unless it leads
    nowhere; then the session is as it was. -/
theorem load_again (hs : Reachable document naming s) {r : Except Failure SchemaId}
    (hrun : (load document p).run s = (r, t)) :
    (∃ id, (load document p).run t = (.ok id, t)) ∨
      ∃ f, resolve document p = .error f ∧ r = .error (.fault f) ∧ t = s := by
  cases hp : s.loaded.get? p with
  | some id =>
      rw [run_load_of_loaded hp] at hrun
      cases hrun
      exact .inl ⟨id, run_load_of_loaded hp⟩
  | none =>
  cases hres : resolve document p with
  | error f =>
      rw [run_load_of_unresolved hp hres] at hrun
      cases hrun
      exact .inr ⟨f, rfl, rfl, rfl⟩
  | ok found =>
  obtain ⟨target, v⟩ := found
  refine .inl ?_
  cases htarget : s.loaded.get? target with
  | some id =>
      rw [run_load_of_target hp hres htarget] at hrun
      cases hrun
      exact ⟨id, run_load_of_loaded (Dict.get?_insert_self ..)⟩
  | none =>
      obtain ⟨id, hid⟩ := exists_loaded_of_new hs hp hres htarget
      rw [hrun] at hid
      exact ⟨id, run_load_of_loaded hid⟩

/-- A schema of a kind that there is not. -/
def illTyped : Json := .obj [("type", .str "text")]

/-- What could not be read the first time is looked up the second time. -/
example :
    let first := (load illTyped .root).run .empty
    first.1.toOption = none ∧ ((load illTyped .root).run first.2).1.toOption = some 0 := by
  decide +kernel

end ApiModel.Session
