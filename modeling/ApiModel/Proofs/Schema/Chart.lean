/-
  ApiModel.Proofs.Schema.Chart

  What loading stores has the name of its place. Each pointer leads to the schema named after where
  it ends, and each place is read once, so no two schemas have the same name. A place whose children
  are still being read has a number only; the schema that comes in its stead says what the document
  says.
-/
import ApiModel.Proofs.Schema.Labels
import ApiModel.Proofs.Schema.Load
import ApiModel.Proofs.Schema.Site

namespace ApiModel.Session

open Arena (Labels Extends Named named_id named_none named_some named_nil named_cons named_allowed
  named_matching named_empty named_insert)
open Mentions (ids rename)
open Document Work

variable {document : Json} {V : Survey document} {n : Nat} {todo : List Pointer} {ℓ ℓ' : Labels}
  {s t : Session} {p q target : Pointer} {id : SchemaId}

/-! ## Charts -/

/-- From `n` on, the schemas of a session are those of places and have their names; those of the
    places in `todo` are only numbers yet. -/
structure Placed (V : Survey document) (n : Nat) (todo : List Pointer) (ℓ : Labels) (s : Session) :
    Prop where
  loaded : ∀ p id, s.loaded.get? p = some id → Named ℓ s.arena id (nameAt document V.name p)
  inj : ∀ i j, i < s.arena.next → j < s.arena.next → ℓ i = ℓ j → i = j
  value : ∀ i q, i < s.arena.next → ℓ i = V.name (.value q) → s.loaded.get? q = some i
  site : ∀ i, n ≤ i → i < s.arena.next → ∃ site, ℓ i = V.name site ∧
    ((∃ q ∈ todo, site = .value q) ∨
      Named ℓ s.arena (s.arena.schema i) (siteSchema document V.name site))
  numbered : ∀ q ∈ todo, ∃ id, s.loaded.get? q = some id

/-- A place is split only when its schema has been read. -/
structure Charted (V : Survey document) (n : Nat) (todo : List Pointer) (ℓ : Labels)
    (s : Session) : Prop extends Placed V n todo ℓ s where
  split : ∀ i q, i < s.arena.next → ℓ i = V.name (.inner q) ∨ ℓ i = V.name (.null q) →
    q ∉ todo ∧ ∃ id, s.loaded.get? q = some id

/-- The labels `ℓ'` of the session `t` go on from the labels `ℓ` of `s`. -/
structure Onward (ℓ : Labels) (s : Session) (ℓ' : Labels) (t : Session) : Prop where
  ext : Extends s.arena ℓ ℓ'
  next : s.arena.next ≤ t.arena.next

theorem Onward.refl (ℓ : Labels) (s : Session) : Onward ℓ s ℓ s := ⟨.refl _ ℓ, Nat.le_refl _⟩

theorem Onward.trans {ℓ'' : Labels} {u : Session} (h : Onward ℓ s ℓ' t) (h' : Onward ℓ' t ℓ'' u) :
    Onward ℓ s ℓ'' u :=
  ⟨h.ext.trans h.next h'.ext, Nat.le_trans h.next h'.next⟩

/-- What had a name before has it still. -/
theorem Onward.carry {α : Type} [Mentions α] {w w' : α} (h : Onward ℓ s ℓ' t)
    (hw : Named ℓ s.arena w w') : Named ℓ' t.arena w w' := Arena.named_mono hw h.next h.ext

/-- The label `l` for the number that comes next. -/
theorem onward_update (ℓ : Labels) (s : Session) (l : SchemaId)
    (ht : t.arena.next = s.arena.next + 1) :
    Onward ℓ s (Function.update ℓ s.arena.next l) t :=
  ⟨Arena.extends_update s.arena ℓ l, ht ▸ Nat.le_succ _⟩

/-- One more schema, and maybe pointers that lead to it. -/
theorem Placed.push (h : Placed V n todo ℓ s) {site : Site} {m : Schema}
    {loaded : Dict Pointer SchemaId} {todo' : List Pointer}
    (hnew : ∀ i, i < s.arena.next → ℓ i ≠ V.name site)
    (hloaded : ∀ p id, loaded.get? p = some id → s.loaded.get? p = some id ∨
      id = s.arena.next ∧ nameAt document V.name p = V.name site)
    (hgrows : ∀ p id, s.loaded.get? p = some id → loaded.get? p = some id)
    (hvalue : ∀ q, site = .value q → loaded.get? q = some s.arena.next)
    (htodo : ∀ q ∈ todo, q ∈ todo') (htodo' : ∀ q ∈ todo', q ∈ todo ∨ site = .value q)
    (hm : (∃ q ∈ todo', site = .value q) ∨
      Named ℓ s.arena m (siteSchema document V.name site)) :
    Placed V n todo' (Function.update ℓ s.arena.next (V.name site))
      { s with arena := s.arena.push m, loaded := loaded } := by
  have hnext := Arena.next_push s.arena m
  have honward := onward_update
    (t := { s with arena := s.arena.push m, loaded := loaded }) ℓ s (V.name site) hnext
  generalize hℓ' : Function.update ℓ s.arena.next (V.name site) = ℓ' at honward ⊢
  have hself : ℓ' s.arena.next = V.name site := by rw [← hℓ', Function.update_self]
  have hcases : ∀ {i}, i < (s.arena.push m).next → i < s.arena.next ∨ i = s.arena.next :=
    fun hi => Nat.lt_succ_iff_lt_or_eq.1 (Nat.lt_of_lt_of_eq hi hnext)
  refine ⟨?loaded, ?inj, ?value, ?site, ?numbered⟩
  case loaded =>
    intro p id hp
    rcases hloaded p id hp with hp | ⟨rfl, hname⟩
    · exact honward.carry (h.loaded p id hp)
    · exact named_id.2 ⟨hnext ▸ Nat.lt_succ_self _, hname.trans hself.symm⟩
  case inj =>
    intro i j hi hj hij
    rcases hcases hi with hi | rfl <;> rcases hcases hj with hj | rfl
    · rw [honward.ext i hi, honward.ext j hj] at hij
      exact h.inj i j hi hj hij
    · rw [honward.ext i hi, hself] at hij
      exact absurd hij (hnew i hi)
    · rw [honward.ext j hj, hself] at hij
      exact absurd hij.symm (hnew j hj)
    · rfl
  case value =>
    intro i q hi hq
    rcases hcases hi with hi | rfl
    · exact hgrows q i (h.value i q hi (honward.ext i hi ▸ hq))
    · exact hvalue q (V.inj (hself.symm.trans hq))
  case site =>
    intro i hle hi
    dsimp only
    rw [Arena.schema_push]
    rcases hcases hi with hi | rfl
    · obtain ⟨site', hsite', hcontent⟩ := h.site i hle hi
      rw [if_neg (Nat.ne_of_lt hi)]
      refine ⟨site', (honward.ext i hi).trans hsite', hcontent.imp ?_ honward.carry⟩
      exact .imp fun q hq => ⟨htodo q hq.1, hq.2⟩
    · rw [if_pos rfl]
      exact ⟨site, hself, hm.imp_right honward.carry⟩
  case numbered =>
    intro q hq
    rcases htodo' q hq with hq | hq
    · exact (h.numbered q hq).imp (hgrows q)
    · exact ⟨_, hvalue q hq⟩

/-- One more schema that no pointer leads to. -/
theorem placed_push (h : Placed V n todo ℓ s) {site : Site} (hvalue : ∀ q, site ≠ .value q)
    (hnew : ∀ i, i < s.arena.next → ℓ i ≠ V.name site) {m : Schema}
    (hm : Named ℓ s.arena m (siteSchema document V.name site)) :
    Placed V n todo (Function.update ℓ s.arena.next (V.name site))
      { s with arena := s.arena.push m } :=
  h.push hnew (fun _ _ hp => .inl hp) (fun _ _ hp => hp) (fun q hq => absurd hq (hvalue q))
    (fun _ hq => hq) (fun _ hq => .inl hq) (.inr hm)

/-- The schema that was read comes in the stead of its number. -/
theorem placed_replace (h : Placed V n (q :: todo) ℓ s)
    (hid : Named ℓ s.arena id (V.name (.value q))) {m : Schema}
    (hm : Named ℓ s.arena m (siteSchema document V.name (.value q))) :
    Placed V n todo ℓ { s with arena := s.arena.replace id m } := by
  obtain ⟨hlt, hlabel⟩ := named_id.1 hid
  have honward : Onward ℓ s ℓ { s with arena := s.arena.replace id m } :=
    ⟨.refl _ ℓ, Nat.le_of_eq (next_replace id m).symm⟩
  have hold : ∀ {i}, i < (s.arena.replace id m).next → i < s.arena.next := fun hi =>
    next_replace id m ▸ hi
  refine ⟨fun p i hp => honward.carry (h.loaded p i hp),
    fun i j hi hj => h.inj i j (hold hi) (hold hj), fun i q hi => h.value i q (hold hi), ?_,
    fun q hq => h.numbered q (List.mem_cons_of_mem _ hq)⟩
  intro i hle hi
  dsimp only
  rw [Arena.schema_replace]
  by_cases heq : i = id
  · rw [if_pos ⟨heq, hlt⟩]
    exact ⟨.value q, heq ▸ hlabel.symm, .inr (honward.carry hm)⟩
  rw [if_neg fun h => heq h.1]
  obtain ⟨site, hsite, hcontent⟩ := h.site i hle (hold hi)
  refine ⟨site, hsite, hcontent.imp ?_ honward.carry⟩
  rintro ⟨q', hq', rfl⟩
  rcases List.mem_cons.1 hq' with rfl | hq'
  · exact absurd (h.inj i id (hold hi) hlt (hsite.trans hlabel)) heq
  · exact ⟨q', hq', rfl⟩

/-- A place gets its number before its schema is read. -/
theorem charted_reserve {v : Json} (h : Charted V n todo ℓ s) (hp : s.loaded.get? p = none)
    (htarget : s.loaded.get? target = none) (hres : resolve document p = .ok (target, v)) :
    Charted V n (target :: todo) (Function.update ℓ s.arena.next (V.name (.value target)))
      { s with
        arena := s.arena.push (.blank target)
        loaded := (s.loaded.insert target s.arena.next).insert p s.arena.next } := by
  have hget : ∀ q, ((s.loaded.insert target s.arena.next).insert p s.arena.next).get? q =
      if q = p ∨ q = target then some s.arena.next else s.loaded.get? q := fun q => by
    rw [Dict.get?_insert, Dict.get?_insert]
    by_cases hqp : q = p <;> simp [hqp]
  have hgrows : ∀ q id, s.loaded.get? q = some id →
      ((s.loaded.insert target s.arena.next).insert p s.arena.next).get? q = some id := by
    intro q id hq
    rw [hget, if_neg]
    · exact hq
    · rintro (rfl | rfl)
      · cases hp.symm.trans hq
      · cases htarget.symm.trans hq
  refine ⟨h.toPlaced.push ?_ ?_ hgrows ?_ (fun q hq => List.mem_cons_of_mem _ hq) ?_
    (.inl ⟨target, List.mem_cons_self, rfl⟩), ?_⟩
  · intro i hi hname
    cases htarget.symm.trans (h.value i target hi hname)
  · intro q id hq
    rw [hget] at hq
    split at hq
    · next hor =>
        cases hq
        refine .inr ⟨rfl, ?_⟩
        rcases hor with rfl | rfl
        · exact nameAt_of_resolve V.name hres
        · exact nameAt_of_resolve V.name (resolve_target hres)
    · exact .inl hq
  · rintro q ⟨⟩
    rw [hget, if_pos (.inr rfl)]
  · intro q hq
    rcases List.mem_cons.1 hq with rfl | hq
    · exact .inr rfl
    · exact .inl hq
  · intro i q hi hq
    rcases Nat.lt_succ_iff_lt_or_eq.1 (Nat.lt_of_lt_of_eq hi (Arena.next_push _ _)) with hi | rfl
    · rw [Function.update_of_ne (Nat.ne_of_lt hi)] at hq
      obtain ⟨hnot, id, hid⟩ := h.split i q hi hq
      refine ⟨fun hmem => ?_, id, hgrows q id hid⟩
      rcases List.mem_cons.1 hmem with rfl | hmem
      · cases htarget.symm.trans hid
      · exact hnot hmem
    · rw [Function.update_self] at hq
      rcases hq with hq | hq <;> cases V.inj hq

/-! ## Computations that find names -/

/-- What `x` does from `s` with the labels `ℓ` if it succeeds. -/
def Finds {α : Type} (ℓ : Labels) (x : SessionWork α) (s : Session)
    (Q : α → Session → Labels → Prop) : Prop :=
  x.Ends s (fun r t => ∃ ℓ', Onward ℓ s ℓ' t ∧ Q r t ℓ') fun _ _ => True

namespace Finds

variable {α β : Type} {x : SessionWork α} {f : α → SessionWork β}
  {Q : α → Session → Labels → Prop} {Q₂ : β → Session → Labels → Prop}

theorem pure {r : α} (h : Q r s ℓ) : Finds ℓ (Pure.pure r) s Q := ⟨ℓ, .refl ℓ s, h⟩

theorem fault {e : Fault} : Finds ℓ (Work.fault e) s Q := trivial

theorem bind (h : Finds ℓ x s Q)
    (hf : ∀ r t ℓ', Onward ℓ s ℓ' t → Q r t ℓ' → Finds ℓ' (f r) t Q₂) :
    Finds ℓ (x >>= f) s Q₂ := by
  refine ends_bind.2 (Ends.mono h ?_ fun _ _ h => h)
  rintro r t ⟨ℓ', honward, hr⟩
  refine Ends.mono (hf r t ℓ' honward hr) ?_ fun _ _ h => h
  rintro q u ⟨ℓ'', honward', hq⟩
  exact ⟨ℓ'', honward.trans honward', hq⟩

theorem view_bind {γ : Type} {g : Session → γ} {f : γ → SessionWork β}
    (h : Finds ℓ (f (g s)) s Q₂) : Finds ℓ (view g >>= f) s Q₂ := h

/-- A computation first whose run is known, and what it does to the labels. -/
theorem run_bind {r : α} (hx : x.run s = (.ok r, t)) (honward : Onward ℓ s ℓ' t)
    (h : Finds ℓ' (f r) t Q₂) : Finds ℓ (x >>= f) s Q₂ := by
  refine Finds.bind (Q := fun q u ℓ'' => q = r ∧ u = t ∧ ℓ'' = ℓ') ?_ ?_
  · unfold Finds Ends
    rw [hx]
    exact ⟨ℓ', honward, rfl, rfl, rfl⟩
  · rintro _ _ _ _ ⟨rfl, rfl, rfl⟩
    exact h

theorem ofExcept {r : Except Fault α} (h : ∀ a, r = .ok a → Q a s ℓ) :
    Finds ℓ (Work.ofExcept r) s Q := by
  cases r with
  | ok a => exact .pure (h a rfl)
  | error e => exact .fault

end Finds

/-- `x` keeps the session charted, and its result is `r'` in terms of names. -/
abbrev Calls {α : Type} [Mentions α] (V : Survey document) (n : Nat) (todo : List Pointer)
    (ℓ : Labels) (x : SessionWork α) (s : Session) (r' : α) : Prop :=
  Finds ℓ x s fun r t ℓ' => Charted V n todo ℓ' t ∧ Named ℓ' t.arena r r'

/-- A way of loading that gives the schema of the place where a pointer leads. -/
def Guiding (V : Survey document) (n : Nat) (load : Loader) : Prop :=
  ∀ p todo ℓ s, Charted V n todo ℓ s → Calls V n todo ℓ (load p) s (nameAt document V.name p)

/-! ## Child schemas -/

variable {load : Loader} {place : Pointer} {fields : List (String × Json)}

theorem calls_loadItems (hload : Guiding V n load) (hs : Charted V n todo ℓ s) :
    Calls V n todo ℓ (loadItems load place fields) s
      (itemsAt (nameAt document V.name) place fields) := by
  unfold loadItems itemsAt
  rcases fields.lookup "items" with _ | v
  · exact .pure ⟨hs, named_none.2 rfl⟩
  cases v with
  | arr _ => exact .fault
  | _ => exact .bind (hload _ todo ℓ s hs) fun id t ℓ' _ hid =>
      .pure ⟨hid.1, named_some.2 ⟨_, rfl, hid.2⟩⟩

theorem calls_loadProperties (hload : Guiding V n load) (hs : Charted V n todo ℓ s)
    (base : Pointer) (keys : List String) {read read' : Dict String SchemaId}
    (hread : Named ℓ s.arena read read') :
    Calls V n todo ℓ (loadProperties load base keys read) s
      (propertiesAt (nameAt document V.name) base keys read') := by
  induction keys generalizing read read' s ℓ with
  | nil => exact .pure ⟨hs, hread⟩
  | cons key keys ih =>
      unfold loadProperties propertiesAt
      exact .bind (hload _ todo ℓ s hs) fun id t ℓ' honward hid =>
        ih hid.1 (named_insert (honward.carry hread) key hid.2)

theorem calls_loadExtras (hload : Guiding V n load) (hs : Charted V n todo ℓ s) :
    Calls V n todo ℓ (loadExtras load place fields) s
      (extrasAt (nameAt document V.name) place fields) := by
  unfold loadExtras extrasAt
  rcases fields.lookup "additionalProperties" with _ | v
  · exact .pure ⟨hs, named_none.2 rfl⟩
  cases v with
  | bool yes => exact .pure ⟨hs, named_some.2 ⟨_, rfl, named_allowed.2 rfl⟩⟩
  | _ => exact .bind (hload _ todo ℓ s hs) fun id t ℓ' _ hid =>
      .pure ⟨hid.1, named_some.2 ⟨_, rfl, named_matching.2 ⟨_, rfl, hid.2⟩⟩⟩

theorem calls_loadFrom (hload : Guiding V n load) (hs : Charted V n todo ℓ s) (base : Pointer)
    (i : Nat) (items : List Json) :
    Calls V n todo ℓ (loadFrom load base i items) s
      (elementsAt (nameAt document V.name) base i items) := by
  induction items generalizing i s ℓ with
  | nil => exact .pure ⟨hs, named_nil.2 rfl⟩
  | cons v items ih =>
      unfold loadFrom elementsAt
      exact .bind (hload _ todo ℓ s hs) fun id t ℓ' _ hid =>
        .bind (ih hid.1 (i + 1)) fun ids u ℓ'' honward hids =>
          .pure ⟨hids.1, named_cons.2 ⟨_, _, rfl, honward.carry hid.2, hids.2⟩⟩

theorem calls_loadMembers (hload : Guiding V n load) (hs : Charted V n todo ℓ s)
    (keyword : String) :
    Calls V n todo ℓ (loadMembers load place fields keyword) s
      (membersAt (nameAt document V.name) place fields keyword) := by
  unfold loadMembers membersAt
  rcases fields.lookup keyword with _ | v
  · exact .pure ⟨hs, named_nil.2 rfl⟩
  cases v with
  | arr members => exact calls_loadFrom hload hs _ 0 members
  | _ => exact .fault

/-! ## Schemas -/

/-- The schema of an object, part by part. -/
theorem named_object {a : Arena} (k : Schema) {i i' : Option SchemaId}
    {d d' : Dict String SchemaId} {e e' : Option Extras}
    {alls alls' anys anys' ones ones' : List SchemaId} (hi : Named ℓ a i i') (hd : Named ℓ a d d')
    (he : Named ℓ a e e') (hall : Named ℓ a alls alls') (hany : Named ℓ a anys anys')
    (hone : Named ℓ a ones ones') :
    Named ℓ a ({ k with
        items := i, properties := d, extras := e, allOf := alls, anyOf := anys, oneOf := ones } :
        Schema)
      { k with
        items := i', properties := d', extras := e', allOf := alls', anyOf := anys',
        oneOf := ones' } where
  known c hc := by
    rcases Schema.mem_links.1 hc with hc | hc | hc | hc
    · exact hi.known c (by simp only at hc; simp [ids, hc])
    · exact hd.known c hc
    · exact he.known c (by simp only at hc; simp [ids, hc])
    · rcases Schema.mem_members.1 hc with hc | hc | hc
      · exact hall.known c (Mentions.mem_ids_list.2 hc)
      · exact hany.known c (Mentions.mem_ids_list.2 hc)
      · exact hone.known c (Mentions.mem_ids_list.2 hc)
  eq := by
    rw [hi.eq, hd.eq, he.eq, hall.eq, hany.eq, hone.eq]
    rfl

theorem named_withKinds {a : Arena} {m m' : Schema} (h : Named ℓ a m m') (ks : Option KindSet) :
    Named ℓ a ({ m with kinds := ks } : Schema) { m' with kinds := ks } where
  known := h.known
  eq := by
    rw [h.eq]
    rfl

theorem named_hasCombinators {a : Arena} {m m' : Schema} (h : Named ℓ a m m') :
    m'.hasCombinators = m.hasCombinators := by
  unfold Schema.hasCombinators
  rw [h.allOf.isEmpty, h.anyOf.isEmpty, h.oneOf.isEmpty]

theorem pointer_of_readKeywords {k : Schema} (h : readKeywords place fields = .ok k) :
    k.pointer = place :=
  (readKeywords_eq_ok h).2.2.2

/-- `x` gives the schema for the number `id`, which was the last one missing. -/
abbrev Fills (V : Survey document) (n : Nat) (todo : List Pointer) (id : SchemaId) (ℓ : Labels)
    (x : SessionWork Schema) (s : Session) : Prop :=
  Finds ℓ x s fun m t ℓ' => Charted V n todo ℓ' { t with arena := t.arena.replace id m }

theorem fills_pure (h : Charted V n (q :: todo) ℓ s)
    (hid : Named ℓ s.arena id (V.name (.value q))) {m : Schema}
    (hm : Named ℓ s.arena m (siteSchema document V.name (.value q))) :
    Fills V n todo id ℓ (pure m) s :=
  .pure ⟨placed_replace h.toPlaced hid hm, fun i p hi hp =>
    (h.split i p (next_replace id m ▸ hi) hp).imp_left fun hnot hmem =>
      hnot (List.mem_cons_of_mem _ hmem)⟩

/-- A nullable schema of combinators only is split in two. -/
theorem fills_split (h : Charted V n (q :: todo) ℓ s) (hq : q ∉ todo)
    (hid : Named ℓ s.arena id (V.name (.value q))) {m : Schema}
    (hm : Named ℓ s.arena m (siteSchema document V.name (.inner q)))
    (hsite : siteSchema document V.name (.value q) =
      { Schema.blank q with anyOf := [V.name (.inner q), V.name (.null q)] }) :
    Fills V n todo id ℓ (do
      let inner ← push m
      let null ← push (nullAt q)
      return { Schema.blank q with anyOf := [inner, null] }) s := by
  -- the place has not been split yet: it is still in the list
  have hinner : ∀ i, i < s.arena.next → ℓ i ≠ V.name (.inner q) := fun i hi heq =>
    (h.split i q hi (.inl heq)).1 List.mem_cons_self
  have hnull : ∀ i, i < s.arena.next → ℓ i ≠ V.name (.null q) := fun i hi heq =>
    (h.split i q hi (.inr heq)).1 List.mem_cons_self
  -- the number of the schema is followed by those of the two that it is split into
  have hnext : ∀ {t : Session} {i m}, i < (t.arena.push m).next → i < t.arena.next ∨
      i = t.arena.next := fun hi =>
    Nat.lt_succ_iff_lt_or_eq.1 (Nat.lt_of_lt_of_eq hi (Arena.next_push _ _))
  let s₁ : Session := { s with arena := s.arena.push m }
  let s₂ : Session := { s with arena := s₁.arena.push (nullAt q) }
  let ℓ₁ : Labels := Function.update ℓ s.arena.next (V.name (.inner q))
  let ℓ₂ : Labels := Function.update ℓ₁ s₁.arena.next (V.name (.null q))
  have hself₁ : ℓ₁ s.arena.next = V.name (.inner q) := Function.update_self ..
  have hself₂ : ℓ₂ s₁.arena.next = V.name (.null q) := Function.update_self ..
  have h₁ : Onward ℓ s ℓ₁ s₁ := onward_update ℓ s _ (Arena.next_push _ _)
  have h₂ : Onward ℓ₁ s₁ ℓ₂ s₂ := onward_update ℓ₁ s₁ _ (Arena.next_push _ _)
  have hlt₁ : s.arena.next < s₁.arena.next :=
    Nat.lt_of_lt_of_eq (Nat.lt_succ_self _) (Arena.next_push _ _).symm
  have hlt₂ : s₁.arena.next < s₂.arena.next :=
    Nat.lt_of_lt_of_eq (Nat.lt_succ_self _) (Arena.next_push _ _).symm
  have hplaced₁ : Placed V n (q :: todo) ℓ₁ s₁ :=
    placed_push h.toPlaced (fun _ hv => by cases hv) hinner hm
  have hplaced₂ : Placed V n (q :: todo) ℓ₂ s₂ := by
    refine placed_push hplaced₁ (fun _ hv => by cases hv) (fun i hi heq => ?_) ⟨by rintro _ ⟨⟩, rfl⟩
    rcases hnext hi with hi | rfl
    · exact hnull i hi ((h₁.ext i hi).symm.trans heq)
    · cases V.inj (hself₁.symm.trans heq)
  have hboth : Named ℓ₂ s₂.arena [s.arena.next, s₁.arena.next]
      [V.name (.inner q), V.name (.null q)] :=
    named_cons.2 ⟨_, _, rfl, h₂.carry (named_id.2 ⟨hlt₁, hself₁.symm⟩),
      named_cons.2 ⟨_, _, rfl, named_id.2 ⟨hlt₂, hself₂.symm⟩, named_nil.2 rfl⟩⟩
  have hsplit := named_object (Schema.blank q) (named_none.2 rfl) named_empty (named_none.2 rfl)
    (named_nil.2 rfl) hboth (named_nil.2 rfl)
  refine ⟨ℓ₂, h₁.trans h₂, placed_replace hplaced₂ (h₂.carry (h₁.carry hid)) (hsite ▸ hsplit), ?_⟩
  intro i p hi hp
  have hself : p = q → p ∉ todo ∧ ∃ id, s.loaded.get? p = some id := by
    rintro rfl
    exact ⟨hq, h.numbered p List.mem_cons_self⟩
  rcases hnext (t := s₁) (next_replace id _ ▸ hi) with hi | rfl
  · rw [h₂.ext i hi] at hp
    rcases hnext hi with hi | rfl
    · rw [h₁.ext i hi] at hp
      exact (h.split i p hi hp).imp_left fun hnot hmem => hnot (List.mem_cons_of_mem _ hmem)
    · rw [hself₁] at hp
      rcases hp with hp | hp <;> cases V.inj hp
      exact hself rfl
  · rw [hself₂] at hp
    rcases hp with hp | hp <;> cases V.inj hp
    exact hself rfl

theorem fills_allowNull (h : Charted V n (q :: todo) ℓ s) (hq : q ∉ todo)
    (hid : Named ℓ s.arena id (V.name (.value q)))
    (hnode : node document q = .ok (.obj fields)) (hnullable : flag fields "nullable" = true)
    {m : Schema} (hpointer : m.pointer = q)
    (hm : Named ℓ s.arena m (objectAt (nameAt document V.name) q fields)) :
    Fills V n todo id ℓ (allowNull m) s := by
  have hsite : siteSchema document V.name (.value q) =
      nullableAt V.name q (objectAt (nameAt document V.name) q fields) := by
    simp [siteSchema, hnode, schemaAt, hnullable]
  have hinner : siteSchema document V.name (.inner q) =
      objectAt (nameAt document V.name) q fields := by
    simp [siteSchema, hnode]
  have hkinds : (objectAt (nameAt document V.name) q fields).kinds = m.kinds := by
    rw [hm.eq]
    rfl
  have hcombines := named_hasCombinators hm
  unfold allowNull
  unfold nullableAt at hsite
  rw [hkinds, hcombines] at hsite
  split
  · next ks hks =>
      rw [hks] at hsite
      exact fills_pure h hid (hsite ▸ named_withKinds hm _)
  next hks =>
  rw [hks] at hsite
  dsimp only at hsite
  split
  · next hcomb =>
      rw [if_pos hcomb] at hsite
      rw [hpointer]
      exact fills_split h hq hid (hinner ▸ hm) hsite
  · next hcomb =>
      rw [if_neg hcomb] at hsite
      exact fills_pure h hid (hsite ▸ hm)

theorem Charted.congr (h : Charted V n todo ℓ s) (harena : t.arena = s.arena)
    (hloaded : t.loaded = s.loaded) : Charted V n todo ℓ t := by
  obtain ⟨a, l⟩ := t
  dsimp only at harena hloaded
  subst harena hloaded
  exact ⟨⟨h.loaded, h.inj, h.value, h.site, h.numbered⟩, h.split⟩

theorem finds_warn (w : Warning) : Finds ℓ (warn w) s fun _ t ℓ' =>
    t.arena = s.arena ∧ t.loaded = s.loaded ∧ ℓ' = ℓ := by
  have hsame : ∀ t : Session, t.arena = s.arena → t.loaded = s.loaded →
      ∃ ℓ', Onward ℓ s ℓ' t ∧ t.arena = s.arena ∧ t.loaded = s.loaded ∧ ℓ' = ℓ :=
    fun t harena hloaded => ⟨ℓ, ⟨.refl _ ℓ, harena ▸ Nat.le_refl _⟩, harena, hloaded, rfl⟩
  unfold warn
  refine hsame _ ?_ ?_ <;> dsimp only <;> split <;> rfl

/-- The schema that is read at a place is that of the place. -/
theorem fills_readSchema (hload : Guiding V n load) (h : Charted V n (q :: todo) ℓ s)
    (hq : q ∉ todo) (hid : Named ℓ s.arena id (V.name (.value q))) {v : Json}
    (hnode : node document q = .ok v) :
    Fills V n todo id ℓ (readSchema load q v) s := by
  have hsite : siteSchema document V.name (.value q) = schemaAt document V.name q v := by
    simp [siteSchema, hnode]
  unfold readSchema
  split
  · exact fills_pure h hid (hsite ▸ ⟨by rintro _ ⟨⟩, rfl⟩)
  · exact fills_pure h hid (hsite ▸ ⟨by rintro _ ⟨⟩, rfl⟩)
  · next fields =>
    refine .bind (Q := fun k t ℓ' => readKeywords q fields = .ok k ∧
      Charted V n (q :: todo) ℓ' t) (.ofExcept fun k hk => ⟨hk, h⟩) ?_
    rintro k s₀ ℓ₀ h₀ ⟨hk, hs₀⟩
    refine .bind (calls_loadItems hload hs₀) fun items s₁ ℓ₁ h₁ hitems => ?_
    refine .bind (calls_loadProperties hload hitems.1 _ _ named_empty)
      fun props s₂ ℓ₂ h₂ hprops => ?_
    refine .bind (calls_loadExtras hload hprops.1) fun extras s₃ ℓ₃ h₃ hextras => ?_
    refine .bind (calls_loadMembers hload hextras.1 "allOf") fun alls s₄ ℓ₄ h₄ hall => ?_
    refine .bind (calls_loadMembers hload hall.1 "anyOf") fun anys s₅ ℓ₅ h₅ hany => ?_
    refine .bind (calls_loadMembers hload hany.1 "oneOf") fun ones s₆ ℓ₆ h₆ hone => ?_
    have h₄₆ := h₅.trans h₆
    have h₃₆ := h₄.trans h₄₆
    have h₂₆ := h₃.trans h₃₆
    have hid₆ := (((h₀.trans h₁).trans h₂).trans h₂₆).carry hid
    have hm := named_object k ((h₂.trans h₂₆).carry hitems.2) (h₂₆.carry hprops.2)
      (h₃₆.carry hextras.2) (h₄₆.carry hall.2) (h₆.carry hany.2) hone.2
    rw [← objectAt_of_readKeywords hk] at hm
    have hpointer := pointer_of_readKeywords hk
    dsimp only
    generalize hmeq : ({ k with
      items := items, properties := props, extras := extras,
      allOf := alls, anyOf := anys, oneOf := ones } : Schema) = m at hm ⊢
    have hmpointer : m.pointer = q := hmeq ▸ hpointer
    -- a warning comes in between where there is a keyword that is not supported
    have hrest : ∀ u : Session, u.arena = s₆.arena → u.loaded = s₆.loaded →
        Fills V n todo id ℓ₆ (if flag fields "nullable" then allowNull m else return m) u := by
      intro u harena hloaded
      have hcharted := hone.1.congr harena hloaded
      rw [← harena] at hid₆ hm
      split
      · next hnullable => exact fills_allowNull hcharted hq hid₆ hnode hnullable hmpointer hm
      · next hnullable =>
          refine fills_pure hcharted hid₆ ?_
          rw [hsite, schemaAt, if_neg hnullable]
          exact hm
    split
    · refine .bind (finds_warn _) ?_
      rintro _ u ℓ' _ ⟨harena, hloaded, rfl⟩
      exact hrest u harena hloaded
    · exact hrest s₆ rfl rfl
  · exact .fault

/-! ## Loading -/

theorem calls_remember (h : Charted V n todo ℓ s) (hp : s.loaded.get? p = none)
    (hid : Named ℓ s.arena id (nameAt document V.name p)) :
    Calls V n todo ℓ (do
      remember p id
      return id) s (nameAt document V.name p) := by
  have hgrows : ∀ q i, s.loaded.get? q = some i → (s.loaded.insert p id).get? q = some i := by
    intro q i hq
    rw [Dict.get?_insert, if_neg]
    · exact hq
    · rintro rfl
      cases hp.symm.trans hq
  refine ⟨ℓ, ⟨.refl _ ℓ, Nat.le_refl _⟩,
    ⟨⟨?_, h.inj, fun i q hi hq => hgrows q i (h.value i q hi hq), h.site,
    fun q hq => (h.numbered q hq).imp (hgrows q)⟩, fun i q hi hq =>
      (h.split i q hi hq).imp_right (.imp (hgrows q))⟩, hid⟩
  intro q i hq
  rw [Dict.get?_insert] at hq
  split at hq
  · next heq =>
      cases hq
      exact heq ▸ hid
  · exact h.loaded q i hq

theorem guiding_loadStep (hload : Guiding V n load) : Guiding V n (loadStep document load) := by
  intro p todo ℓ s h
  unfold loadStep
  refine .view_bind ?_
  split
  · next id hid => exact .pure ⟨h, h.loaded p id hid⟩
  next hp =>
  refine .bind (Q := fun r t ℓ' => resolve document p = .ok r ∧ t = s ∧ ℓ' = ℓ)
    (.ofExcept fun r hr => ⟨hr, rfl, rfl⟩) ?_
  rintro ⟨target, v⟩ s ℓ _ ⟨hres, rfl, rfl⟩
  refine .view_bind ?_
  split
  · next id hid =>
      refine calls_remember h hp ?_
      rw [nameAt_of_resolve V.name hres, ← nameAt_of_resolve V.name (resolve_target hres)]
      exact h.loaded target id hid
  next htarget =>
  -- the number is taken, and with it both pointers, before the children are read
  have hnot : target ∉ todo := fun hmem => by
    obtain ⟨id, hid⟩ := h.numbered target hmem
    cases htarget.symm.trans hid
  have hcharted := charted_reserve h hp htarget hres
  have hself : Function.update ℓ s.arena.next (V.name (.value target)) s.arena.next =
      V.name (.value target) := Function.update_self ..
  refine .run_bind rfl (onward_update ℓ s (V.name (.value target)) (Arena.next_push _ _)) ?_
  refine .run_bind rfl ⟨.refl _ _, Nat.le_refl _⟩ (.run_bind rfl ⟨.refl _ _, Nat.le_refl _⟩ ?_)
  have hid : Named (Function.update ℓ s.arena.next (V.name (.value target)))
      (s.arena.push (.blank target)) s.arena.next (V.name (.value target)) :=
    named_id.2 ⟨Nat.lt_of_lt_of_eq (Nat.lt_succ_self _) (Arena.next_push _ _).symm, hself.symm⟩
  refine .bind (fills_readSchema hload hcharted hnot hid (node_of_resolve hres))
    fun m t ℓ' honward hfilled => ?_
  refine .run_bind rfl ⟨.refl _ _, Nat.le_of_eq (next_replace _ m).symm⟩ (.pure ⟨hfilled, ?_⟩)
  rw [nameAt_of_resolve V.name hres]
  obtain ⟨hlt, hlabel⟩ := named_id.1 (honward.carry hid)
  exact named_id.2 ⟨Nat.lt_of_lt_of_eq hlt (next_replace _ m).symm, hlabel⟩

theorem guiding_loadWithin (V : Survey document) (n : Nat) (calls : Nat) :
    Guiding V n (loadWithin document calls) := by
  induction calls with
  | zero => exact fun _ _ _ _ _ => trivial
  | succ calls ih => exact guiding_loadStep ih

/-- A schema that is loaded has the name of the place where its pointer leads. -/
theorem guiding_load (V : Survey document) (n : Nat) : Guiding V n (Session.load document) :=
  guiding_loadWithin V n (loadBound document)

end ApiModel.Session
