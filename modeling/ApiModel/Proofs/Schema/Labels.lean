/-
  ApiModel.Proofs.Schema.Labels

  Arenas whose schemas have names. Labels are right for an arena when they tell its schemas apart,
  when the schemas say in terms of names what the nomenclature says, and when every answer of the
  memo is the one that the functions without a memo give, but for schemas that lead to something that
  is left out of account. Here are the changes that the algebra makes to an arena, and why labels stay
  right.
-/
import ApiModel.Proofs.Schema.Memoless
import ApiModel.Proofs.Schema.Rename
import ApiModel.Proofs.Schema.Settled
import Mathlib.Logic.Function.Basic

namespace ApiModel.Arena

open Mentions (ids rename rename_congr)

/-- The names of the schemas of an arena, by their numbers. -/
abbrev Labels := SchemaId → SchemaId

variable {ν : Nomenclature} {ℓ ℓ' : Labels} {a b : Arena} {P : Json → Prop} {O : Set SchemaId}
  {x y : SchemaId}

/-! ## Later labels -/

/-- What has a name in the arena keeps it. -/
def Extends (a : Arena) (ℓ ℓ' : Labels) : Prop := ∀ i, i < a.next → ℓ' i = ℓ i

theorem Extends.refl (a : Arena) (ℓ : Labels) : Extends a ℓ ℓ := fun _ _ => rfl

theorem Extends.trans {ℓ'' : Labels} (h : Extends a ℓ ℓ') (hab : a.next ≤ b.next)
    (h' : Extends b ℓ' ℓ'') : Extends a ℓ ℓ'' :=
  fun i hi => (h' i (Nat.lt_of_lt_of_le hi hab)).trans (h i hi)

/-- `x'` is `x`, which is about schemas that `Q` holds of, in terms of names. -/
structure NamedBy {α : Type} [Mentions α] (Q : SchemaId → Prop) (ℓ : Labels) (x x' : α) :
    Prop where
  known : ∀ i ∈ ids x, Q i
  eq : x' = rename ℓ x

/-- `x'` is `x`, which is about existing schemas, in terms of names. -/
abbrev Named {α : Type} [Mentions α] (ℓ : Labels) (a : Arena) (x x' : α) : Prop :=
  NamedBy (· < a.next) ℓ x x'

section NamedBy

variable {Q Q' : SchemaId → Prop}

theorem NamedBy.mono {α : Type} [Mentions α] {x x' : α} (h : NamedBy Q ℓ x x')
    (hQ : ∀ i, Q i → Q' i) (hext : ∀ i, Q i → ℓ' i = ℓ i) : NamedBy Q' ℓ' x x' where
  known i hi := hQ i (h.known i hi)
  eq := h.eq.trans (rename_congr fun i hi => (hext i (h.known i hi)).symm)

theorem named_id {x x' : SchemaId} : NamedBy Q ℓ x x' ↔ Q x ∧ x' = ℓ x := by
  refine ⟨fun h => ⟨h.known x (by simp [ids]), h.eq⟩, fun h => ⟨?_, h.2⟩⟩
  intro i hi
  simp only [ids, List.mem_singleton] at hi
  exact hi ▸ h.1

theorem named_none {α : Type} [Mentions α] {x' : Option α} :
    NamedBy Q ℓ (none : Option α) x' ↔ x' = none :=
  ⟨fun h => h.eq, fun h => ⟨by simp [ids], h⟩⟩

theorem named_some {α : Type} [Mentions α] {x : α} {x' : Option α} :
    NamedBy Q ℓ (some x) x' ↔ ∃ y, x' = some y ∧ NamedBy Q ℓ x y := by
  have hids : ∀ i, i ∈ ids (some x) ↔ i ∈ ids x := fun i => by simp [ids]
  constructor
  · intro h
    exact ⟨rename ℓ x, h.eq, fun i hi => h.known i ((hids i).2 hi), rfl⟩
  · rintro ⟨y, rfl, h⟩
    exact ⟨fun i hi => h.known i ((hids i).1 hi), congrArg some h.eq⟩

theorem named_nil {α : Type} [Mentions α] {l' : List α} :
    NamedBy Q ℓ ([] : List α) l' ↔ l' = [] :=
  ⟨fun h => h.eq, fun h => ⟨by simp [ids], h⟩⟩

theorem named_cons {α : Type} [Mentions α] {x : α} {l l' : List α} :
    NamedBy Q ℓ (x :: l) l' ↔ ∃ y k, l' = y :: k ∧ NamedBy Q ℓ x y ∧ NamedBy Q ℓ l k := by
  have hids : ∀ i, i ∈ ids (x :: l) ↔ i ∈ ids x ∨ i ∈ ids l := fun i => by simp [ids]
  constructor
  · intro h
    refine ⟨rename ℓ x, rename ℓ l, h.eq, ⟨fun i hi => ?_, rfl⟩, ⟨fun i hi => ?_, rfl⟩⟩
    · exact h.known i ((hids i).2 (.inl hi))
    · exact h.known i ((hids i).2 (.inr hi))
  · rintro ⟨y, k, rfl, hx, hl⟩
    refine ⟨fun i hi => ((hids i).1 hi).elim (hx.known i) (hl.known i), ?_⟩
    rw [hx.eq, hl.eq]
    rfl

theorem named_append {α : Type} [Mentions α] {l k l' k' : List α} (hl : NamedBy Q ℓ l l')
    (hk : NamedBy Q ℓ k k') : NamedBy Q ℓ (l ++ k) (l' ++ k') where
  known i hi := by
    simp only [ids, List.flatMap_append, List.mem_append] at hi
    exact hi.elim (hl.known i) (hk.known i)
  eq := by
    rw [hl.eq, hk.eq]
    exact List.map_append.symm

theorem named_pair {x y : SchemaId} {e : SchemaId × SchemaId} :
    NamedBy Q ℓ (x, y) e ↔ ∃ x' y', e = (x', y') ∧ NamedBy Q ℓ x x' ∧ NamedBy Q ℓ y y' := by
  constructor
  · intro h
    refine ⟨ℓ x, ℓ y, h.eq, named_id.2 ⟨h.known x ?_, rfl⟩, named_id.2 ⟨h.known y ?_, rfl⟩⟩ <;>
      simp [ids]
  · rintro ⟨x', y', rfl, hx, hy⟩
    refine ⟨fun i hi => ?_, Prod.ext hx.eq hy.eq⟩
    simp only [ids, List.mem_append, List.mem_singleton] at hi
    rcases hi with rfl | rfl
    · exact (named_id.1 hx).1
    · exact (named_id.1 hy).1

theorem named_ids {l l' : List SchemaId} :
    NamedBy Q ℓ l l' ↔ (∀ i ∈ l, Q i) ∧ l' = l.map ℓ :=
  ⟨fun h => ⟨fun i hi => h.known i (Mentions.mem_ids_list.2 hi), h.eq⟩,
    fun h => ⟨fun i hi => h.1 i (Mentions.mem_ids_list.1 hi), h.2⟩⟩

theorem NamedBy.isEmpty {l l' : List SchemaId} (h : NamedBy Q ℓ l l') : l'.isEmpty = l.isEmpty := by
  rw [(named_ids.1 h).2]
  cases l <;> rfl

theorem named_allowed {yes : Bool} {e : Extras} :
    NamedBy Q ℓ (Extras.allowed yes) e ↔ e = .allowed yes :=
  ⟨fun h => h.eq, fun h => ⟨by simp [ids], h⟩⟩

theorem named_matching {x : SchemaId} {e : Extras} :
    NamedBy Q ℓ (Extras.matching x) e ↔ ∃ y, e = .matching y ∧ NamedBy Q ℓ x y := by
  constructor
  · exact fun h => ⟨ℓ x, h.eq, named_id.2 ⟨h.known x (by simp [ids]), rfl⟩⟩
  · rintro ⟨y, rfl, hx⟩
    exact ⟨hx.known, congrArg Extras.matching hx.eq⟩

theorem named_empty : NamedBy Q ℓ (Dict.empty : Dict String SchemaId) .empty :=
  ⟨by simp [ids, Dict.values, Dict.empty], rfl⟩

theorem named_insert {d d' : Dict String SchemaId} (hd : NamedBy Q ℓ d d') (k : String)
    {x x' : SchemaId} (hx : NamedBy Q ℓ x x') : NamedBy Q ℓ (d.insert k x) (d'.insert k x') where
  known i hi := by
    obtain ⟨e, he, rfl⟩ := List.mem_map.1 (show i ∈ (d.insert k x).values from hi)
    rcases Dict.mem_put he with rfl | he
    · exact (named_id.1 hx).1
    · exact hd.known e.2 (List.mem_map.2 ⟨e, he, rfl⟩)
  eq := by
    rw [hd.eq, (named_id.1 hx).2]
    exact (Dict.insert_map ℓ d k x).symm

section Parts

variable {s s' : Schema} (h : NamedBy Q ℓ s s')
include h

theorem NamedBy.items : NamedBy Q ℓ s.items s'.items where
  known i hi := h.known i (Schema.mem_links_of_items (by simpa [ids, eq_comm] using hi))
  eq := by rw [h.eq]; rfl

theorem NamedBy.extras : NamedBy Q ℓ s.extras s'.extras where
  known i hi := by
    refine h.known i (Schema.mem_links_of_extras ?_)
    cases he : s.extras with
    | none => simp [he, ids] at hi
    | some e => cases e <;> simp_all [ids]
  eq := by rw [h.eq]; rfl

theorem NamedBy.property (k : String) :
    NamedBy Q ℓ (s.properties.get? k) (s'.properties.get? k) where
  known i hi := h.known i (Schema.mem_links_of_property (by simpa [ids, eq_comm] using hi))
  eq := by rw [h.eq]; exact Dict.get?_map ℓ s.properties k

theorem NamedBy.extraSchema? : NamedBy Q ℓ (extraSchema? s) (extraSchema? s') where
  known i hi := by
    refine h.known i (Schema.mem_links_of_extras (extraSchema?_eq_some.1 ?_))
    simpa [ids, eq_comm] using hi
  eq := by rw [h.eq]; exact Schema.extraSchema?_rename

theorem NamedBy.anyOf : NamedBy Q ℓ s.anyOf s'.anyOf where
  known i hi := h.known i (Schema.mem_links_of_member
    (Schema.mem_members.2 (.inr (.inl (Mentions.mem_ids_list.1 hi)))))
  eq := by rw [h.eq]; rfl

theorem NamedBy.allOf : NamedBy Q ℓ s.allOf s'.allOf where
  known i hi := h.known i (Schema.mem_links_of_member
    (Schema.mem_members.2 (.inl (Mentions.mem_ids_list.1 hi))))
  eq := by rw [h.eq]; rfl

theorem NamedBy.oneOf : NamedBy Q ℓ s.oneOf s'.oneOf where
  known i hi := h.known i (Schema.mem_links_of_member
    (Schema.mem_members.2 (.inr (.inr (Mentions.mem_ids_list.1 hi)))))
  eq := by rw [h.eq]; rfl

end Parts

instance : Mentions Plan where
  ids
    | .answer r => ids r
    | .demands own => ids own
  rename f
    | .answer r => .answer (rename f r)
    | .demands own => .demands (rename f own)
  rename_congr := by
    rintro f g (r | own) h
    · exact congrArg Plan.answer (rename_congr h)
    · exact congrArg Plan.demands (rename_congr h)

theorem named_answer {r : Option SchemaId} {plan : Plan} :
    NamedBy Q ℓ (Plan.answer r) plan ↔ ∃ r', plan = .answer r' ∧ NamedBy Q ℓ r r' :=
  ⟨fun h => ⟨_, h.eq, h.known, rfl⟩, by rintro ⟨r', rfl, h⟩; exact ⟨h.known, congrArg _ h.eq⟩⟩

theorem named_demands {own : Schema} {plan : Plan} :
    NamedBy Q ℓ (Plan.demands own) plan ↔ ∃ own', plan = .demands own' ∧ NamedBy Q ℓ own own' :=
  ⟨fun h => ⟨_, h.eq, h.known, rfl⟩, by rintro ⟨r', rfl, h⟩; exact ⟨h.known, congrArg _ h.eq⟩⟩

end NamedBy

theorem named_mono {α : Type} [Mentions α] {x x' : α} (h : Named ℓ a x x')
    (hab : a.next ≤ b.next) (hext : Extends a ℓ ℓ') : Named ℓ' b x x' :=
  h.mono (fun _ hi => Nat.lt_of_lt_of_le hi hab) hext

/-! ## Schemas that are followed -/

/-- The schema `x` is there, and nothing of what is left out of account, in `O`, can be reached from
    it. -/
structure Inner (O : Set SchemaId) (a : Arena) (x : SchemaId) : Prop where
  lt : x < a.next
  apart : ∀ z ∈ O, ¬Relation.ReflTransGen a.Link x z

theorem Inner.link (ha : a.WellFormed P) (h : Inner O a x) (hxy : a.Link x y) : Inner O a y :=
  ⟨ha.link_lt hxy, fun z hz hyz => h.apart z hz (.head hxy hyz)⟩

theorem inner_of_links (hx : x < a.next) (hO : x ∉ O) (h : ∀ y, a.Link x y → Inner O a y) :
    Inner O a x := by
  refine ⟨hx, fun z hz hxz => ?_⟩
  rcases Relation.ReflTransGen.cases_head hxz with rfl | ⟨y, hxy, hyz⟩
  · exact hO hz
  · exact (h y hxy).apart z hz hyz

/-- What an existing schema leads to is the same when there are more schemas. -/
theorem inner_iff (ha : a.WellFormed P) (hnext : a.next ≤ b.next)
    (hs : ∀ id, id < a.next → b.schema id = a.schema id) (hx : x < a.next) :
    Inner O b x ↔ Inner O a x := by
  constructor
  · exact fun h => ⟨hx, fun z hz hxz => h.apart z hz ((reach_iff ha hs hx z).2 hxz)⟩
  · exact fun h => ⟨Nat.lt_of_lt_of_le hx hnext,
      fun z hz hxz => h.apart z hz ((reach_iff ha hs hx z).1 hxz)⟩

/-- What a schema leads to is a matter of the schemas alone. -/
theorem inner_of_schemas (h : b.schemas = a.schemas) : Inner O b x ↔ Inner O a x := by
  have hlink : b.Link = a.Link := by
    unfold Link schema
    rw [h]
  constructor <;> rintro ⟨hlt, hapart⟩
  · exact ⟨by rwa [next, h] at hlt, by rwa [hlink] at hapart⟩
  · exact ⟨by rwa [next, h], by rwa [hlink]⟩

theorem inner_enter {id : SchemaId} : Inner O (a.enter id) x ↔ Inner O a x := inner_of_schemas rfl

theorem inner_settle {id : SchemaId} {out : Except Failure (Option SchemaId)} :
    Inner O (settle id out a) x ↔ Inner O a x := inner_of_schemas (by rw [settle_eq])

theorem inner_remember {u v : SchemaId} {p : Pointer} {r : Option SchemaId} :
    Inner O (a.remember u v p r) x ↔ Inner O a x := inner_of_schemas rfl

theorem Inner.mono (ha : a.WellFormed P) (hab : a.Grows b) (h : Inner O a x) : Inner O b x :=
  (inner_iff ha hab.next hab.schema h.lt).2 h

/-- `x'` is `x`, which is about schemas that are followed, in terms of names. -/
abbrev Held {α : Type} [Mentions α] (O : Set SchemaId) (ℓ : Labels) (a : Arena) (x x' : α) :
    Prop := NamedBy (Inner O a) ℓ x x'

theorem held_named {α : Type} [Mentions α] {x x' : α} (h : Held O ℓ a x x') : Named ℓ a x x' :=
  NamedBy.mono h (fun _ hi => hi.lt) fun _ _ => rfl

/-! ## Right labels -/

/-- The labels `ℓ` are right for an arena: they tell what the answers are for schemas that lead to
    nothing in `O`. The conjunctions of normal forms in `gap` have been stored and are not remembered
    yet, and the normalizations of the schemas in `lost` have been started and given up. -/
structure TracksBut (O : Set SchemaId) (ν : Nomenclature)
    (gap : SchemaId → SchemaId → Pointer → Prop) (lost : SchemaId → Prop) (ℓ : Labels)
    (a : Arena) : Prop where
  inj : ∀ i j, i < a.next → j < a.next → ℓ i = ℓ j → i = j
  content : ∀ i, i < a.next → ν.content (ℓ i) = (a.schema i).rename ℓ
  form : ∀ i, Inner O a i → (a.IsForm i ↔ ν.IsForm (ℓ i))
  done : ∀ i r, a.progress.get? i = some (.done r) → Inner O a i →
    Settles (fun n => ν.eval n (.normalize (ℓ i))) (r.map ℓ)
  memo : ∀ x y p r, a.conjunctions.get? (x, y, p) = some r → Inner O a x → Inner O a y →
    Settles (fun n => ν.forms (ν.eval n) (ℓ x) (ℓ y) p) (r.map ℓ)
  /-- What a normalization stores by itself is there only once it has been started. -/
  own : ∀ i m part k s, i < a.next → ℓ i = ν.stored (.own m part k) s → k < ν.failures m ∨
    k = ν.failures m ∧ (lost m ∨ ∃ j, Inner O a j ∧ ℓ j = m ∧ a.progress.get? j ≠ none)
  /-- A stored conjunction is remembered. -/
  both : ∀ i x y p s, i < a.next → ℓ i = ν.stored (.both x y p) s → gap x y p ∨
    ∃ j k, j < a.next ∧ k < a.next ∧ ℓ j = x ∧ ℓ k = y ∧ a.conjunctions.get? (j, k, p) ≠ none
  other : ∀ i j s, i < a.next → ℓ i = ν.stored (.other j) s → i = j

/-- The labels `ℓ` are right for an arena. -/
abbrev Tracks (O : Set SchemaId) (ν : Nomenclature) (ℓ : Labels) (a : Arena) : Prop :=
  TracksBut O ν (fun _ _ _ => False) (fun _ => False) ℓ a

variable {gap : SchemaId → SchemaId → Pointer → Prop} {lost : SchemaId → Prop}

theorem TracksBut.mono {gap' : SchemaId → SchemaId → Pointer → Prop} {lost' : SchemaId → Prop}
    (h : TracksBut O ν gap lost ℓ a) (hgap : ∀ x y p, gap x y p → gap' x y p)
    (hlost : ∀ m, lost m → lost' m) : TracksBut O ν gap' lost' ℓ a :=
  { h with
    own := fun i m part k s hi hs =>
      (h.own i m part k s hi hs).imp_right (.imp_right (.imp_left (hlost m)))
    both := fun i x y p s hi hs => (h.both i x y p s hi hs).imp_left (hgap x y p) }

section NamedBy

variable {Q : SchemaId → Prop} (hQ : ∀ i, Q i → i < a.next)
include hQ

/-- Different numbers have different names. -/
theorem TracksBut.eq_iff (h : TracksBut O ν gap lost ℓ a) {x y x' y' : SchemaId}
    (hx : NamedBy Q ℓ x x') (hy : NamedBy Q ℓ y y') : x' = y' ↔ x = y := by
  obtain ⟨hqx, rfl⟩ := named_id.1 hx
  obtain ⟨hqy, rfl⟩ := named_id.1 hy
  exact ⟨h.inj x y (hQ x hqx) (hQ y hqy), congrArg ℓ⟩

theorem TracksBut.mem_iff (h : TracksBut O ν gap lost ℓ a) {x x' : SchemaId} {l l' : List SchemaId}
    (hx : NamedBy Q ℓ x x') (hl : NamedBy Q ℓ l l') : x' ∈ l' ↔ x ∈ l := by
  obtain ⟨hql, rfl⟩ := named_ids.1 hl
  rw [List.mem_map]
  constructor
  · rintro ⟨y, hy, heq⟩
    exact (h.eq_iff hQ hx (named_id.2 ⟨hql y hy, rfl⟩)).1 heq.symm ▸ hy
  · exact fun hmem => ⟨x, hmem, (named_id.1 hx).2.symm⟩

end NamedBy

/-- A normal form is its own normal form. -/
theorem settles_form {n : SchemaId} (hn : ν.IsForm n) :
    Settles (fun k => ν.eval k (.normalize n)) (some n) := by
  have hval : ∀ k, ν.eval (k + 1) (.normalize n) = some (some n) := fun k => if_pos hn
  exact settles_succ hval rfl (settles_pure _)

/-! ## A new schema -/

theorem extends_update (a : Arena) (ℓ : Labels) (n : SchemaId) :
    Extends a ℓ (Function.update ℓ a.next n) :=
  fun _ hi => Function.update_of_ne (Nat.ne_of_lt hi) _ _

theorem map_congr_of_lt (hext : Extends a ℓ ℓ') {r : Option SchemaId}
    (hr : ∀ n, r = some n → n < a.next) : r.map ℓ' = r.map ℓ :=
  Option.map_congr fun n hn => hext n (hr n hn)

/-- The arena `b` has one schema more than `a`, namely `s`, and the same answers for the others. -/
structure Adds (a b : Arena) (s : Schema) : Prop where
  next : b.next = a.next + 1
  schema : ∀ i, b.schema i = if i = a.next then s else a.schema i
  progress : ∀ i, i < a.next → b.progress.get? i = a.progress.get? i
  conjunctions : b.conjunctions = a.conjunctions

theorem adds_addForm (a : Arena) (s : Schema) : Adds a (a.addForm s) s where
  next := next_addForm a s
  schema := schema_addForm a s
  progress i hi := by rw [progress_addForm, if_neg (Nat.ne_of_lt hi)]
  conjunctions := rfl

theorem adds_addDeferred (a : Arena) (os : SortedSet SchemaId) (place : Pointer) :
    Adds a (a.addDeferred os place) (.conjunction place os.elements) where
  next := next_addDeferred a os place
  schema := schema_addDeferred a os place
  progress _ _ := rfl
  conjunctions := rfl

theorem Adds.lt_or_eq {s : Schema} (h : Adds a b s) {i : SchemaId} (hi : i < b.next) :
    i < a.next ∨ i = a.next := by
  rw [h.next] at hi
  exact Nat.lt_succ_iff_lt_or_eq.1 hi

theorem Adds.schema_of_lt {s : Schema} (h : Adds a b s) (i : SchemaId) (hi : i < a.next) :
    b.schema i = a.schema i := by rw [h.schema, if_neg (Nat.ne_of_lt hi)]

theorem Adds.le {s : Schema} (h : Adds a b s) : a.next ≤ b.next := h.next ▸ Nat.le_succ _

theorem Adds.inner_iff {s : Schema} (h : Adds a b s) (ha : a.WellFormed P) (hx : x < a.next) :
    Inner O b x ↔ Inner O a x := Arena.inner_iff ha h.le h.schema_of_lt hx

/-- A new schema gets the name of what it was made of, which nothing else has. -/
theorem TracksBut.add (h : TracksBut O ν gap lost ℓ a) (ha : a.WellFormed P)
    {s s' : Schema} (hb : Adds a b s) (hs : Named ℓ a s s') {o : Origin}
    (hnew : ∀ i t, i < a.next → ℓ i ≠ ν.stored o t)
    (hown : ∀ m part k, o = .own m part k → k = ν.failures m ∧
      ∃ j, Inner O a j ∧ ℓ j = m ∧ a.progress.get? j ≠ none)
    (hother : ∀ j, o = .other j → j = a.next)
    (hself : Inner O b a.next → b.IsForm a.next) :
    TracksBut O ν (fun x y p => gap x y p ∨ o = .both x y p) lost
      (Function.update ℓ a.next (ν.stored o s')) b := by
  have hext := extends_update a ℓ (ν.stored o s')
  generalize hℓ' : Function.update ℓ a.next (ν.stored o s') = ℓ' at hext ⊢
  have hnext : ℓ' a.next = ν.stored o s' := by rw [← hℓ', Function.update_self]
  have hlt : ∀ {i}, i < a.next → i < b.next := fun hi => Nat.lt_of_lt_of_le hi hb.le
  refine ⟨?inj, ?content, ?form, ?done, ?memo, ?own, ?both, ?other⟩
  case inj =>
    intro i j hi hj hij
    rcases hb.lt_or_eq hi with hi | rfl <;> rcases hb.lt_or_eq hj with hj | rfl
    · rw [hext i hi, hext j hj] at hij
      exact h.inj i j hi hj hij
    · rw [hext i hi, hnext] at hij
      exact absurd hij (hnew i s' hi)
    · rw [hext j hj, hnext] at hij
      exact absurd hij.symm (hnew j s' hj)
    · rfl
  case content =>
    intro i hi
    rcases hb.lt_or_eq hi with hi | rfl
    · rw [hext i hi, h.content i hi, hb.schema_of_lt i hi]
      exact Schema.schema_rename_congr fun c hc => (hext c ((ha.proper i).links c hc)).symm
    · rw [hnext, ν.content_stored, hb.schema, if_pos rfl]
      exact (named_mono hs (Nat.le_refl _) hext).eq
  case form =>
    intro i hi
    rcases hb.lt_or_eq hi.lt with hlt | rfl
    · rw [hext i hlt, ← h.form i ((hb.inner_iff ha hlt).1 hi), IsForm, IsForm, hb.progress i hlt]
    · rw [hnext]
      exact iff_of_true (hself hi) (ν.isForm_stored o s')
  case done =>
    intro i r hr hi
    rcases hb.lt_or_eq hi.lt with hlt | rfl
    · rw [hb.progress i hlt] at hr
      rw [hext i hlt, map_congr_of_lt hext fun n hn => ha.isForm_lt (ha.form i n (hn ▸ hr))]
      exact h.done i r hr ((hb.inner_iff ha hlt).1 hi)
    · cases hr.symm.trans (hself hi)
      rw [Option.map_some, hnext]
      exact settles_form (ν.isForm_stored o s')
  case memo =>
    intro x y p r hr hix hiy
    rw [hb.conjunctions] at hr
    obtain ⟨hx, hy, hn⟩ := ha.memo x y p r hr
    rw [hext x (ha.isForm_lt hx), hext y (ha.isForm_lt hy),
      map_congr_of_lt hext fun n hr => ha.isForm_lt (hn n hr)]
    exact h.memo x y p r hr ((hb.inner_iff ha (ha.isForm_lt hx)).1 hix)
      ((hb.inner_iff ha (ha.isForm_lt hy)).1 hiy)
  case own =>
    intro i m part k t hi ht
    have hkeep : (∃ j, Inner O a j ∧ ℓ j = m ∧ a.progress.get? j ≠ none) →
        ∃ j, Inner O b j ∧ ℓ' j = m ∧ b.progress.get? j ≠ none := by
      rintro ⟨j, hj, rfl, hp⟩
      exact ⟨j, (hb.inner_iff ha hj.lt).2 hj, hext j hj.lt, by rwa [hb.progress j hj.lt]⟩
    rcases hb.lt_or_eq hi with hi | rfl
    · rw [hext i hi] at ht
      exact (h.own i m part k t hi ht).imp_right (.imp_right (.imp_right hkeep))
    · rw [hnext] at ht
      exact .inr ((hown m part k (ν.origin_inj ht)).imp_right fun hstarted =>
        .inr (hkeep hstarted))
  case both =>
    intro i x y p t hi ht
    rcases hb.lt_or_eq hi with hi | rfl
    · rw [hext i hi] at ht
      rcases h.both i x y p t hi ht with hgap | ⟨j, k, hj, hk, rfl, rfl, hc⟩
      · exact .inl (.inl hgap)
      · exact .inr ⟨j, k, hlt hj, hlt hk, hext j hj, hext k hk, hb.conjunctions ▸ hc⟩
    · rw [hnext] at ht
      exact .inl (.inr (ν.origin_inj ht))
  case other =>
    intro i j t hi ht
    rcases hb.lt_or_eq hi with hi | rfl
    · rw [hext i hi] at ht
      exact h.other i j t hi ht
    · rw [hnext] at ht
      exact (hother j (ν.origin_inj ht)).symm

/-! ## The start and the end of a normalization -/

theorem TracksBut.enter (h : TracksBut O ν gap lost ℓ a) {id : SchemaId}
    (hid : a.progress.get? id = none) : TracksBut O ν gap lost ℓ (a.enter id) where
  inj := h.inj
  content := h.content
  form i hi := (done_enter hid).trans (h.form i (inner_enter.1 hi))
  done i r hr hi := h.done i r ((done_enter hid).1 hr) (inner_enter.1 hi)
  memo x y p r hr hx hy := h.memo x y p r hr (inner_enter.1 hx) (inner_enter.1 hy)
  own i m part k s hi hs := by
    refine (h.own i m part k s hi hs).imp_right (.imp_right (.imp_right ?_))
    rintro ⟨j, hj, hm, hp⟩
    refine ⟨j, inner_enter.2 hj, hm, ?_⟩
    rw [progress_enter]
    split
    · simp
    · exact hp
  both := h.both
  other := h.other

theorem TracksBut.settle (h : TracksBut O ν gap lost ℓ a) {id : SchemaId} {r : Option SchemaId}
    (hid : a.progress.get? id = some .inProgress) (hr : ∀ n, r = some n → a.IsForm n)
    (hval : Inner O a id → Settles (fun n => ν.eval n (.normalize (ℓ id))) (r.map ℓ)) :
    TracksBut O ν gap lost ℓ (settle id (.ok r) a) := by
  have hprogress := progress_settle_ok hid hr
  have hsettle := settle_eq id (.ok r) a
  have hnext : (Arena.settle id (.ok r) a).next = a.next := next_settle ..
  have hschema : ∀ i, (Arena.settle id (.ok r) a).schema i = a.schema i := fun i => by
    rw [hsettle]; rfl
  have hconj : (Arena.settle id (.ok r) a).conjunctions = a.conjunctions := by rw [hsettle]
  refine ⟨?inj, ?content, ?form, ?done, ?memo, ?own, ?both, ?other⟩
  case inj => rw [hnext]; exact h.inj
  case content => intro i hi; rw [hschema]; exact h.content i (hnext ▸ hi)
  case form =>
    intro i hi
    rw [← h.form i (inner_settle.1 hi), IsForm, IsForm, hprogress]
    split
    · next heq =>
        subst heq
        -- a schema under normalization is no normal form, so its answer is another one
        refine iff_of_false (fun hform => ?_) (by simp [hid])
        simp only [Option.some.injEq, Progress.done.injEq] at hform
        have := hr i hform
        simp [IsForm, hid] at this
    · exact Iff.rfl
  case done =>
    intro i r' hr' hi
    rw [hprogress] at hr'
    split at hr'
    · next heq =>
        cases hr'
        exact heq ▸ hval (heq ▸ inner_settle.1 hi)
    · exact h.done i r' hr' (inner_settle.1 hi)
  case memo =>
    intro x y p r hr hx hy
    exact h.memo x y p r (hconj ▸ hr) (inner_settle.1 hx) (inner_settle.1 hy)
  case own =>
    intro i m part k s hi hs
    refine (h.own i m part k s (hnext ▸ hi) hs).imp_right (.imp_right (.imp_right ?_))
    rintro ⟨j, hj, hm, hp⟩
    refine ⟨j, inner_settle.2 hj, hm, ?_⟩
    rw [hprogress]
    split
    · simp
    · exact hp
  case both => rw [hnext, hconj]; exact h.both
  case other => rw [hnext]; exact h.other

/-- A normalization that fails leaves no trace but what it has stored. -/
theorem TracksBut.settle_error (h : TracksBut O ν gap lost ℓ a) {id : SchemaId}
    (hid : a.progress.get? id = some .inProgress) (e : Failure) :
    TracksBut O ν gap (fun m => lost m ∨ Inner O a id ∧ m = ℓ id) ℓ
      (Arena.settle id (.error e) a) where
  inj := h.inj
  content := h.content
  form i hi := by
    rw [← h.form i (inner_settle.1 hi), IsForm, IsForm, progress_settle_error]
    split
    · next heq => simp [heq, hid]
    · exact Iff.rfl
  done i r hr hi := by
    rw [progress_settle_error] at hr
    split at hr
    · cases hr
    · exact h.done i r hr (inner_settle.1 hi)
  memo x y p r hr hx hy := h.memo x y p r hr (inner_settle.1 hx) (inner_settle.1 hy)
  own i m part k s hi hs := by
    refine (h.own i m part k s hi hs).imp_right (.imp_right ?_)
    rintro (hlost | ⟨j, hj, hm, hp⟩)
    · exact .inl (.inl hlost)
    by_cases hjid : j = id
    · exact .inl (.inr ⟨hjid ▸ hj, hjid ▸ hm.symm⟩)
    · exact .inr ⟨j, inner_settle.2 hj, hm, by rwa [progress_settle_error, if_neg hjid]⟩
  both := h.both
  other := h.other

/-! ## A conjunction remembered -/

theorem TracksBut.remember {x y : SchemaId} {p : Pointer} {r : Option SchemaId}
    (h : TracksBut O ν (fun u v q => u = ℓ x ∧ v = ℓ y ∧ q = p) (fun _ => False) ℓ a)
    (hx : x < a.next) (hy : y < a.next)
    (hval : Inner O a x → Inner O a y →
      Settles (fun n => ν.forms (ν.eval n) (ℓ x) (ℓ y) p) (r.map ℓ)) :
    Tracks O ν ℓ (a.remember x y p r) where
  inj := h.inj
  content := h.content
  form i hi := h.form i (inner_remember.1 hi)
  done i r hr hi := h.done i r hr (inner_remember.1 hi)
  memo x' y' p' r' hr' hix hiy := by
    rw [conjunctions_remember] at hr'
    split at hr'
    · next heq =>
        cases heq
        cases hr'
        exact hval (inner_remember.1 hix) (inner_remember.1 hiy)
    · exact h.memo x' y' p' r' hr' (inner_remember.1 hix) (inner_remember.1 hiy)
  own i m part k s hi hs := by
    refine (h.own i m part k s hi hs).imp_right (.imp_right (.imp_right ?_))
    rintro ⟨j, hj, hm, hp⟩
    exact ⟨j, inner_remember.2 hj, hm, hp⟩
  both i u v q s hi hs := by
    refine .inr ?_
    rcases h.both i u v q s hi hs with ⟨rfl, rfl, rfl⟩ | ⟨j, k, hj, hk, hu, hv, hc⟩
    · exact ⟨x, y, hx, hy, rfl, rfl, by simp [conjunctions_remember]⟩
    · refine ⟨j, k, hj, hk, hu, hv, ?_⟩
      rw [conjunctions_remember]
      split
      · simp
      · exact hc
  other := h.other

end ApiModel.Arena
