/-
  ApiModel.Proofs.Schema.Guidance

  Conjunctions and normal forms follow the functions without a memo. What is stored gets a name that
  nothing has yet: a conjunction that took its own value would have none, and what a normalization
  stores by itself it stores once.
-/
import ApiModel.Proofs.Schema.Tracking

namespace ApiModel.Arena

open Mentions (ids rename)

variable {O : Set SchemaId} {ν : Nomenclature} {A B : Allowance} {ℓ ℓ' : Labels} {a b : Arena}
  {solve : Solver} {x y x' y' : SchemaId} {s₁ s₂ s₁' s₂' : Schema}

/-! ## Conjunctions before anything is stored -/

/-- The alternatives of a conjunction of two normal forms with the demands `own`. -/
def planSides (solve : Solver) (x y : SchemaId) (a b own : Schema) (place : Pointer) :
    ArenaWork Plan := do
  if a.anyOf.isEmpty && b.anyOf.isEmpty then return .demands own
  let left := if a.anyOf.isEmpty then [x] else a.anyOf
  let right := if b.anyOf.isEmpty then [y] else b.anyOf
  match ← cross solve left right (place.push "anyOf") with
  | [] => return .answer none
  | [only] => return .answer (some only)
  | branches => return .demands { own with anyOf := branches }

/-- The conjunction of two normal forms up to the point where it is stored. -/
def planForms (solve : Solver) (x y : SchemaId) (a b : Schema) (place : Pointer) :
    ArenaWork Plan := do
  if b.isUnconstrained then return .answer (some x)
  if a.isUnconstrained then return .answer (some y)
  let keywords ← combineKeywords a b place
  let some items ← conjoinItems solve a b place | return .answer none
  let extras ← conjoinExtras solve a b place
  let some properties ←
    conjoinProperties solve a b (place.push "properties") (mergedKeys a b) .empty
    | return .answer none
  planSides solve x y a b
    { keywords with items := items, extras := extras, properties := properties }
    place

/-- What is made of it. -/
def finishForms (x y : SchemaId) (a b : Schema) : Plan → ArenaWork (Option SchemaId)
  | .answer r => return r
  | .demands own => reuseOrStore x y a b own

theorem conjoinForms_eq (solve : Solver) (x y : SchemaId) (place : Pointer) :
    conjoinForms solve x y place = (do
      let a ← Work.view (·.schema x)
      let b ← Work.view (·.schema y)
      let plan ← planForms solve x y a b place
      finishForms x y a b plan) := by
  unfold conjoinForms planForms planSides
  congr 1
  funext a
  congr 1
  funext b
  split
  · rfl
  split
  · rfl
  simp only [bind_assoc]
  congr 1
  funext k
  congr 1
  funext i
  cases i with
  | none => rfl
  | some i =>
  simp only [bind_assoc]
  congr 1
  funext e
  congr 1
  funext ps
  cases ps with
  | none => rfl
  | some ps =>
  dsimp only
  split
  · rfl
  simp only [bind_assoc]
  congr 1
  funext bs
  rcases bs with _ | ⟨_, _ | ⟨_, _⟩⟩
  · rfl
  · rfl
  · rfl

/-- What a plan comes to exists or can be stored. -/
def Fits (t : Arena) : Plan → Prop
  | .answer r => ∀ n, r = some n → t.IsForm n
  | .demands own => Storable (fun _ => True) t own

theorem runs_planSides (hsolve : Sound Law.traced solve) (ha : a.Lawful Law.traced) (hx : a.IsForm x)
    (hy : a.IsForm y) (h₁ : a.schema x = s₁) (h₂ : a.schema y = s₂) {own : Schema}
    (hown : OwnJoined Law.traced a s₁ s₂ own) (place : Pointer) :
    Steps (planSides solve x y s₁ s₂ own place) a fun plan t => t.Fits plan := by
  have hp₁ := h₁ ▸ ha.proper x
  have hp₂ := h₂ ▸ ha.proper y
  unfold planSides
  split
  · refine .pure ha ?_
    have hstorable : Storable _ a { own with anyOf := [] } :=
      hown.storable ha.toWellFormed hp₁ hp₂ nofun nofun
    rwa [← hown.anyOf] at hstorable
  have hside : ∀ {z s}, a.IsForm z → a.schema z = s →
      ∀ l ∈ (if s.anyOf.isEmpty then [z] else s.anyOf), l < a.next := by
    rintro z _ hz rfl l hl
    exact ha.isForm_lt (isForm_of_mem_sides ha.toWellFormed hz l hl)
  refine .bind (runs_cross hsolve ha (hside hx h₁) (hside hy h₂) (place.push "anyOf")
    fun _ => trivial) fun bs b hb hab hbs => ?_
  split
  · exact .pure hb fun _ => nofun
  · exact .pure hb (by rintro _ ⟨⟩; exact hbs.isForm _ (List.mem_singleton_self _))
  next hnil hone =>
  have hlen : bs.length ≠ 1 := fun hlen => by
    obtain ⟨c, rfl⟩ := List.length_eq_one_iff.1 hlen
    exact hone c rfl
  exact .pure hb ((hown.mono ha.toWellFormed hb.toWellFormed hab.toGrows hp₁ hp₂).storable
    hb.toWellFormed (hp₁.mono hab.next) (hp₂.mono hab.next) hbs.isForm hlen)

theorem runs_planForms (hsolve : Sound Law.traced solve) (ha : a.Lawful Law.traced) (hx : a.IsForm x)
    (hy : a.IsForm y) (place : Pointer) :
    Steps (planForms solve x y (a.schema x) (a.schema y) place) a fun plan t => t.Fits plan := by
  have h₁ := ha.proper x
  have h₂ := ha.proper y
  have hscope : ∀ {t : Arena},
      Scoped t (a.schema x) (a.schema y) place fun _ => True := fun _ _ _ _ _ _ => trivial
  unfold planForms
  split
  · exact .pure ha (by rintro _ ⟨⟩; exact hx)
  split
  · exact .pure ha (by rintro _ ⟨⟩; exact hy)
  -- part after part, each in the arena that the last one left
  refine .bind (runs_combineKeywords ha _ _ place) fun k b hb hab hk => ?_
  have h₁b := h₁.mono hab.next
  have h₂b := h₂.mono hab.next
  refine .bind (runs_conjoinItems hsolve hb h₁b h₂b hscope) fun i c hc hbc hi => ?_
  cases i with
  | none => exact .pure hc fun _ => nofun
  | some i =>
  have h₁c := h₁b.mono hbc.next
  have h₂c := h₂b.mono hbc.next
  refine .bind (runs_conjoinExtras hsolve hc h₁c h₂c hscope) fun e d hd hcd he => ?_
  have h₁d := h₁c.mono hcd.next
  have h₂d := h₂c.mono hcd.next
  have hid := hi.mono hc.toWellFormed hd.toWellFormed hcd.toGrows h₁c h₂c
  refine .bind (runs_conjoinProperties hsolve hd h₁d h₂d hscope (fun _ hk => hk) .empty
    fun q hq => ⟨_, hq⟩) fun ps f hf hdf hps => ?_
  cases ps with
  | none => exact .pure hf fun _ => nofun
  | some ps =>
  have haf := ((hab.toGrows.trans hbc.toGrows).trans hcd.toGrows).trans hdf.toGrows
  have hown := OwnJoined.mk hk (hid.mono hd.toWellFormed hf.toWellFormed hdf.toGrows h₁d h₂d)
    (he.mono hd.toWellFormed hf.toWellFormed hdf.toGrows h₁d h₂d) hps
  exact runs_planSides hsolve hf (haf.form hx) (haf.form hy) (haf.schema x (ha.isForm_lt hx))
    (haf.schema y (ha.isForm_lt hy)) hown place

theorem ends_agreed {α : Type} [BEq α] (place : Pointer) (keyword : String) (text : α → String)
    (v w : Option α) : (agreed place keyword text v w).Ends a
      (fun z b => b = a ∧ agreement v w = some z) fun _ b => b = a ∧ agreement v w = none := by
  rcases v with _ | v <;> rcases w with _ | w
  case some.some =>
    unfold agreed agreement
    by_cases heq : (v == w) = true
    · simp only [heq, if_true]
      exact ⟨rfl, rfl⟩
    · simp only [heq, if_false, Bool.false_eq_true]
      exact ⟨rfl, trivial⟩
  all_goals exact ⟨rfl, rfl⟩

/-- The demands that do not concern child schemas are worked out without the arena. -/
theorem ends_combineKeywords (s₁ s₂ : Schema) (place : Pointer) :
    (combineKeywords s₁ s₂ place).Ends a
      (fun k b => b = a ∧ keywordsOf s₁ s₂ place = some k)
      fun _ b => b = a ∧ keywordsOf s₁ s₂ place = none := by
  unfold combineKeywords keywordsOf
  refine Work.ends_bind.2 (Work.Ends.mono (ends_agreed _ _ _ _ _) ?_ ?_)
  · rintro m b ⟨rfl, hm⟩
    refine Work.ends_bind.2 (Work.Ends.mono (ends_agreed _ _ _ _ _) ?_ ?_)
    · rintro p b ⟨rfl, hp⟩
      refine Work.ends_bind.2 (Work.Ends.mono (ends_agreed _ _ _ _ _) ?_ ?_)
      · rintro f b ⟨rfl, hf⟩
        exact ⟨rfl, by rw [hm, hp, hf]; rfl⟩
      · exact fun _ _ ⟨hb, hf⟩ => ⟨hb, by rw [hm, hp, hf]; rfl⟩
    · exact fun _ _ ⟨hb, hp⟩ => ⟨hb, by rw [hm, hp]; rfl⟩
  · exact fun _ _ ⟨hb, hm⟩ => ⟨hb, by rw [hm]; rfl⟩

theorem exists_of_keywordsOf {place : Pointer} {k : Schema}
    (h : keywordsOf s₁ s₂ place = some k) : ∃ m p f, k = joinKeywords s₁ s₂ place m p f := by
  unfold keywordsOf at h
  obtain ⟨m, -, h⟩ := Option.bind_eq_some_iff.1 h
  obtain ⟨p, -, h⟩ := Option.bind_eq_some_iff.1 h
  obtain ⟨f, -, h⟩ := Option.bind_eq_some_iff.1 h
  exact ⟨m, p, f, (Option.some.inj h).symm⟩

/-- Names do not matter to demands that do not concern child schemas. -/
theorem keywordsOf_named (h₁ : Held O ℓ a s₁ s₁') (h₂ : Held O ℓ a s₂ s₂') (place : Pointer) :
    keywordsOf s₁' s₂' place = keywordsOf s₁ s₂ place := by
  rw [h₁.eq, h₂.eq]
  rfl

/-- The demands of a conjunction in terms of names, part by part. -/
theorem named_own {place : Pointer} {k : Schema} (hk : keywordsOf s₁ s₂ place = some k)
    {i i' : Option SchemaId} {e e' : Option Extras} {d d' : Dict String SchemaId}
    (hi : Held O ℓ a i i') (he : Held O ℓ a e e') (hd : Held O ℓ a d d') :
    Held O ℓ a ({ k with items := i, extras := e, properties := d } : Schema)
      { k with items := i', extras := e', properties := d' } := by
  obtain ⟨m, p, f, rfl⟩ := exists_of_keywordsOf hk
  refine ⟨fun c hc => ?_, ?_⟩
  · rcases Schema.mem_links.1 hc with hc | hc | hc | hc
    · exact hi.known c (by simp only at hc; simp [ids, hc])
    · exact hd.known c hc
    · exact he.known c (by simp only at hc; simp [ids, hc])
    · cases hc
  · rw [hi.eq, he.eq, hd.eq]
    rfl

theorem NamedBy.withAnyOf {Q : SchemaId → Prop} {s s' : Schema} (h : NamedBy Q ℓ s s')
    {bs bs' : List SchemaId} (hbs : NamedBy Q ℓ bs bs') (p : Pointer) :
    NamedBy Q ℓ ({ s with pointer := p, anyOf := bs } : Schema)
      { s' with pointer := p, anyOf := bs' } where
  known c hc := by
    rcases Schema.mem_links.1 hc with hc | hc | hc | hc
    · exact h.known c (Schema.mem_links.2 (.inl hc))
    · exact h.known c (Schema.mem_links.2 (.inr (.inl hc)))
    · exact h.known c (Schema.mem_links.2 (.inr (.inr (.inl hc))))
    · rcases Schema.mem_members.1 hc with hc | hc | hc
      · exact h.known c (Schema.mem_links_of_member (Schema.mem_members.2 (.inl hc)))
      · exact hbs.known c (Mentions.mem_ids_list.2 hc)
      · exact h.known c (Schema.mem_links_of_member (Schema.mem_members.2 (.inr (.inr hc))))
  eq := by
    rw [h.eq, hbs.eq]
    rfl

/-- A schema in terms of names is what its name stands for. -/
theorem Labelled.schema (ha : Labelled O ν ℓ a) (hx : Held O ℓ a x x') :
    Held O ℓ a (a.schema x) (ν.content x') where
  known c hc := (named_id.1 hx).1.link ha.toWellFormed hc
  eq := by
    obtain ⟨hinner, rfl⟩ := named_id.1 hx
    exact ha.tracks.content x hinner.lt

theorem NamedBy.isUnconstrained {Q : SchemaId → Prop} {s s' : Schema} (h : NamedBy Q ℓ s s') :
    s'.isUnconstrained = s.isUnconstrained := by
  rw [h.eq]
  exact Schema.isUnconstrained_rename

theorem keeps_planSides (hsolve : ∀ task, Keeps (solve task)) (x y : SchemaId)
    (s₁ s₂ own : Schema) (place : Pointer) : Keeps (planSides solve x y s₁ s₂ own place) := by
  unfold planSides
  split
  · exact keeps_pure _
  refine (keeps_cross hsolve _ _ _).bind fun bs => ?_
  split <;> exact keeps_pure _

/-- The alternatives follow, for demands that are those of a conjunction. -/
theorem follows_planSides (h : Guided O ν solve) (ha : Labelled O ν ℓ a) (hx : Held O ℓ a x x')
    (hy : Held O ℓ a y y') (h₁ : Held O ℓ a s₁ s₁') (h₂ : Held O ℓ a s₂ s₂') {own own' : Schema}
    (hown : Held O ℓ a own own') (place : Pointer) :
    Follows O ν .none ℓ a (planSides solve x y s₁ s₂ own place)
      fun n => (ν.eval n).sides x' y' s₁' s₂' own' place := by
  unfold planSides Asker.sides
  simp only [h₁.anyOf.isEmpty, h₂.anyOf.isEmpty]
  split
  · exact .pure ha.tracks (named_demands.2 ⟨_, rfl, hown⟩)
  have hleft : Held O ℓ a (if s₁.anyOf.isEmpty then [x] else s₁.anyOf)
      (if s₁.anyOf.isEmpty then [x'] else s₁'.anyOf) := by
    split
    · exact named_cons.2 ⟨_, _, rfl, hx, named_nil.2 rfl⟩
    · exact h₁.anyOf
  have hright : Held O ℓ a (if s₂.anyOf.isEmpty then [y] else s₂.anyOf)
      (if s₂.anyOf.isEmpty then [y'] else s₂'.anyOf) := by
    split
    · exact named_cons.2 ⟨_, _, rfl, hy, named_nil.2 rfl⟩
    · exact h₂.anyOf
  refine .bind ha (.refl _) (follows_cross h ha _ hleft hright)
    (runs_cross (Q := fun _ => True) h.sound ha.toLawful (fun l hl => ((named_ids.1 hleft).1 l hl).lt)
      (fun r hr => ((named_ids.1 hright).1 r hr).lt) _ fun _ => trivial) (fun bs => ?_)
      fun bs b ℓb bs' hb hab _ hr => ?_
  · split <;> exact keeps_pure _
  have hownb := hr.carry hown
  have hbs := hr.named
  rcases bs with _ | ⟨c, _ | ⟨d, bs⟩⟩
  · obtain rfl := named_nil.1 hbs
    exact .pure hb.tracks (named_answer.2 ⟨_, rfl, named_none.2 rfl⟩)
  · obtain ⟨c', _, rfl, hc, hnil⟩ := named_cons.1 hbs
    obtain rfl := named_nil.1 hnil
    exact .pure hb.tracks (named_answer.2 ⟨_, rfl, named_some.2 ⟨_, rfl, hc⟩⟩)
  · obtain ⟨c', _, rfl, hc, hrest⟩ := named_cons.1 hbs
    obtain ⟨d', bs', rfl, hd, hrest'⟩ := named_cons.1 hrest
    have hpointer : own'.pointer = own.pointer := by
      rw [hown.eq]
      rfl
    exact .pure hb.tracks (named_demands.2 ⟨_, rfl, hpointer ▸ hownb.withAnyOf hbs own.pointer⟩)

theorem follows_planForms (h : Guided O ν solve) (ha : Labelled O ν ℓ a) (hx : Held O ℓ a x x')
    (hy : Held O ℓ a y y') (place : Pointer) :
    Follows O ν .none ℓ a (planForms solve x y (a.schema x) (a.schema y) place)
      fun n => ν.plan (ν.eval n) x' y' place := by
  have h₁ := ha.schema hx
  have h₂ := ha.schema hy
  have hp₁ := ha.proper x
  have hp₂ := ha.proper y
  unfold planForms Nomenclature.plan
  have hscope : ∀ {t : Arena},
      Scoped t (a.schema x) (a.schema y) place fun _ => True := fun _ _ _ _ _ _ => trivial
  simp only [h₁.isUnconstrained, h₂.isUnconstrained]
  split
  · exact .pure ha.tracks (named_answer.2 ⟨_, rfl, named_some.2 ⟨_, rfl, hx⟩⟩)
  split
  · exact .pure ha.tracks (named_answer.2 ⟨_, rfl, named_some.2 ⟨_, rfl, hy⟩⟩)
  simp only [keywordsOf_named h₁ h₂]
  refine .after_value ha.tracks (ends_combineKeywords _ _ place) fun k hk => ?_
  refine .bind ha (.refl _) (follows_conjoinItems h ha h₁ h₂ place)
    (runs_conjoinItems h.sound ha.toLawful hp₁ hp₂ hscope) (fun i => ?_)
    fun i b ℓb i' hb hab _ hrb => ?_
  · split
    · refine (keeps_conjoinExtras h.keeps _ _ _).bind fun e => ?_
      refine (keeps_conjoinProperties h.keeps _ _ _ _ _).bind fun ps => ?_
      split
      · exact keeps_planSides h.keeps _ _ _ _ _ _
      · exact keeps_pure _
    · exact keeps_pure _
  cases i with
  | none =>
      obtain rfl := named_none.1 hrb.named
      exact .pure hb.tracks (named_answer.2 ⟨_, rfl, named_none.2 rfl⟩)
  | some i =>
  obtain ⟨i', rfl, hi⟩ := named_some.1 hrb.named
  dsimp only
  have h₁b := hrb.carry h₁
  have h₂b := hrb.carry h₂
  have hp₁b := hp₁.mono hab.next
  have hp₂b := hp₂.mono hab.next
  refine .bind hb (.refl _) (follows_conjoinExtras h hb h₁b h₂b place)
    (runs_conjoinExtras h.sound hb.toLawful hp₁b hp₂b hscope) (fun e => ?_)
    fun e c ℓc e' hc hbc _ hrc => ?_
  · refine (keeps_conjoinProperties h.keeps _ _ _ _ _).bind fun ps => ?_
    split
    · exact keeps_planSides h.keeps _ _ _ _ _ _
    · exact keeps_pure _
  have h₁c := hrc.carry h₁b
  have h₂c := hrc.carry h₂b
  have hp₁c := hp₁b.mono hbc.next
  have hp₂c := hp₂b.mono hbc.next
  rw [show mergedKeys (ν.content x') (ν.content y') = mergedKeys (a.schema x) (a.schema y) by
    rw [h₁.eq, h₂.eq]; exact Schema.mergedKeys_rename]
  refine .bind hc (.refl _) (follows_conjoinProperties h hc h₁c h₂c (fun _ hk => hk)
    named_empty _ hp₁c hp₂c) (runs_conjoinProperties h.sound hc.toLawful hp₁c hp₂c hscope
      (fun _ hk => hk) .empty fun q hq => ⟨_, hq⟩) (fun ps => ?_)
    fun ps d ℓd ps' hd hcd _ hrd => ?_
  · split
    · exact keeps_planSides h.keeps _ _ _ _ _ _
    · exact keeps_pure _
  cases ps with
  | none =>
      obtain rfl := named_none.1 hrd.named
      exact .pure hd.tracks (named_answer.2 ⟨_, rfl, named_none.2 rfl⟩)
  | some ps =>
  obtain ⟨ps', rfl, hps⟩ := named_some.1 hrd.named
  dsimp only
  have hown := named_own hk (hrd.carry (hrc.carry hi)) (hrd.carry hrc.named) hps
  have hkeep : ∀ {γ : Type} [Mentions γ] {w w' : γ}, Held O ℓ a w w' → Held O ℓd d w w' :=
    fun hw => hrd.carry (hrc.carry (hrb.carry hw))
  exact follows_planSides h hd (hkeep hx) (hkeep hy) (hkeep h₁) (hkeep h₂) hown place

/-! ## What is stored -/

theorem NamedBy.trimValues {Q : SchemaId → Prop} {s s' : Schema} (h : NamedBy Q ℓ s s') :
    NamedBy Q ℓ (trimValues s) (Arena.trimValues s') where
  known c hc :=
    h.known c (by rwa [show ids (Arena.trimValues s) = s.links from links_trimValues s] at hc)
  eq := by
    rw [h.eq]
    exact Schema.trimValues_rename

theorem NamedBy.isBottom {Q : SchemaId → Prop} {s s' : Schema} (h : NamedBy Q ℓ s s') :
    s'.isBottom = s.isBottom := by
  rw [h.eq]
  exact Schema.isBottom_rename

/-- What has been stored from `a` on, with its name in `ℓ'`: one schema made of `o` at most. -/
structure Storing (O : Set SchemaId) (ν : Nomenclature) (o : Origin) (ℓ ℓ' : Labels)
    (a b : Arena) : Prop where
  ext : Extends a ℓ ℓ'
  next : a.next ≤ b.next
  inner : ∀ i, Inner O a i → Inner O b i
  conjunctions : b.conjunctions = a.conjunctions
  origin : ∀ i, a.next ≤ i → i < b.next → ∃ t, ℓ' i = ν.stored o t

theorem Storing.refl (o : Origin) (ℓ : Labels) (a : Arena) : Storing O ν o ℓ ℓ a a where
  ext := .refl a ℓ
  next := Nat.le_refl _
  inner _ hi := hi
  conjunctions := rfl
  origin _ hle hlt := absurd hlt (Nat.not_lt.2 hle)

/-- One more schema has been stored. -/
theorem storing_add {P : Json → Prop} {s t : Schema} (ha : a.WellFormed P) (hb : Adds a b s)
    (o : Origin) : Storing O ν o ℓ (Function.update ℓ a.next (ν.stored o t)) a b where
  ext := extends_update a ℓ (ν.stored o t)
  next := hb.le
  inner _ hi := (hb.inner_iff ha hi.lt).2 hi
  conjunctions := hb.conjunctions
  origin i hle hlt := by
    obtain hi | rfl := hb.lt_or_eq hlt
    · exact absurd hi (Nat.not_lt.2 hle)
    · exact ⟨t, Function.update_self ..⟩

theorem Storing.carries {o : Origin} (h : Storing O ν o ℓ ℓ' a b) : Carries ν ℓ ℓ' a b where
  ext := h.ext
  form i hle hlt := by
    obtain ⟨t, ht⟩ := h.origin i hle hlt
    exact ht ▸ ν.isForm_stored o t

theorem ends_store {gap : SchemaId → SchemaId → Pointer → Prop} {lost : SchemaId → Prop}
    {P : Json → Prop} (h : TracksBut O ν gap lost ℓ a) (ha : a.WellFormed P)
    (hO : ∀ z ∈ O, z < a.next) {s s' : Schema} (hs : Named ℓ a s s') {o : Origin}
    (hnew : ∀ i t, i < a.next → ℓ i ≠ ν.stored o t)
    (hown : ∀ m part k, o = .own m part k → k = ν.failures m ∧
      ∃ j, Inner O a j ∧ ℓ j = m ∧ a.progress.get? j ≠ none)
    (hother : ∀ j, o = .other j → j = a.next) :
    (store s).Ends a (fun r b => ∃ ℓ', Storing O ν o ℓ ℓ' a b ∧
      TracksBut O ν (fun x y p => gap x y p ∨ o = .both x y p) lost ℓ' b ∧
      Named ℓ' b r (ν.keep o s') ∧
      ((∀ c ∈ s.links, Inner O a c) → Held O ℓ' b r (ν.keep o s'))) fun _ _ => False := by
  have htrim := hs.trimValues
  unfold store Nomenclature.keep
  rw [htrim.isBottom]
  by_cases hbottom : (trimValues s).isBottom = true
  · simp only [hbottom, if_true]
    exact ⟨ℓ, .refl o ℓ a, h.mono (fun _ _ _ => .inl) fun _ => id, named_none.2 rfl,
      fun _ => named_none.2 rfl⟩
  · simp only [hbottom, if_false, Bool.false_eq_true]
    have hadds := adds_addForm a (trimValues s)
    have htracks := h.add ha hadds htrim hnew hown hother fun _ => isForm_addForm a _
    have hself : a.next < (a.addForm (trimValues s)).next := hadds.next ▸ Nat.lt_succ_self _
    have hname : ν.stored o (trimValues s') =
        Function.update ℓ a.next (ν.stored o (trimValues s')) a.next := by
      rw [Function.update_self]
    refine ⟨_, storing_add ha hadds o, htracks, named_some.2 ⟨_, rfl, named_id.2 ⟨hself, hname⟩⟩,
      fun hlinks => named_some.2 ⟨_, rfl, named_id.2 ⟨?_, hname⟩⟩⟩
    refine inner_of_links hself (fun hz => Nat.lt_irrefl _ (hO _ hz)) fun c hc => ?_
    change a.addForm (trimValues s) |>.Link a.next c at hc
    rw [Link, hadds.schema, if_pos rfl, links_trimValues] at hc
    have hci := hlinks c hc
    exact (hadds.inner_iff ha hci.lt).2 hci

/-- The normalization of `m` stores one part by itself. -/
def Allowance.part (m : SchemaId) (part : Part) : Allowance :=
  ⟨fun n q => n = m ∧ q = part, fun _ _ _ => False⟩

/-- The normalization of `m` stores what it stores by itself. -/
def Allowance.parts (m : SchemaId) : Allowance := ⟨fun n _ => n = m, fun _ _ _ => False⟩

theorem Allowance.part_within_parts (m : SchemaId) (part : Part) :
    (Allowance.part m part).Within (.parts m) :=
  ⟨fun _ _ h => h.1, fun _ _ _ h => h⟩

/-- The normalization of `m` has been started, and has stored those parts at most by itself. -/
structure Underway (O : Set SchemaId) (ν : Nomenclature) (ℓ : Labels) (a : Arena) (m : SchemaId)
    (parts : Part → Prop) : Prop where
  started : ∃ j, Inner O a j ∧ ℓ j = m ∧ a.progress.get? j ≠ none
  stored : ∀ i part t, i < a.next → ℓ i = ν.stored (ν.own m part) t → parts part

theorem Underway.carry {α : Type} {P : Json → Prop} {cx : Nat → Option α} {m : SchemaId}
    {parts : Part → Prop} (h : Underway O ν ℓ a m parts) (ha : a.WellFormed P)
    (hb : b.WellFormed P) (hab : Advances a b) (hmoves : Moves ν A ℓ ℓ' a b cx) :
    Underway O ν ℓ' b m fun part => parts part ∨ A.own m part := by
  obtain ⟨j, hj, hm, hp⟩ := h.started
  refine ⟨⟨j, hj.mono ha hab.toGrows, (hmoves.ext j hj.lt).trans hm,
    fun hnone => hp (progress_eq_none ha hb hab hnone)⟩, fun i part t hi ht => ?_⟩
  rcases Nat.lt_or_ge i a.next with hia | hia
  · rw [hmoves.ext i hia] at ht
    exact .inl (h.stored i part t hia ht)
  · exact .inr ((hmoves.own i m part _ t hia hi ht).resolve_right
      fun hnone => hp (hnone j hj.lt hm))

theorem follows_store (ha : Labelled O ν ℓ a) {s s' : Schema} (hs : Held O ℓ a s s')
    {m : SchemaId} {part : Part} {parts : Part → Prop} (hm : Underway O ν ℓ a m parts)
    (hpart : ¬parts part) :
    Follows O ν (.part m part) ℓ a (store s) fun _ => some (ν.keep (ν.own m part) s') := by
  refine Work.Ends.mono (ends_store ha.tracks ha.toWellFormed (fun z hz => (ha.outer z hz).1)
    (held_named hs) (fun i t hi ht => hpart (hm.stored i part t hi ht)) ?_ nofun) ?_
    fun _ _ => False.elim
  · rintro _ _ _ ⟨⟩
    exact ⟨rfl, hm.started⟩
  rintro r b ⟨ℓ', hstoring, htracks, -, hr⟩ -
  refine ⟨ℓ', _, ⟨hstoring.carries, ?_, ?_⟩, hstoring.inner,
    htracks.mono ?_ fun _ => id, hr hs.known, settles_pure _⟩
  · intro i m' part' k t hle hlt ht
    obtain ⟨t', ht'⟩ := hstoring.origin i hle hlt
    cases ν.origin_inj (ht.symm.trans ht')
    exact .inl ⟨rfl, rfl⟩
  · intro u v q hnone hsome
    rw [hstoring.conjunctions] at hsome
    exact absurd hnone hsome
  · rintro u v q (h | h)
    · exact h
    · cases h

/-! ## Conjunctions -/

theorem NamedBy.sameDemands (h₁ : Held O ℓ a s₁ s₁') (h : Tracks O ν ℓ a)
    (h₂ : Held O ℓ a s₂ s₂') : s₁'.sameDemands s₂' = s₁.sameDemands s₂ := by
  rw [h₁.eq, h₂.eq]
  exact Schema.sameDemands_rename fun c hc d hd =>
    h.inj c d (h₁.known c hc).lt (h₂.known d hd).lt

theorem ends_finishForms (ha : Labelled O ν ℓ a) (hx : Held O ℓ a x x') (hy : Held O ℓ a y y')
    {plan plan' : Plan} (hplan : Held O ℓ a plan plan') {p : Pointer}
    (hmiss : a.conjunctions.get? (x, y, p) = none) :
    (finishForms x y (a.schema x) (a.schema y) plan).Ends a (fun r b => ∃ ℓ',
      Storing O ν (.both x' y' p) ℓ ℓ' a b ∧
      TracksBut O ν (fun u v q => u = x' ∧ v = y' ∧ q = p) (fun _ => False) ℓ' b ∧
      Held O ℓ' b r (ν.finish x' y' p plan')) fun _ _ => False := by
  have hsame : TracksBut O ν (fun u v q => u = x' ∧ v = y' ∧ q = p) (fun _ => False) ℓ a :=
    ha.tracks.mono (fun _ _ _ => False.elim) fun _ => id
  cases plan with
  | answer r =>
      obtain ⟨r', rfl, hr⟩ := named_answer.1 hplan
      exact ⟨ℓ, .refl _ ℓ a, hsame, hr⟩
  | demands own =>
  obtain ⟨own', rfl, hown⟩ := named_demands.1 hplan
  unfold finishForms reuseOrStore Nomenclature.finish
  dsimp only
  rw [hown.sameDemands ha.tracks (ha.schema hx), hown.sameDemands ha.tracks (ha.schema hy)]
  split
  · exact ⟨ℓ, .refl _ ℓ a, hsame, named_some.2 ⟨_, rfl, hx⟩⟩
  split
  · exact ⟨ℓ, .refl _ ℓ a, hsame, named_some.2 ⟨_, rfl, hy⟩⟩
  refine Work.Ends.mono (ends_store (o := .both x' y' p) ha.tracks ha.toWellFormed
    (fun z hz => (ha.outer z hz).1) (held_named hown) ?_ ?_ nofun) ?_ fun _ _ h => h
  · -- a schema of this name would be remembered
    intro i t hi ht
    rcases ha.tracks.both i x' y' p t hi ht with h | ⟨j, k, hj, hk, hjx, hky, hc⟩
    · exact h
    · obtain ⟨hix, rfl⟩ := named_id.1 hx
      obtain ⟨hiy, rfl⟩ := named_id.1 hy
      cases ha.tracks.inj j x hj hix.lt hjx
      cases ha.tracks.inj k y hk hiy.lt hky
      exact hc hmiss
  · rintro _ _ _ ⟨⟩
  · rintro r b ⟨ℓ', hstoring, htracks, -, hr⟩
    refine ⟨ℓ', hstoring, htracks.mono ?_ fun _ => id, hr hown.known⟩
    rintro u v q (h | h)
    · exact h.elim
    · cases h
      exact ⟨rfl, rfl, rfl⟩

/-- A conjunction is made of its plan and remembered. -/
theorem follows_record (ha : Labelled O ν ℓ a) (hx : Held O ℓ a x x') (hy : Held O ℓ a y y')
    {plan plan' : Plan} (hplan : Held O ℓ a plan plan') {p : Pointer}
    (hmiss : a.conjunctions.get? (x, y, p) = none)
    (hval : Settles (fun n => ν.forms (ν.eval n) x' y' p) (ν.finish x' y' p plan'))
    (hA : A.key x' y' p) :
    Follows O ν A ℓ a (do
      let r ← finishForms x y (a.schema x) (a.schema y) plan
      Work.modify fun s => { s with conjunctions := s.conjunctions.insert (x, y, p) r }
      return r) fun _ => some (ν.finish x' y' p plan') := by
  refine Work.ends_bind.2 (Work.Ends.mono (ends_finishForms ha hx hy hplan hmiss) ?_
    fun _ _ => False.elim)
  rintro r b ⟨ℓ', hstoring, htracks, hr⟩ -
  obtain ⟨hix, hx'⟩ := named_id.1 (NamedBy.mono hx hstoring.inner fun i hi => hstoring.ext i hi.lt)
  obtain ⟨hiy, hy'⟩ := named_id.1 (NamedBy.mono hy hstoring.inner fun i hi => hstoring.ext i hi.lt)
  have hrecorded : Tracks O ν ℓ' (b.remember x y p r) := by
    refine TracksBut.remember (hx' ▸ hy' ▸ htracks) hix.lt hiy.lt fun _ _ => ?_
    rw [← hx', ← hy', show r.map ℓ' = _ from hr.eq.symm]
    exact hval
  refine ⟨ℓ', _, ⟨⟨hstoring.ext, hstoring.carries.form⟩, ?_, ?_⟩,
    fun i hi => inner_remember.2 (hstoring.inner i hi), hrecorded,
    ⟨fun i hi => inner_remember.2 (hr.known i hi), hr.eq⟩, settles_pure _⟩
  · intro i m part k t hle hlt ht
    obtain ⟨t', ht'⟩ := hstoring.origin i hle hlt
    cases ν.origin_inj (ht.symm.trans ht')
  · intro u v q hnone hsome
    left
    have hkey : (u, v, q) = (x, y, p) := by
      by_contra hne
      refine hsome ?_
      show (b.remember x y p r).conjunctions.get? (u, v, q) = none
      rw [conjunctions_remember, if_neg hne, hstoring.conjunctions]
      exact hnone
    cases hkey
    exact hx' ▸ hy' ▸ hA

theorem keeps_finishForms (x y : SchemaId) (s₁ s₂ : Schema) (plan : Plan) :
    Keeps (finishForms x y s₁ s₂ plan) := by
  cases plan with
  | answer r => exact keeps_pure _
  | demands own => exact keeps_reuseOrStore _ _ _ _ _

theorem keeps_conjoinRemembered (hsolve : ∀ task, Keeps (solve task)) (x y : SchemaId)
    (place : Pointer) : Keeps (do
      match ← Work.view fun s => s.conjunctions.get? (x, y, place) with
      | some known => return known
      | none =>
        let result ← conjoinForms solve x y place
        Work.modify fun s =>
          { s with conjunctions := s.conjunctions.insert (x, y, place) result }
        return result) :=
  obeys_conjoinRemembered Change.retains hsolve x y place

/-- The normal forms are there; what is left is their conjunction, remembered or worked out now. -/
theorem follows_conjoinRemembered (h : Guided O ν solve) (ha : Labelled O ν ℓ a)
    (hx : Held O ℓ a x x') (hy : Held O ℓ a y y') (hformx : a.IsForm x) (hformy : a.IsForm y)
    {place : Pointer} (hA : A.key x' y' place) :
    Follows O ν A ℓ a (do
      match ← Work.view fun s => s.conjunctions.get? (x, y, place) with
      | some known => return known
      | none =>
        let result ← conjoinForms solve x y place
        Work.modify fun s =>
          { s with conjunctions := s.conjunctions.insert (x, y, place) result }
        return result) fun n => ν.forms (ν.eval n) x' y' place := by
  obtain ⟨hix, rfl⟩ := named_id.1 hx
  obtain ⟨hiy, rfl⟩ := named_id.1 hy
  refine .view_bind ?_
  split
  · next known hknown =>
      refine .known ha.tracks ⟨fun i hi => ?_, rfl⟩ (ha.tracks.memo _ _ _ _ hknown hix hiy)
      cases known with
      | none => simp [ids] at hi
      | some n =>
          rw [Mentions.mem_ids_some.1 hi]
          exact ha.inner_of_leads (ha.isForm_lt ((ha.memo _ _ _ _ hknown).2.2 n rfl)) hix hiy
            (ha.boths _ _ _ _ hknown n rfl)
  next hmiss =>
  have hvalue : (fun n => ν.forms (ν.eval n) (ℓ x) (ℓ y) place) = fun n =>
      ν.plan (ν.eval n) (ℓ x) (ℓ y) place >>= fun plan =>
        some (ν.finish (ℓ x) (ℓ y) place plan) :=
    funext fun n => Option.map_eq_bind
  simp only [conjoinForms_eq, bind_assoc]
  refine .view_bind (.view_bind ?_)
  rw [hvalue]
  refine .bind ha (.of_none A) (follows_planForms h ha hx hy place)
    (runs_planForms h.sound ha.toLawful hformx hformy place) (fun plan => ?_)
    fun plan b ℓb plan' hb hab _ hr => ?_
  · exact (keeps_finishForms _ _ _ _ _).bind fun _ =>
      .bind (.modify fun _ => ⟨Nat.le_refl _, fun _ _ => rfl, fun _ _ => rfl⟩) fun _ => keeps_pure _
  have hxb := hr.carry hx
  have hyb := hr.carry hy
  rw [← hab.schema x hix.lt, ← hab.schema y hiy.lt]
  refine follows_record hb hxb hyb hr.named ?_ (hr.settles.map _) hA
  -- a plan that took its own conjunction would have no value
  by_contra hhit
  have hneeds := (hr.moves.key x y place hmiss hhit).resolve_left id
  rw [hr.moves.ext x hix.lt, hr.moves.ext y hiy.lt] at hneeds
  exact hr.settles.not_never hneeds.never

theorem follows_conjoin (h : Guided O ν solve) (ha : Labelled O ν ℓ a) (hx : Held O ℓ a x x')
    (hy : Held O ℓ a y y') (place : Pointer) :
    Follows O ν .none ℓ a (conjoin solve x y place) fun n => ν.eval n (.conjoin x' y' place) := by
  -- the conjunction itself may be remembered besides, as the task takes its plan
  suffices hbody : Follows O ν ⟨fun _ _ => False, fun u v q =>
        Needs (fun n => ν.eval n (.conjoin x' y' place)) fun n => ν.plan (ν.eval n) u v q⟩
      ℓ a (conjoin solve x y place) fun n => ν.conjoin (ν.eval n) x' y' place from
    hbody.task (fun _ => rfl) rfl (fun _ _ => id) fun _ _ _ => id
  unfold conjoin Nomenclature.conjoin
  refine h.normalize_bind ha hx (fun fx => ?_) fun fx b ℓb fx' hb hab hfx hrb => ?_
  · split
    · refine (h.keeps _).bind fun fy => ?_
      split
      · split
        · exact keeps_pure _
        · exact keeps_conjoinRemembered h.keeps _ _ _
      · exact keeps_pure _
    · exact keeps_pure _
  cases fx with
  | none =>
      obtain rfl := named_none.1 hrb.named
      exact .pure hb.tracks (named_none.2 rfl)
  | some nx =>
  obtain ⟨nx', rfl, hnx⟩ := named_some.1 hrb.named
  dsimp only
  refine h.normalize_bind hb (hrb.carry hy) (fun fy => ?_) fun fy c ℓc fy' hc hbc hfy hrc => ?_
  · split
    · split
      · exact keeps_pure _
      · exact keeps_conjoinRemembered h.keeps _ _ _
    · exact keeps_pure _
  cases fy with
  | none =>
      obtain rfl := named_none.1 hrc.named
      exact .pure hc.tracks (named_none.2 rfl)
  | some ny =>
  obtain ⟨ny', rfl, hny⟩ := named_some.1 hrc.named
  have hnxc := hrc.carry hnx
  dsimp only
  simp only [hc.tracks.eq_iff (fun _ h => h.lt) hnxc hny]
  by_cases heq : nx = ny
  · simp only [if_pos heq]
    exact .pure hc.tracks (named_some.2 ⟨_, rfl, hnxc⟩)
  simp only [if_neg heq]
  have hne : nx' ≠ ny' := fun h => heq ((hc.tracks.eq_iff (fun _ h => h.lt) hnxc hny).1 h)
  exact follows_conjoinRemembered h hc hnxc hny (hc.form _ _ (hbc.done x _ hfx))
    (hc.form _ _ hfy) (ν.needs_plan hrb.settles hrc.settles hne)

end ApiModel.Arena
