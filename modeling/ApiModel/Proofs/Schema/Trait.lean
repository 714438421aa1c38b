/-
  ApiModel.Proofs.Schema.Trait

  Traits that answers inherit. Normalizing and conjoining make new schemas, which refer to other new
  schemas. A trait is a property that a schema has by its own demands or through the parts and members
  that it refers to, and that a schema which was made has in no other way; then an answer has it only
  if the question has. This is a law of answers, so it holds of every answer in every lawful arena.
-/
import ApiModel.Proofs.Schema.Solver

namespace ApiModel

namespace Arena

variable {P : Json → Prop}

/-- The schema `x` refers to `c` for parts of a value. -/
def Nests (a : Arena) (x c : SchemaId) : Prop := c ∈ (a.schema x).parts

theorem Nests.link {a : Arena} {x c : SchemaId} (h : a.Nests x c) : a.Link x c :=
  Schema.mem_links_of_part h

/-- What is referred to is a part or a member. -/
theorem link_iff {a : Arena} {x c : SchemaId} : a.Link x c ↔ a.Nests x c ∨ a.Member x c :=
  Schema.mem_links_iff

theorem IsForm.not_raw {a : Arena} {n : SchemaId} (h : a.IsForm n) : ¬a.Raw n :=
  fun hraw => hraw.1 h

/-- A property of what a schema demands itself, which schemas that are made have only when what they
    are made of has. -/
structure Demand where
  Holds : Schema → Prop
  joined : ∀ {P : Json → Prop} {L : Law P} {a : Arena} {s₁ s₂ own : Schema},
    OwnJoined L a s₁ s₂ own → Holds own → Holds s₁ ∨ Holds s₂
  trimmed : ∀ {s : Schema}, Holds (trimValues s) → Holds s
  base : ∀ {s : Schema}, Holds (baseOf s) → Holds s
  /-- Alternatives come of a schema `u` that has alternatives. -/
  branches : ∀ {s u : Schema} {p : Pointer} {bs : List SchemaId}, u.anyOf ≠ [] ∨ u.oneOf ≠ [] →
    Holds { s with pointer := p, anyOf := bs } → Holds s ∨ Holds u
  kinds : ∀ {s : Schema} {p : Pointer} {ks : KindSet}, s.kinds = some ks →
    Holds (kindsAlone p ks) → Holds s
  conjunction : ∀ (p : Pointer) (ids : List SchemaId), ¬Holds (.conjunction p ids)

/-- Nothing that a schema demands itself counts. -/
def Demand.none : Demand where
  Holds _ := False
  joined _ h := h.elim
  trimmed h := h
  base h := h
  branches _ h := .inl h
  kinds _ h := h
  conjunction _ _ h := h

/-- To make one of two demands. -/
def Demand.or (D E : Demand) : Demand where
  Holds s := D.Holds s ∨ E.Holds s
  joined h hown := by
    rcases hown with hD | hE
    · exact (D.joined h hD).imp .inl .inl
    · exact (E.joined h hE).imp .inr .inr
  trimmed := Or.imp D.trimmed E.trimmed
  base := Or.imp D.base E.base
  branches hu hown := by
    rcases hown with hD | hE
    · exact (D.branches hu hD).imp .inl .inl
    · exact (E.branches hu hE).imp .inr .inr
  kinds hks := Or.imp (D.kinds hks) (E.kinds hks)
  conjunction p ids := not_or.2 ⟨D.conjunction p ids, E.conjunction p ids⟩

/-- A family of properties of schemas, each of which comes of what a schema demands itself or is
    passed on by what it refers to: by members as it is, and by parts as the property `below` it. -/
structure Trait (P : Json → Prop) where
  Index : Type
  below : Index → Index
  own : Index → Demand
  Has : Index → Arena → SchemaId → Prop
  has_iff : ∀ {k : Index} {a b : Arena} {x : SchemaId}, a.WellFormed P → Grows a b →
    x < a.next → (Has k b x ↔ Has k a x)
  of_own : ∀ {k : Index} {a : Arena} {x : SchemaId}, (own k).Holds (a.schema x) → Has k a x
  of_part : ∀ {k : Index} {a : Arena} {x c : SchemaId}, a.Nests x c → Has (below k) a c → Has k a x
  of_member : ∀ {k : Index} {a : Arena} {x m : SchemaId}, a.Member x m → Has k a m → Has k a x
  /-- Either all schemas have it, or one that was made has it by its own demands, or through a part
      or a member. -/
  source : ∀ k : Index, (∀ a x, Has k a x) ∨ ∀ {a : Arena} {n : SchemaId}, a.WellFormed P →
    ¬a.Raw n → Has k a n → (own k).Holds (a.schema n) ∨
      (∃ c, a.Nests n c ∧ Has (below k) a c) ∨ ∃ m, a.Member n m ∧ Has k a m

variable (T : Trait P)

/-- An answer has the trait only if the question has. -/
def Trait.law : Law P where
  form a id r := ∀ n, r = some n → ∀ k, T.Has k a n → T.Has k a id
  both a x y r := ∀ n, r = some n → ∀ k, T.Has k a n → T.Has k a x ∨ T.Has k a y
  form_mono ha _ h hid hr hlaw n hn k hk := by
    rw [T.has_iff ha h (ha.isForm_lt (hr n hn))] at hk
    rw [T.has_iff ha h hid]
    exact hlaw n hn k hk
  both_mono ha _ h hx hy hr hlaw n hn k hk := by
    rw [T.has_iff ha h (ha.isForm_lt (hr n hn))] at hk
    rw [T.has_iff ha h (ha.isForm_lt hx), T.has_iff ha h (ha.isForm_lt hy)]
    exact hlaw n hn k hk
  form_self _ _ n hn k hk := by
    cases hn
    exact hk
  both_self _ _ n hn k hk := by
    cases hn
    exact .inl hk

namespace Trait

variable {T} {a : Arena} {c n x y own : SchemaId} {k : T.Index} {s s₁ s₂ : Schema}

/-- The schema demands what the trait is about, or refers to something that passes it on. -/
def Shows (T : Trait P) (k : T.Index) (a : Arena) (s : Schema) : Prop :=
  (T.own k).Holds s ∨ (∃ c ∈ s.parts, T.Has (T.below k) a c) ∨ ∃ m ∈ s.members, T.Has k a m

/-- A schema that was made has the trait by its demands or through what it refers to. -/
def Inherited (T : Trait P) (k : T.Index) : Prop :=
  ∀ {a : Arena} {n : SchemaId}, a.WellFormed P → ¬a.Raw n → T.Has k a n → T.Shows k a (a.schema n)

theorem Shows.has (h : T.Shows k a (a.schema x)) : T.Has k a x := by
  rcases h with hown | ⟨c, hc, hk⟩ | ⟨m, hm, hk⟩
  · exact T.of_own hown
  · exact T.of_part hc hk
  · exact T.of_member hm hk

/-- A normal form has the trait only if the schema has. -/
theorem has_of_done (ha : a.Lawful T.law) (hx : a.progress.get? x = some (.done (some n)))
    (h : T.Has k a n) : T.Has k a x :=
  ha.forms x _ hx n rfl k h

theorem of_joined (ha : a.Lawful T.law) (hj : Joined T.law a x y (some n)) (h : T.Has k a n) :
    T.Has k a x ∨ T.Has k a y := by
  cases hj with
  | forms hx hy _ _ hlaw => exact (hlaw n rfl k h).imp (has_of_done ha hx) (has_of_done ha hy)

/-! ## Child schemas -/

/-- The trait of what a schema stands for is its own. -/
theorem of_mem_operandsOf (ha : a.WellFormed P) (hc : c ∈ (a.operandsOf x).elements)
    (h : T.Has k a c) : T.Has k a x := by
  unfold operandsOf at hc
  cases hops : a.operands.get? x with
  | none =>
      simp only [hops, Option.getD_none, SortedSet.singleton, List.mem_singleton] at hc
      exact hc ▸ h
  | some os =>
      simp only [hops, Option.getD_some] at hc
      obtain ⟨-, p, hp⟩ := ha.operands x os hops
      refine T.of_member ?_ h
      rw [Member, hp]
      simpa [Schema.members, Schema.conjunction, Schema.blank] using hc

theorem of_mem_union (ha : a.WellFormed P)
    (hc : c ∈ ((a.operandsOf x).union (a.operandsOf y)).elements) (h : T.Has k a c) :
    T.Has k a x ∨ T.Has k a y :=
  (SortedSet.mem_union.1 hc).imp (fun hcx => of_mem_operandsOf ha hcx h)
    fun hcy => of_mem_operandsOf ha hcy h

/-- A conjunction put off has the trait through its operands. -/
theorem of_putOff (ha : a.WellFormed P)
    (hd : a.operands.get? c = some ((a.operandsOf x).union (a.operandsOf y))) (h : T.Has k a c) :
    T.Has k a x ∨ T.Has k a y := by
  rcases T.source k with hall | hsource
  · exact .inl (hall a x)
  obtain ⟨-, p, hp⟩ := ha.operands c _ hd
  rcases hsource ha (fun hraw => by simp [hraw.2] at hd) h with hown | ⟨d, hcd, -⟩ | ⟨d, hcd, hdk⟩
  · rw [hp] at hown
    exact absurd hown ((T.own k).conjunction _ _)
  · rw [Nests, hp] at hcd
    simp [Schema.parts, Schema.conjunction, Schema.blank, extraSchema?, Dict.values,
      Dict.empty] at hcd
  · rw [Member, hp] at hcd
    refine of_mem_union ha ?_ hdk
    simpa [Schema.members, Schema.conjunction, Schema.blank] using hcd

theorem of_childJoined (ha : a.Lawful T.law) (hj : ChildJoined T.law a x y (some c))
    (h : T.Has k a c) : T.Has k a x ∨ T.Has k a y := by
  generalize hr : some c = r at hj
  cases hj with
  | same _ => cases hr; exact .inl h
  | single hd => cases hr; exact of_mem_union ha.toWellFormed (by simp [hd]) h
  | putOff hd => cases hr; exact of_putOff ha.toWellFormed hd h
  | unmatched _ _ _ _ => cases hr
  | joined _ hx hy hjoined =>
      obtain ⟨n, rfl, hn⟩ := Option.map_eq_some_iff.1 hr.symm
      split at hn
      · exact .inl (hn ▸ h)
      · split at hn
        · exact .inr (hn ▸ h)
        · rw [← hn] at h
          exact (of_joined ha hjoined h).imp (has_of_done ha hx) (has_of_done ha hy)

/-! ## Demands on parts -/

/-- A part of a conjunction passes on what it has to a side. -/
theorem shows_of_partJoined (ha : a.Lawful T.law) (hj : PartJoined T.law a s₁ s₂ c)
    (h : T.Has (T.below k) a c) : T.Shows k a s₁ ∨ T.Shows k a s₂ := by
  cases hj with
  | left hc => exact .inl (.inr (.inl ⟨c, hc, h⟩))
  | right hc => exact .inr (.inr (.inl ⟨c, hc, h⟩))
  | both hf hz =>
      exact (of_childJoined ha hz h).imp (fun h => .inr (.inl ⟨_, hf.mem_parts.1, h⟩))
        fun h => .inr (.inl ⟨_, hf.mem_parts.2, h⟩)

/-- The demands of a conjunction show what those of one side show. -/
theorem of_ownJoined (ha : a.Lawful T.law) (hj : OwnJoined T.law a s₁ s₂ s) (h : T.Shows k a s) :
    T.Shows k a s₁ ∨ T.Shows k a s₂ := by
  rcases h with hown | ⟨c, hc, hck⟩ | ⟨c, hc, -⟩
  · exact ((T.own k).joined hj hown).imp .inl .inl
  · exact shows_of_partJoined ha (hj.part hc) hck
  · rw [hj.members] at hc
    cases hc

/-! ## Alternatives -/

theorem of_crossed (ha : a.Lawful T.law) {left right bs : List SchemaId}
    (hj : Crossed T.law a left right bs) (hc : c ∈ bs) (h : T.Has k a c) :
    ∃ m, (m ∈ left ∨ m ∈ right) ∧ T.Has k a m := by
  obtain ⟨l, hl, r, hr, hlr⟩ := hj.sound c hc
  rcases of_joined ha hlr h with h | h
  · exact ⟨l, .inl hl, h⟩
  · exact ⟨r, .inr hr, h⟩

/-- The alternatives of a normal form pass on what they have. -/
theorem of_mem_sides (hc : c ∈ a.sides x) (h : T.Has k a c) : T.Has k a x := by
  unfold sides at hc
  split at hc
  · rw [List.mem_singleton] at hc
    exact hc ▸ h
  · exact T.of_member (by simp [Member, Schema.members, hc]) h

/-- A schema with other alternatives shows what these have, what it showed, and what a schema
    demands of which the alternatives come. -/
theorem shows_anyOf {u : Schema} {bs : List SchemaId} {p : Pointer}
    (hu : u.anyOf ≠ [] ∨ u.oneOf ≠ []) (h : T.Shows k a { s with pointer := p, anyOf := bs }) :
    T.Shows k a s ∨ (T.own k).Holds u ∨ ∃ c ∈ bs, T.Has k a c := by
  rcases h with hown | hpart | ⟨m, hm, hmk⟩
  · exact ((T.own k).branches hu hown).imp .inl .inl
  · exact .inl (.inr (.inl hpart))
  · simp only [Schema.members, List.mem_append] at hm
    rcases hm with (hm | hm) | hm
    · exact .inl (.inr (.inr ⟨m, by simp [Schema.members, hm], hmk⟩))
    · exact .inr (.inr ⟨m, hm, hmk⟩)
    · exact .inl (.inr (.inr ⟨m, by simp [Schema.members, hm], hmk⟩))

/-! ## Conjunctions and normal forms -/

section Made

variable (hk : T.Inherited k)
include hk

/-- A stored schema has the trait by its demands or through what it refers to. -/
theorem of_stored (ha : a.WellFormed P) (h : Stored a s (some n)) (hn : T.Has k a n) :
    T.Shows k a s := by
  cases h with
  | stored _ hform hs =>
      have hshows := hk ha hform.not_raw hn
      rw [hs] at hshows
      refine hshows.imp (T.own k).trimmed fun hrefers => ?_
      obtain ⟨vs, hvs, -⟩ := trimValues_eq s
      rw [hvs] at hrefers
      exact hrefers

theorem of_reused (ha : a.WellFormed P) (h : Reused a x y s (some n)) (hn : T.Has k a n) :
    T.Has k a x ∨ T.Has k a y ∨ T.Shows k a s := by
  generalize hr : some n = r at h
  cases h with
  | left _ => cases hr; exact .inl hn
  | right _ => cases hr; exact .inr (.inl hn)
  | stored hs => exact .inr (.inr (of_stored hk ha (hr ▸ hs) hn))

theorem of_bothJoined (ha : a.Lawful T.law) (hj : BothJoined T.law a x y (some n))
    (h : T.Has k a n) : T.Has k a x ∨ T.Has k a y := by
  have hsides : (∃ m, (m ∈ a.sides x ∨ m ∈ a.sides y) ∧ T.Has k a m) →
      T.Has k a x ∨ T.Has k a y := by
    rintro ⟨m, hm, hmk⟩
    exact hm.imp (fun hx => of_mem_sides hx hmk) fun hy => of_mem_sides hy hmk
  have hown : ∀ {own}, OwnJoined T.law a (a.schema x) (a.schema y) own →
      T.Shows k a own → T.Has k a x ∨ T.Has k a y := fun hown hs =>
    (of_ownJoined ha hown hs).imp Shows.has Shows.has
  generalize hr : some n = r at hj
  cases hj with
  | rightFree _ => cases hr; exact .inl h
  | leftFree _ => cases hr; exact .inr h
  | itemsClash _ => cases hr
  | propertyClash _ _ => cases hr
  | plain ho _ _ hreused =>
      rcases of_reused hk ha.toWellFormed (hr ▸ hreused) h with hx | hy | hs
      · exact .inl hx
      · exact .inr hy
      · exact hown ho hs
  | noBranch _ _ => cases hr
  | oneBranch _ hbs =>
      cases hr
      exact hsides (of_crossed ha hbs (by simp) h)
  | branches hany ho hbs _ hreused =>
      rcases of_reused hk ha.toWellFormed (hr ▸ hreused) h with hx | hy | hs
      · exact .inl hx
      · exact .inr hy
      have hside : ∀ {z}, (a.schema z).anyOf ≠ [] → (T.Has k a z → T.Has k a x ∨ T.Has k a y) →
          T.Has k a x ∨ T.Has k a y := by
        intro z hz hxy
        rcases shows_anyOf (.inl hz) hs with hs | hs | ⟨c, hc, hck⟩
        · exact hown ho hs
        · exact hxy (T.of_own hs)
        · exact hsides (of_crossed ha hbs hc hck)
      exact hany.elim (hside · .inl) (hside · .inr)

omit hk in
theorem of_allJoined (ha : a.Lawful T.law) {ms : List SchemaId}
    (hj : AllJoined T.law a own ms (some n)) (h : T.Has k a n) :
    T.Has k a own ∨ ∃ m ∈ ms, T.Has k a m := by
  generalize hr : some n = r at hj
  induction hj with
  | nil => cases hr; exact .inl h
  | clash _ => cases hr
  | @cons own m _ _ _ hm _ ih =>
      rcases ih hr with hn | ⟨d, hd, hdk⟩
      · exact (of_joined ha hm hn).imp_right fun h => ⟨m, by simp, h⟩
      · exact .inr ⟨d, by simp [hd], hdk⟩

theorem of_gathered (ha : a.WellFormed P) {bs : List SchemaId} (hs : s.anyOf ≠ [] ∨ s.oneOf ≠ [])
    (hj : Gathered a s own bs (some n)) (h : T.Has k a n) :
    T.Has k a own ∨ (T.own k).Holds s ∨ ∃ c ∈ bs, T.Has k a c := by
  generalize hr : some n = r at hj
  cases hj with
  | none _ => cases hr
  | one hbs => cases hr; exact .inr (.inr ⟨n, by simp [hbs], h⟩)
  | many _ hstored =>
      exact (shows_anyOf hs (of_stored hk ha (hr ▸ hstored) h)).imp_left Shows.has

/-- The alternatives of a schema that are left have what the schema shows, or what `own` has. -/
theorem of_alternativesJoined (ha : a.Lawful T.law)
    (hj : AlternativesJoined T.law a s own (some n)) (h : T.Has k a n) :
    T.Has k a own ∨ T.Shows k a s := by
  have hgroup : ∀ {ms bs : List SchemaId}, (∀ m ∈ ms, m ∈ s.members) →
      Crossed T.law a ms [own] bs → (∃ c ∈ bs, T.Has k a c) →
      T.Has k a own ∨ T.Shows k a s := by
    rintro ms bs hms hbs ⟨c, hc, hck⟩
    obtain ⟨m, hm | hm, hmk⟩ := of_crossed ha hbs hc hck
    · exact .inr (.inr (.inr ⟨m, hms m hm, hmk⟩))
    · rw [List.mem_singleton] at hm
      exact .inl (hm ▸ hmk)
  have hany : ∀ m ∈ s.anyOf, m ∈ s.members := fun m hm => by simp [Schema.members, hm]
  have hone : ∀ m ∈ s.oneOf, m ∈ s.members := fun m hm => by simp [Schema.members, hm]
  have hgathered : ∀ {bs}, s.anyOf ≠ [] ∨ s.oneOf ≠ [] → Gathered a s own bs (some n) →
      (T.Has k a own ∨ T.Shows k a s) ∨ ∃ c ∈ bs, T.Has k a c := fun hs hg =>
    or_assoc.2 ((of_gathered hk ha.toWellFormed hs hg h).imp_right fun h => h.imp_left .inl)
  generalize hr : some n = r at hj
  cases hj with
  | neither _ _ => cases hr; exact .inl h
  | anyClash _ _ => cases hr
  | oneClash _ _ => cases hr
  | any hs _ hbs hg => exact (hgathered (.inl hs) (hr ▸ hg)).elim id (hgroup hany hbs)
  | one _ hs hbs hg => exact (hgathered (.inr hs) (hr ▸ hg)).elim id (hgroup hone hbs)
  | both hs _ has hos hbs hg =>
      rcases hgathered (.inl hs) (hr ▸ hg) with h | ⟨c, hc, hck⟩
      · exact h
      · obtain ⟨m, hm | hm, hmk⟩ := of_crossed ha hbs hc hck
        · exact hgroup hany has ⟨m, hm, hmk⟩
        · exact hgroup hone hos ⟨m, hm, hmk⟩

omit hk in
/-- The base of a normal form demands what the schema does and has its parts. -/
theorem shows_baseOf (h : T.Shows k a (baseOf s)) : T.Shows k a s := by
  rcases h with hown | hpart | ⟨m, hm, -⟩
  · exact .inl ((T.own k).base hown)
  · exact .inr (.inl hpart)
  · cases hm

omit hk in
/-- The kinds alone refer to nothing. -/
theorem holds_of_kindsAlone {p : Pointer} {ks : KindSet} (h : T.Shows k a (kindsAlone p ks)) :
    (T.own k).Holds (kindsAlone p ks) := by
  rcases h with hown | ⟨c, hc, -⟩ | ⟨m, hm, -⟩
  · exact hown
  · cases hc
  · cases hm

theorem of_formJoined (ha : a.Lawful T.law) (hj : FormJoined T.law a s (some n))
    (h : T.Has k a n) : T.Shows k a s := by
  have hmember : ∀ {m}, m ∈ s.members → T.Has k a m → T.Shows k a s := fun hm hmk =>
    .inr (.inr ⟨_, hm, hmk⟩)
  generalize hr : some n = r at hj
  cases hj with
  | bottom _ => cases hr
  | @narrowed c _ hc hn =>
      have hc := Schema.mem_members_of_soleChild? hc
      cases hn with
      | unmatched _ => cases hr
      | anyKind hdone _ => cases hr; exact hmember hc (has_of_done ha hdone h)
      | noKind _ _ _ => cases hr
      | kinds hdone hkinds hs hjoined =>
          rcases of_joined ha (hr ▸ hjoined) h with h | h
          · exact hmember hc (has_of_done ha hdone h)
          · have hshows := of_stored hk ha.toWellFormed hs h
            exact .inl ((T.own k).kinds hkinds (holds_of_kindsAlone hshows))
  | noBase _ _ => cases hr
  | allClash _ _ _ => cases hr
  | alternatives _ hbase hall halt =>
      refine (of_alternativesJoined hk ha (hr ▸ halt) h).elim (fun h => ?_) id
      rcases of_allJoined ha hall h with h | ⟨m, hm, hmk⟩
      · exact shows_baseOf (of_stored hk ha.toWellFormed hbase h)
      · exact hmember (by simp [Schema.members, hm]) hmk

end Made

/-- Answers inherit the trait from what they answer. -/
theorem upheld (T : Trait P) : Upheld T.law where
  form {a id r} ha _ hj n hn k h := by
    rcases T.source k with hall | hsource
    · exact hall a id
    · exact (of_formJoined hsource ha (hn ▸ hj) h).has
  both {a x y r} ha _ _ _ hj n hn k h := by
    rcases T.source k with hall | hsource
    · exact .inl (hall a x)
    · exact of_bothJoined hsource ha (hn ▸ hj) h

end Trait

end Arena

end ApiModel
