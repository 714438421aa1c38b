/-
  ApiModel.Proofs.Schema.Parts

  Which values a conjunction of schemas without combinators accepts, parts included. Whatever it
  accepts, both sides accept; and it accepts what both sides accept unless two child schemas that
  had to be conjoined on the way exclude each other. The conjunction as a whole is none then, even
  where a value could do without the child.
-/
import ApiModel.Proofs.Schema.Keywords
import ApiModel.Proofs.Schema.Solver

namespace ApiModel.Arena

variable {rd : Reading} {a b t : Arena} {id x y n : SchemaId} {v w : Json} {k : String}
  {s s₁ s₂ : Schema}

/-! ## Schemas without combinators -/

/-- An array item is what the schema asks of items. -/
def ItemFits (rd : Reading) (t : Arena) (items : Option SchemaId) (w : Json) : Prop :=
  ∀ c, items = some c → Accepts rd t c w

/-- A property that is not named is what the schema asks of such properties. -/
def ExtraFits (rd : Reading) (t : Arena) (extras : Option Extras) (w : Json) : Prop :=
  extras ≠ some (.allowed false) ∧ ∀ c, extras = some (.matching c) → Accepts rd t c w

/-- A property is what the schema asks of properties with its name. -/
def FieldFits (rd : Reading) (t : Arena) (s : Schema) (k : String) (w : Json) : Prop :=
  match s.properties.get? k with
  | some c => Accepts rd t c w
  | none => ExtraFits rd t s.extras w

/-- A value is what a schema without combinators asks for, and so are its parts. -/
structure Fulfils (rd : Reading) (t : Arena) (s : Schema) (v : Json) : Prop where
  own : s.Admits rd v
  items : ∀ xs, v = .arr xs → ∀ w ∈ xs, ItemFits rd t s.items w
  fields : ∀ fs k w, v = .obj fs → fs.lookup k = some w → FieldFits rd t s k w

theorem fieldFits_of_named {c : SchemaId} (h : s.properties.get? k = some c) :
    FieldFits rd t s k w ↔ Accepts rd t c w := by
  unfold FieldFits
  rw [h]

theorem fieldFits_of_not_named (h : s.properties.get? k = none) :
    FieldFits rd t s k w ↔ ExtraFits rd t s.extras w := by
  unfold FieldFits
  rw [h]

theorem extraFits_of_unrestricted {e : Option Extras} (h : Unrestricted e) :
    ExtraFits rd t e w := by
  rcases h with rfl | rfl
  · exact ⟨by simp, by simp⟩
  · exact ⟨by simp, by simp⟩

theorem not_extraFits_of_isClosed (h : isClosed s = true) : ¬ExtraFits rd t s.extras w := by
  have hclosed : s.extras = some (.allowed false) := eq_of_beq h
  exact fun hfits => hfits.1 hclosed

theorem extraFits_matching {c : SchemaId} :
    ExtraFits rd t (some (.matching c)) w ↔ Accepts rd t c w := by
  simp [ExtraFits]

/-- Without combinators a schema accepts what fulfils it. -/
theorem accepts_iff_fulfils (hm : (t.schema id).members = []) :
    Accepts rd t id v ↔ Fulfils rd t (t.schema id) v := by
  have hempty := hm
  simp only [Schema.members, List.append_eq_nil_iff] at hempty
  obtain ⟨⟨hall, hany⟩, hone⟩ := hempty
  rw [accepts_iff, hall, hany, hone]
  constructor
  · rintro ⟨own, allows, parts, -⟩
    refine ⟨own, fun xs hv w hw c hc => parts c w (.item hv hc hw), fun fs k w hv hw => ?_⟩
    cases hk : (t.schema id).properties.get? k with
    | some c => exact (fieldFits_of_named hk).2 (parts c w (.property hv hk hw))
    | none =>
        rw [fieldFits_of_not_named hk]
        refine ⟨fun hclosed => allows hclosed fs k w hv hw hk, fun c hc => ?_⟩
        exact parts c w (.extra hv hk hc hw)
  · intro h
    refine ⟨h.own, fun hclosed fs k w hv hw hk => ?_, fun c w hpart => ?_, by simp⟩
    · have hfits := (fieldFits_of_not_named hk).1 (h.fields fs k w hv hw)
      exact hfits.1 hclosed
    · cases hpart with
      | item hv hc hw => exact h.items _ hv w hw c hc
      | property hv hc hw => exact (fieldFits_of_named hc).1 (h.fields _ _ w hv hw)
      | extra hv hk hc hw =>
          exact ((fieldFits_of_not_named hk).1 (h.fields _ _ w hv hw)).2 c hc

/-- What fulfils a schema depends on its own demands and on the schemas it refers to. -/
theorem fulfils_congr (hown : s₁.Admits rd v ↔ s₂.Admits rd v) (hparts : SameParts s₁ s₂) :
    Fulfils rd t s₁ v ↔ Fulfils rd t s₂ v := by
  have hfields : ∀ k w, FieldFits rd t s₁ k w ↔ FieldFits rd t s₂ k w := by
    intro k w
    unfold FieldFits
    rw [hparts.properties k, hparts.extras]
  constructor
  · intro h
    exact ⟨hown.1 h.own, hparts.items ▸ h.items,
      fun fs k w hv hw => (hfields k w).1 (h.fields fs k w hv hw)⟩
  · intro h
    exact ⟨hown.2 h.own, hparts.items ▸ h.items,
      fun fs k w hv hw => (hfields k w).2 (h.fields fs k w hv hw)⟩

theorem sameParts_trimValues : SameParts (trimValues s) s := by
  obtain ⟨vs, hvs, -⟩ := trimValues_eq s
  rw [hvs]
  exact ⟨rfl, fun _ => rfl, rfl⟩

theorem fulfils_trimValues : Fulfils rd t (trimValues s) v ↔ Fulfils rd t s v :=
  fulfils_congr admits_trimValues sameParts_trimValues

theorem sameParts_baseOf : SameParts (baseOf s) s := ⟨rfl, fun _ => rfl, rfl⟩

theorem fulfils_baseOf : Fulfils rd t (baseOf s) v ↔ Fulfils rd t s v :=
  fulfils_congr admits_baseOf sameParts_baseOf

theorem fulfils_of_sameDemands {m : Nat} (h : s₁.sameDemands s₂ = true)
    (h₁ : s₁.Proper Json.Distinct m) (h₂ : s₂.Proper Json.Distinct m) :
    Fulfils rd t s₁ v ↔ Fulfils rd t s₂ v :=
  fulfils_congr (admits_of_sameDemands h h₁ h₂) (sameShape_of_sameDemands h h₁.keys).toSameParts

theorem fulfils_of_isUnconstrained {m : Nat} (h : s.isUnconstrained = true)
    (hs : s.Proper Json.Distinct m) : Fulfils rd t s v := by
  obtain ⟨hadmits, hshape⟩ : s.Admits rd v ∧ SameShape s _ := admits_of_isUnconstrained h hs
  refine ⟨hadmits, fun xs _ w _ c hc => ?_, fun fs k w _ _ => ?_⟩
  · rw [hshape.items] at hc
    cases hc
  · rw [fieldFits_of_not_named (hshape.properties k), hshape.extras]
    exact extraFits_of_unrestricted (.inl rfl)

/-! ## Conjunctions that are put off -/

/-- A schema accepts what all its operands accept. -/
theorem accepts_iff_operandsOf {P : Json → Prop} (ht : t.WellFormed P) :
    Accepts rd t x v ↔ ∀ o ∈ (t.operandsOf x).elements, Accepts rd t o v := by
  unfold operandsOf
  cases hops : t.operands.get? x with
  | none => simp [SortedSet.singleton]
  | some os =>
      obtain ⟨-, p, hschema⟩ := ht.operands x os hops
      have hblank : (Schema.conjunction p os.elements).Admits rd v := { admits_blank p with }
      rw [accepts_iff, hschema]
      constructor
      · exact fun h => h.2.2.2.1
      · intro h
        refine ⟨hblank, ?_, fun c w hpart => ?_, h, by simp [Schema.conjunction, Schema.blank],
          by simp [Schema.conjunction, Schema.blank]⟩
        · simp [Schema.Allows, Schema.conjunction, Schema.blank]
        · cases hpart with
          | item _ hc _ => cases hc
          | property _ hc _ => cases hc
          | extra _ _ hc _ => cases hc

theorem accepts_of_union {P : Json → Prop} (ht : t.WellFormed P) :
    (∀ o ∈ ((t.operandsOf x).union (t.operandsOf y)).elements, Accepts rd t o v) ↔
      Accepts rd t x v ∧ Accepts rd t y v := by
  rw [accepts_iff_operandsOf ht (x := x), accepts_iff_operandsOf ht (x := y)]
  constructor
  · exact fun h => ⟨fun o ho => h o (SortedSet.mem_union.2 (.inl ho)),
      fun o ho => h o (SortedSet.mem_union.2 (.inr ho))⟩
  · rintro ⟨hx, hy⟩ o ho
    exact (SortedSet.mem_union.1 ho).elim (hx o) (hy o)

/-! ## Child schemas that are conjoined -/

theorem Facing.congr {c d : SchemaId} {s₁' s₂' : Schema} (h : Facing s₁ s₂ c d)
    (h₁ : SameParts s₁ s₁') (h₂ : SameParts s₂ s₂') : Facing s₁' s₂' c d := by
  cases h with
  | items hc hd => exact .items (h₁.items ▸ hc) (h₂.items ▸ hd)
  | property hc hd => exact .property (h₁.properties _ ▸ hc) (h₂.properties _ ▸ hd)
  | leftExtra hc hk hd =>
      exact .leftExtra (h₁.properties _ ▸ hc) (h₂.properties _ ▸ hk) (h₂.extras ▸ hd)
  | rightExtra hk hc hd =>
      exact .rightExtra (h₁.properties _ ▸ hk) (h₁.extras ▸ hc) (h₂.properties _ ▸ hd)
  | extras hc hd => exact .extras (h₁.extras ▸ hc) (h₂.extras ▸ hd)

/-- The conjunction of the first pair of schemas conjoins the second pair, two different child
    schemas. -/
def Opposes (a : Arena) (p q : SchemaId × SchemaId) : Prop :=
  Facing (a.schema p.1) (a.schema p.2) q.1 q.2 ∧ q.1 ≠ q.2

/-- It is on record that two schemas have no conjunction. -/
inductive Excluded (t : Arena) (x y : SchemaId) : Prop
  | left (hx : t.progress.get? x = some (.done none))
  | right {nx : SchemaId} (hx : t.progress.get? x = some (.done (some nx)))
      (hy : t.progress.get? y = some (.done none))
  | forms {nx ny : SchemaId} {p : Pointer} (hx : t.progress.get? x = some (.done (some nx)))
      (hy : t.progress.get? y = some (.done (some ny))) (hne : nx ≠ ny)
      (h : t.conjunctions.get? (nx, ny, p) = some none)

/-- Two child schemas that are conjoined on the way have no conjunction. -/
def Clashes (a : Arena) (x y : SchemaId) : Prop :=
  ∃ q, Relation.TransGen a.Opposes (x, y) q ∧ Excluded a q.1 q.2

/-- Children of bare schemas that exist are bare and exist, however far down. -/
theorem bare_of_opposes {P : Json → Prop} (ha : a.WellFormed P) {q : SchemaId × SchemaId}
    (hx : a.Bare x) (hy : a.Bare y) (h : Relation.TransGen a.Opposes (x, y) q) :
    (a.Bare q.1 ∧ a.Bare q.2) ∧ q.1 < a.next ∧ q.2 < a.next := by
  have hstep : ∀ {p q}, a.Opposes p q → a.Link p.1 q.1 ∧ a.Link p.2 q.2 :=
    fun h => h.1.mem_links
  induction h with
  | single h =>
      obtain ⟨hl, hr⟩ := hstep h
      exact ⟨⟨hx.link hl, hy.link hr⟩, ha.link_lt hl, ha.link_lt hr⟩
  | tail _ h ih =>
      obtain ⟨hl, hr⟩ := hstep h
      exact ⟨⟨ih.1.1.link hl, ih.1.2.link hr⟩, ha.link_lt hl, ha.link_lt hr⟩

/-- Which child schemas are conjoined stays the same. -/
theorem opposes_iff_of_grows {P : Json → Prop} (ha : a.WellFormed P) (h : Grows a b)
    {q : SchemaId × SchemaId} (hx : x < a.next) (hy : y < a.next) :
    Relation.TransGen b.Opposes (x, y) q ↔ Relation.TransGen a.Opposes (x, y) q := by
  have hstep : ∀ {p q}, p.1 < a.next → p.2 < a.next → (b.Opposes p q ↔ a.Opposes p q) := by
    intro p q h₁ h₂
    unfold Opposes
    rw [h.schema p.1 h₁, h.schema p.2 h₂]
  have hlt : ∀ {p q}, Relation.TransGen a.Opposes p q → q.1 < a.next ∧ q.2 < a.next := by
    intro p q hpq
    obtain ⟨o, -, ho⟩ := Relation.TransGen.tail'_iff.1 hpq
    exact ⟨ha.link_lt ho.1.mem_links.1, ha.link_lt ho.1.mem_links.2⟩
  constructor
  · intro hq
    induction hq with
    | single hq => exact .single ((hstep hx hy).1 hq)
    | tail _ hq ih => exact ih.tail ((hstep (hlt ih).1 (hlt ih).2).1 hq)
  · intro hq
    induction hq with
    | single hq => exact .single ((hstep hx hy).2 hq)
    | tail hpq hq ih => exact ih.tail ((hstep (hlt hpq).1 (hlt hpq).2).2 hq)

/-- The record of bare schemas is kept. -/
theorem Excluded.mono {P : Json → Prop} (ha : a.WellFormed P) (h : Grows a b) (hx : a.Bare x)
    (hy : a.Bare y) (hxy : Excluded a x y) : Excluded b x y := by
  cases hxy with
  | left hnx => exact .left (h.done _ _ hnx)
  | right hnx hny => exact .right (h.done _ _ hnx) (h.done _ _ hny)
  | forms hnx hny hne hp =>
      have hlt : ∀ {z n}, a.progress.get? z = some (.done (some n)) → n < a.next :=
        fun hz => ha.isForm_lt (ha.form _ _ hz)
      have hp' := h.kept _ _ _ _ (hlt hnx) (hlt hny) (ha.bare_form hx hnx)
        (ha.bare_form hy hny) hp
      exact .forms (h.done _ _ hnx) (h.done _ _ hny) hne hp'

theorem Clashes.mono {P : Json → Prop} (ha : a.WellFormed P) (h : Grows a b) (hx : x < a.next)
    (hy : y < a.next) (hbx : a.Bare x) (hby : a.Bare y) (hxy : Clashes a x y) :
    Clashes b x y := by
  obtain ⟨q, hq, hexcluded⟩ := hxy
  obtain ⟨⟨hb₁, hb₂⟩, -⟩ := bare_of_opposes ha hbx hby hq
  exact ⟨q, (opposes_iff_of_grows ha h hx hy).2 hq, hexcluded.mono ha h hb₁ hb₂⟩

theorem clashes_of_excluded {c d : SchemaId} (h : Facing (t.schema x) (t.schema y) c d)
    (hne : c ≠ d) (hcd : Excluded t c d) : Clashes t x y :=
  ⟨(c, d), .single ⟨h, hne⟩, hcd⟩

theorem clashes_of_child {c d : SchemaId} (h : Facing (t.schema x) (t.schema y) c d)
    (hne : c ≠ d) (hcd : Clashes t c d) : Clashes t x y := by
  obtain ⟨q, hq, hexcluded⟩ := hcd
  exact ⟨q, .head ⟨h, hne⟩ hq, hexcluded⟩

/-! ## The law -/

/-- The proposition `p` implies both `q` and `q'`, and is implied by both where `h` holds. -/
structure Meet (h p q q' : Prop) : Prop where
  sound : p → q ∧ q'
  complete : h → q → q' → p

theorem Meet.congr {h h' p p' q₁ q₁' q₂ q₂' : Prop} (hm : Meet h p q₁ q₂) (hh : h' → h)
    (hp : p ↔ p') (h₁ : q₁ ↔ q₁') (h₂ : q₂ ↔ q₂') : Meet h' p' q₁' q₂' where
  sound hp' := (hm.sound (hp.2 hp')).imp h₁.1 h₂.1
  complete hh' h₁' h₂' := hp.1 (hm.complete (hh hh') (h₁.2 h₁') (h₂.2 h₂'))

theorem meet_of_iff {h p q q' : Prop} (hp : p ↔ q ∧ q') : Meet h p q q' :=
  ⟨hp.1, fun _ hq hq' => hp.2 ⟨hq, hq'⟩⟩

/-- A normal form without combinators says which kinds it is of and lists no other values. -/
theorem trimValues_baseOf (h : s.IsNormal) (hm : s.members = []) : trimValues (baseOf s) = s := by
  simp only [Schema.members, List.append_eq_nil_iff] at hm
  obtain ⟨⟨hall, hany⟩, hone⟩ := hm
  obtain ⟨ks, hks⟩ := Option.ne_none_iff_exists'.1 h.kinds
  have hbase : baseOf s = s := by
    cases s
    simp_all [baseOf, Schema.withoutCombinators]
  rw [hbase, trimValues_of_isNormal h]

/-- The normal form of a schema without combinators is the schema with its kinds, or nothing where
    the schema admits nothing; the conjunction of bare forms accepts what both sides accept, unless
    child schemas clash. -/
def partsLaw (rd : Reading) : Law Json.Distinct where
  form a id r := (a.schema id).members = [] →
    (∀ n, r = some n → a.schema n = trimValues (baseOf (a.schema id))) ∧
      (r = none → ∀ v, ¬(a.schema id).Admits rd v)
  both a x y r := a.Bare x → a.Bare y → ∀ v, v.Distinct →
    Meet (¬Clashes a x y) (Met rd a r v) (Accepts rd a x v) (Accepts rd a y v)
  form_mono ha _ h hid hr hlaw hm := by
    rw [h.schema _ hid] at hm ⊢
    obtain ⟨hsome, hnone⟩ := hlaw hm
    refine ⟨fun n hn => ?_, hnone⟩
    rw [h.schema n (ha.isForm_lt (hr n hn))]
    exact hsome n hn
  both_mono ha _ h hx hy hr hlaw hbx hby v hv := by
    have hx := ha.isForm_lt hx
    have hy := ha.isForm_lt hy
    have hbx := (bare_iff ha h.schema hx).1 hbx
    have hby := (bare_iff ha h.schema hy).1 hby
    refine (hlaw hbx hby v hv).congr (fun hno hyes => hno (hyes.mono ha h hx hy hbx hby)) ?_
      (h.accepts_iff ha hx).symm (h.accepts_iff ha hy).symm
    refine exists_congr fun n => and_congr_right fun hn => ?_
    exact (h.accepts_iff ha (ha.isForm_lt (hr n hn))).symm
  form_self ha hn hm := by
    refine ⟨?_, by simp⟩
    rintro _ ⟨⟩
    exact (trimValues_baseOf (ha.normal _ hn).1 hm).symm
  both_self _ _ _ _ v _ := meet_of_iff (met_some.trans and_self_iff.symm)

section Law

variable {r : Option SchemaId} {P : Json → Prop}

/-- The normal form of a schema without combinators means the same. -/
theorem met_form (ht : t.Lawful (partsLaw rd)) (hm : (t.schema x).members = [])
    (hx : t.progress.get? x = some (.done r)) : Met rd t r v ↔ Accepts rd t x v := by
  obtain ⟨hsome, hnone⟩ := ht.forms x r hx hm
  rw [accepts_iff_fulfils hm]
  cases r with
  | none => exact ⟨fun h => absurd h not_met_none, fun h => absurd h.own (hnone rfl v)⟩
  | some n =>
      have hmn := (ht.plain x n hx hm).1
      rw [met_some, accepts_iff_fulfils hmn, hsome n rfl, fulfils_trimValues, fulfils_baseOf]

theorem accepts_form (ht : t.Lawful (partsLaw rd)) (hm : (t.schema x).members = [])
    (hx : t.progress.get? x = some (.done (some n))) : Accepts rd t n v ↔ Accepts rd t x v := by
  rw [← met_form ht hm hx, met_some]

/-- The normal forms of two schemas without combinators oppose the same child schemas. -/
theorem clashes_forms (ht : t.Lawful (partsLaw rd)) {nx ny : SchemaId}
    (hmx : (t.schema x).members = []) (hmy : (t.schema y).members = [])
    (hx : t.progress.get? x = some (.done (some nx)))
    (hy : t.progress.get? y = some (.done (some ny))) : Clashes t nx ny ↔ Clashes t x y := by
  -- a normal form has the parts of its schema, so the same children face each other
  have hparts : ∀ {z n}, (t.schema z).members = [] →
      t.progress.get? z = some (.done (some n)) → SameParts (t.schema n) (t.schema z) := by
    intro z n hm hz
    rw [(ht.forms z _ hz hm).1 n rfl]
    have htrim : SameParts (trimValues (baseOf (t.schema z))) (baseOf (t.schema z)) :=
      sameParts_trimValues
    exact ⟨htrim.items, htrim.properties, htrim.extras⟩
  have hpx := hparts hmx hx
  have hpy := hparts hmy hy
  have hfacing : ∀ c d, Facing (t.schema nx) (t.schema ny) c d ↔
      Facing (t.schema x) (t.schema y) c d :=
    fun c d => ⟨fun h => h.congr hpx hpy, fun h => h.congr hpx.symm hpy.symm⟩
  have hhead : ∀ q, t.Opposes (nx, ny) q ↔ t.Opposes (x, y) q :=
    fun q => and_congr_left fun _ => hfacing q.1 q.2
  unfold Clashes
  refine exists_congr fun q => and_congr_left fun _ => ?_
  rw [Relation.TransGen.head'_iff, Relation.TransGen.head'_iff]
  exact exists_congr fun p => and_congr_left fun _ => hhead p

theorem Joined.meet (ht : t.Lawful (partsLaw rd)) (h : Joined (partsLaw rd) t x y r)
    (hx : t.Bare x) (hy : t.Bare y) (hv : v.Distinct) :
    Meet (¬Clashes t x y) (Met rd t r v) (Accepts rd t x v) (Accepts rd t y v) := by
  have hmet : ∀ {z fz}, t.Bare z → t.progress.get? z = some (.done fz) →
      (Met rd t fz v ↔ Accepts rd t z v) := fun hz => met_form ht hz.members
  cases h with
  | left hfx =>
      refine ⟨fun h => absurd h not_met_none, fun _ hax _ => ?_⟩
      exact (hmet hx hfx).2 hax
  | right _ hfy =>
      refine ⟨fun h => absurd h not_met_none, fun _ _ hay => ?_⟩
      exact (hmet hy hfy).2 hay
  | forms hfx hfy _ _ hlaw =>
      have hbx := ht.bare_form hx hfx
      have hby := ht.bare_form hy hfy
      -- the law speaks of the normal forms, which accept what the schemas do
      refine (hlaw hbx hby v hv).congr ?_ Iff.rfl ?_ ?_
      · rw [clashes_forms ht hx.members hy.members hfx hfy]
        exact fun h => h
      · exact accepts_form ht hx.members hfx
      · exact accepts_form ht hy.members hfy

/-! ## Conjunctions of child schemas -/

variable {c d : SchemaId} {z : Option SchemaId}

/-- An operand that stands for its own form accepts what the form accepts. -/
theorem accepts_operand (ht : t.Lawful (partsLaw rd)) {nc nd : SchemaId} (hc : t.Bare c)
    (hd : t.Bare d) (hnc : t.progress.get? c = some (.done (some nc)))
    (hnd : t.progress.get? d = some (.done (some nd))) :
    Accepts rd t (if n = nc then c else if n = nd then d else n) v ↔ Accepts rd t n v := by
  split
  · next heq =>
      rw [heq]
      exact (accepts_form ht hc.members hnc).symm
  · split
    · next heq =>
        rw [heq]
        exact (accepts_form ht hd.members hnd).symm
    · exact Iff.rfl

theorem ChildJoined.meet (ht : t.Lawful (partsLaw rd)) (h : ChildJoined (partsLaw rd) t c d z)
    (hc : t.Bare c) (hd : t.Bare d) (hv : v.Distinct) :
    Meet (c ≠ d → ¬Clashes t c d) (Met rd t z v) (Accepts rd t c v) (Accepts rd t d v) := by
  cases h with
  | same heq =>
      subst heq
      exact meet_of_iff (met_some.trans and_self_iff.symm)
  | @single o ho =>
      -- a schema accepts what all its operands accept, and the union has the operands of both
      refine meet_of_iff ?_
      rw [met_some, ← accepts_of_union ht.toWellFormed, ho]
      simp
  | @putOff o ho =>
      refine meet_of_iff ?_
      have hops : t.operandsOf o = (t.operandsOf c).union (t.operandsOf d) := by
        rw [operandsOf, ho, Option.getD_some]
      rw [met_some, accepts_iff_operandsOf ht.toWellFormed, hops,
        accepts_of_union ht.toWellFormed]
  | unmatched hne hfc hfd hnone =>
      have hmetc := met_form (v := v) ht hc.members hfc
      have hmetd := met_form (v := v) ht hd.members hfd
      refine ⟨fun h => absurd h not_met_none, fun _ hac had => ?_⟩
      rcases hnone with rfl | rfl
      · exact hmetc.2 hac
      · exact hmetd.2 had
  | @joined nc nd r hne hnc hnd hj =>
      have hmeet := hj.meet ht (ht.bare_form hc hnc) (ht.bare_form hd hnd) hv
      refine hmeet.congr (fun hno => ?_) ?_ (accepts_form ht hc.members hnc)
        (accepts_form ht hd.members hnd)
      · rw [clashes_forms ht hc.members hd.members hnc hnd]
        exact hno hne
      · cases r with
        | none => exact Iff.rfl
        | some n =>
            rw [Option.map_some, met_some, met_some]
            exact (accepts_operand ht hc hd hnc hnd).symm

/-- Child schemas without a conjunction are on record. -/
theorem ChildJoined.excluded {L : Law P} (ht : t.WellFormed P) (h : ChildJoined L t c d none)
    (hc : t.Bare c) (hd : t.Bare d) : c ≠ d ∧ Excluded t c d := by
  generalize hz : none = z at h
  cases h with
  | same _ => cases hz
  | single _ => cases hz
  | putOff _ => cases hz
  | @unmatched fx _ hne hfc hfd hnone =>
      refine ⟨hne, ?_⟩
      rcases hnone with rfl | rfl
      · exact .left hfc
      · cases fx with
        | none => exact .left hfc
        | some _ => exact .right hfc hfd
  | joined hne hnc hnd hj =>
      rw [eq_comm, Option.map_eq_none_iff] at hz
      rw [hz] at hj
      have hformc := ht.form _ _ hnc
      have hformd := ht.form _ _ hnd
      -- forms are their own normal forms, so only the memo can say that there is nothing
      cases hj with
      | left hx => cases hformc.symm.trans hx
      | right _ hy => cases hformd.symm.trans hy
      | forms hx hy _ hrecord _ =>
          cases hformc.symm.trans hx
          cases hformd.symm.trans hy
          obtain ⟨hne', p, hp⟩ := hrecord rfl (ht.bare_form hc hnc) (ht.bare_form hd hnd)
          exact ⟨hne, .forms hnc hnd hne' hp⟩

/-- Child schemas that face each other, in two bare schemas. -/
theorem ChildJoined.meet_facing (ht : t.Lawful (partsLaw rd))
    (h : ChildJoined (partsLaw rd) t c d z) (hx : t.Bare x) (hy : t.Bare y)
    (hf : Facing (t.schema x) (t.schema y) c d) (hv : v.Distinct) :
    Meet (¬Clashes t x y) (Met rd t z v) (Accepts rd t c v) (Accepts rd t d v) := by
  obtain ⟨hc, hd⟩ := hf.mem_links
  refine (h.meet ht (hx.link hc) (hy.link hd) hv).congr ?_ Iff.rfl Iff.rfl Iff.rfl
  exact fun hno hne hyes => hno (clashes_of_child hf hne hyes)

/-- Facing child schemas without a conjunction are a clash. -/
theorem clashes_of_unmatched {L : Law P} (ht : t.WellFormed P) (h : ChildJoined L t c d none)
    (hx : t.Bare x) (hy : t.Bare y) (hf : Facing (t.schema x) (t.schema y) c d) :
    Clashes t x y := by
  obtain ⟨hc, hd⟩ := hf.mem_links
  obtain ⟨hne, hexcluded⟩ := h.excluded ht (hx.link hc) (hy.link hd)
  exact clashes_of_excluded hf hne hexcluded

/-! ## The parts of a conjunction -/

theorem ItemsJoined.meet (ht : t.Lawful (partsLaw rd)) {i : Option SchemaId}
    (h : ItemsJoined (partsLaw rd) t (t.schema x) (t.schema y) (some i)) (hx : t.Bare x)
    (hy : t.Bare y) (hw : w.Distinct) : Meet (¬Clashes t x y) (ItemFits rd t i w)
      (ItemFits rd t (t.schema x).items w) (ItemFits rd t (t.schema y).items w) := by
  have hsome : ∀ c, ItemFits rd t (some c) w ↔ Accepts rd t c w := fun c => by simp [ItemFits]
  have hnone : ItemFits rd t none w := by simp [ItemFits]
  generalize hr : some i = o at h
  cases h with
  | @both c d z hc hd hz =>
      obtain ⟨e, rfl, rfl⟩ := Option.map_eq_some_iff.1 hr.symm
      rw [hc, hd]
      exact (hz.meet_facing ht hx hy (.items hc hd) hw).congr (fun h => h)
        (met_some.trans (hsome e).symm) (hsome c).symm (hsome d).symm
  | one hone =>
      cases hr
      -- one side at most speaks of items
      refine meet_of_iff ?_
      rcases hone with h | h
      · rw [h, Option.none_or]
        exact (and_iff_right hnone).symm
      · rw [h, Option.or_none]
        exact (and_iff_left hnone).symm

theorem ExtrasJoined.meet (ht : t.Lawful (partsLaw rd)) {e : Option Extras}
    (h : ExtrasJoined (partsLaw rd) t (t.schema x) (t.schema y) e) (hx : t.Bare x)
    (hy : t.Bare y) (hw : w.Distinct) : Meet (¬Clashes t x y) (ExtraFits rd t e w)
      (ExtraFits rd t (t.schema x).extras w) (ExtraFits rd t (t.schema y).extras w) := by
  cases h with
  | left hfree =>
      exact meet_of_iff (and_iff_right (extraFits_of_unrestricted hfree)).symm
  | right hfree =>
      exact meet_of_iff (and_iff_left (extraFits_of_unrestricted hfree)).symm
  | closed hclosed =>
      refine ⟨fun h => absurd rfl h.1, fun _ hax hay => ?_⟩
      rcases hclosed with h | h
      · exact absurd hax (not_extraFits_of_isClosed h)
      · exact absurd hay (not_extraFits_of_isClosed h)
  | @both c d z hc hd hz =>
      rw [hc, hd]
      refine (hz.meet_facing ht hx hy (.extras hc hd) hw).congr (fun h => h) ?_
        extraFits_matching.symm extraFits_matching.symm
      cases z with
      | none => exact ⟨fun h => absurd h not_met_none, fun h => absurd rfl h.1⟩
      | some e => exact met_some.trans extraFits_matching.symm

/-- Where a side is closed, so is the conjunction. -/
theorem ExtrasJoined.isClosed {L : Law P} {e : Option Extras} (h : ExtrasJoined L t s₁ s₂ e)
    (hclosed : isClosed s₁ = true ∨ isClosed s₂ = true) : e = some (.allowed false) := by
  have heq : ∀ {s : Schema}, Arena.isClosed s = true → s.extras = some (.allowed false) :=
    fun h => eq_of_beq h
  cases h with
  | left hfree =>
      refine heq (hclosed.resolve_left fun h => ?_)
      rcases hfree with hfree | hfree <;> cases (heq h).symm.trans hfree
  | right hfree =>
      refine heq (hclosed.resolve_right fun h => ?_)
      rcases hfree with hfree | hfree <;> cases (heq h).symm.trans hfree
  | closed _ => rfl
  | both hc hd _ =>
      rcases hclosed with h | h
      · cases (heq h).symm.trans hc
      · cases (heq h).symm.trans hd

theorem PropertyJoined.meet (ht : t.Lawful (partsLaw rd))
    (h : PropertyJoined (partsLaw rd) t (t.schema x) (t.schema y) k (some c)) (hx : t.Bare x)
    (hy : t.Bare y) (hk : k ∈ mergedKeys (t.schema x) (t.schema y)) (hw : w.Distinct) :
    Meet (¬Clashes t x y) (Accepts rd t c w) (FieldFits rd t (t.schema x) k w)
      (FieldFits rd t (t.schema y) k w) := by
  obtain ⟨-, hclosed₁, hclosed₂⟩ := mem_mergedKeys.1 hk
  -- a side that does not name a merged key is not closed
  have hopen : ∀ {s : Schema}, (Arena.isClosed s = true → s.properties.contains k = true) →
      s.properties.get? k = none → extraSchema? s = none → FieldFits rd t s k w := by
    intro s hs hnone hextra
    rw [fieldFits_of_not_named hnone]
    refine ⟨fun h => ?_, fun c hc => ?_⟩
    · have hcontains := hs (by simp [Arena.isClosed, h])
      simp [Dict.contains, hnone] at hcontains
    · cases hextra.symm.trans (extraSchema?_eq_some.2 hc)
  have hextra : ∀ {s : Schema} {e}, s.properties.get? k = none → s.extras = some (.matching e) →
      (FieldFits rd t s k w ↔ Accepts rd t e w) := by
    intro s e hnone he
    rw [fieldFits_of_not_named hnone, he, extraFits_matching]
  -- the sides speak of the property by its name or by their schemas for further properties
  generalize hr : some c = r at h
  cases h with
  | both ha hb hj =>
      subst hr
      exact (hj.meet_facing ht hx hy (.property ha hb) hw).congr (fun h => h) met_some
        (fieldFits_of_named ha).symm (fieldFits_of_named hb).symm
  | leftExtra ha hb he hj =>
      subst hr
      exact (hj.meet_facing ht hx hy (.leftExtra ha hb he) hw).congr (fun h => h) met_some
        (fieldFits_of_named ha).symm (hextra hb he).symm
  | left ha hb he =>
      cases hr
      exact meet_of_iff ((fieldFits_of_named ha).symm.trans
        (and_iff_left (hopen hclosed₂ hb he)).symm)
  | rightExtra ha hb he hj =>
      subst hr
      exact (hj.meet_facing ht hx hy (.rightExtra ha he hb) hw).congr (fun h => h) met_some
        (hextra ha he).symm (fieldFits_of_named hb).symm
  | right ha hb he =>
      cases hr
      exact meet_of_iff ((fieldFits_of_named hb).symm.trans
        (and_iff_right (hopen hclosed₁ ha he)).symm)

/-- What a conjunction asks of a property is what both sides ask of it. -/
theorem fieldFits_meet (ht : t.Lawful (partsLaw rd)) {own : Schema}
    (he : ExtrasJoined (partsLaw rd) t (t.schema x) (t.schema y) own.extras)
    (hd : PropertiesJoined (partsLaw rd) t (t.schema x) (t.schema y)
      (mergedKeys (t.schema x) (t.schema y)) .empty (some own.properties))
    (hx : t.Bare x) (hy : t.Bare y) (hw : w.Distinct) :
    Meet (¬Clashes t x y) (FieldFits rd t own k w) (FieldFits rd t (t.schema x) k w)
      (FieldFits rd t (t.schema y) k w) := by
  by_cases hk : k ∈ mergedKeys (t.schema x) (t.schema y)
  · obtain ⟨c, hc, hj⟩ := hd.named hk
    exact (hj.meet ht hx hy hk hw).congr (fun h => h) (fieldFits_of_named hc).symm Iff.rfl Iff.rfl
  -- the key is not among the merged ones
  have hown : own.properties.get? k = none := hd.unnamed hk
  have hunnamed : ∀ {s : Schema}, s.properties.contains k = false →
      s.properties.get? k = none := fun h => by simpa [Dict.contains] using h
  have hclosed : ∀ {s : Schema}, isClosed s = true → s.properties.contains k = false →
      ¬FieldFits rd t s k w := by
    intro s hs hnone hfits
    exact not_extraFits_of_isClosed hs ((fieldFits_of_not_named (hunnamed hnone)).1 hfits)
  rw [mem_mergedKeys] at hk
  by_cases hbarred : (isClosed (t.schema x) = true ∧ (t.schema x).properties.contains k = false) ∨
      (isClosed (t.schema y) = true ∧ (t.schema y).properties.contains k = false)
  · -- one side bars the property, and so does the conjunction
    refine ⟨fun hfits => ?_, fun _ hax hay => ?_⟩
    · have hextras := he.isClosed (hbarred.imp And.left And.left)
      exact absurd hextras ((fieldFits_of_not_named hown).1 hfits).1
    · rcases hbarred with ⟨hc, hn⟩ | ⟨hc, hn⟩
      · exact absurd hax (hclosed hc hn)
      · exact absurd hay (hclosed hc hn)
  · -- neither side names the property
    have hx' : (t.schema x).properties.contains k = false := by grind
    have hy' : (t.schema y).properties.contains k = false := by grind
    exact (he.meet ht hx hy hw).congr (fun h => h) (fieldFits_of_not_named hown).symm
      (fieldFits_of_not_named (hunnamed hx')).symm (fieldFits_of_not_named (hunnamed hy')).symm

theorem OwnJoined.meet (ht : t.Lawful (partsLaw rd)) {own : Schema}
    (h : OwnJoined (partsLaw rd) t (t.schema x) (t.schema y) own) (hx : t.Bare x)
    (hy : t.Bare y) (hv : v.Distinct) :
    Meet (¬Clashes t x y) (Fulfils rd t own v) (Fulfils rd t (t.schema x) v)
      (Fulfils rd t (t.schema y) v) := by
  cases h with
  | @mk kw i e d hk hi he hd =>
      have hadmits : Schema.Admits rd ({ kw with
          items := i, extras := e, properties := d } : Schema) v ↔
          (t.schema x).Admits rd v ∧ (t.schema y).Admits rd v :=
        Iff.trans ⟨fun h => { h with }, fun h => { h with }⟩
          (hk.admits_iff (ht.proper x) (ht.proper y) hv)
      have hitem : ∀ xs, v = .arr xs → ∀ w ∈ xs, Meet (¬Clashes t x y) (ItemFits rd t i w)
          (ItemFits rd t (t.schema x).items w) (ItemFits rd t (t.schema y).items w) := by
        rintro xs rfl w hw
        exact hi.meet ht hx hy (hv.item w hw)
      have hfield : ∀ fs k w, v = .obj fs → fs.lookup k = some w → Meet (¬Clashes t x y)
          (FieldFits rd t { kw with items := i, extras := e, properties := d } k w)
          (FieldFits rd t (t.schema x) k w) (FieldFits rd t (t.schema y) k w) := by
        rintro fs k w rfl hw
        exact fieldFits_meet ht he hd hx hy (hv.field hw)
      -- the demands on the whole value, on its items and on its fields, each on its own
      constructor
      · intro h
        obtain ⟨hax, hay⟩ := hadmits.1 h.own
        exact ⟨⟨hax, fun xs hv w hw => ((hitem xs hv w hw).sound (h.items xs hv w hw)).1,
            fun fs k w hv hw => ((hfield fs k w hv hw).sound (h.fields fs k w hv hw)).1⟩,
          ⟨hay, fun xs hv w hw => ((hitem xs hv w hw).sound (h.items xs hv w hw)).2,
            fun fs k w hv hw => ((hfield fs k w hv hw).sound (h.fields fs k w hv hw)).2⟩⟩
      · intro hno hfx hfy
        exact ⟨hadmits.2 ⟨hfx.own, hfy.own⟩,
          fun xs hv w hw => (hitem xs hv w hw).complete hno (hfx.items xs hv w hw)
            (hfy.items xs hv w hw),
          fun fs k w hv hw => (hfield fs k w hv hw).complete hno (hfx.fields fs k w hv hw)
            (hfy.fields fs k w hv hw)⟩

/-- What is kept of the demands of a conjunction means what they mean. -/
theorem met_reused (ht : t.Lawful (partsLaw rd)) {out : Schema} (h : Reused t x y out r)
    (hx : t.Bare x) (hy : t.Bare y) (hout : out.Proper Json.Distinct t.next)
    (hm : out.members = []) : Met rd t r v ↔ Fulfils rd t out v := by
  cases h with
  | left hsame =>
      rw [met_some, accepts_iff_fulfils hx.members,
        fulfils_of_sameDemands hsame hout (ht.proper x)]
  | right hsame =>
      rw [met_some, accepts_iff_fulfils hy.members,
        fulfils_of_sameDemands hsame hout (ht.proper y)]
  | stored hs =>
      -- values that the kinds rule out were dropped before the store
      rw [← fulfils_trimValues]
      cases hs with
      | bottom hbottom =>
          exact ⟨fun h => absurd h not_met_none,
            fun h => absurd h.own (not_admits_of_isBottom hbottom)⟩
      | @stored n _ _ hn =>
          have hmn : (t.schema n).members = [] := by rw [hn, members_trimValues, hm]
          rw [met_some, accepts_iff_fulfils hmn, hn]

/-- Where items have no conjunction, facing child schemas have none. -/
theorem ItemsJoined.facing {L : Law P} (h : ItemsJoined L t s₁ s₂ none) :
    ∃ c d, Facing s₁ s₂ c d ∧ ChildJoined L t c d none := by
  generalize hr : (none : Option (Option SchemaId)) = o at h
  cases h with
  | @both c d z hc hd hz =>
      rw [eq_comm, Option.map_eq_none_iff] at hr
      exact ⟨c, d, .items hc hd, hr ▸ hz⟩
  | one _ => cases hr

theorem PropertyJoined.facing {L : Law P} (h : PropertyJoined L t s₁ s₂ k none) :
    ∃ c d, Facing s₁ s₂ c d ∧ ChildJoined L t c d none := by
  generalize hr : (none : Option SchemaId) = o at h
  cases h with
  | both hc hd hj => exact ⟨_, _, .property hc hd, hr ▸ hj⟩
  | leftExtra hc hk hd hj => exact ⟨_, _, .leftExtra hc hk hd, hr ▸ hj⟩
  | left _ _ _ => cases hr
  | rightExtra hk hd hc hj => exact ⟨_, _, .rightExtra hk hc hd, hr ▸ hj⟩
  | right _ _ _ => cases hr

theorem BothJoined.meet (ht : t.Lawful (partsLaw rd)) (h : BothJoined (partsLaw rd) t x y r)
    (hx : t.Bare x) (hy : t.Bare y) (hv : v.Distinct) :
    Meet (¬Clashes t x y) (Met rd t r v) (Accepts rd t x v) (Accepts rd t y v) := by
  have hnone : ∀ {z}, t.Bare z → (t.schema z).anyOf = [] := by
    intro z hz
    have hempty := hz.members
    simp only [Schema.members, List.append_eq_nil_iff] at hempty
    exact hempty.1.2
  have hfree : ∀ {z}, t.Bare z → (t.schema z).isUnconstrained = true → Accepts rd t z v := by
    intro z hz hunconstrained
    rw [accepts_iff_fulfils hz.members]
    exact fulfils_of_isUnconstrained hunconstrained (ht.proper z)
  have hclash : (∃ c d, Facing (t.schema x) (t.schema y) c d ∧
      ChildJoined (partsLaw rd) t c d none) →
      Meet (¬Clashes t x y) (Met rd t none v) (Accepts rd t x v) (Accepts rd t y v) := by
    rintro ⟨c, d, hf, hj⟩
    refine ⟨fun h => absurd h not_met_none, fun hno _ _ => ?_⟩
    exact absurd (clashes_of_unmatched ht.toWellFormed hj hx hy hf) hno
  cases h with
  | rightFree h => exact meet_of_iff (met_some.trans (and_iff_left (hfree hy h)).symm)
  | leftFree h => exact meet_of_iff (met_some.trans (and_iff_right (hfree hx h)).symm)
  | itemsClash h => exact hclash h.facing
  | propertyClash _ h => exact hclash h.facing
  | @plain own _ hown _ _ hr =>
      have hproper : ({ own with anyOf := [] } : Schema).Proper Json.Distinct t.next :=
        hown.proper ht.toWellFormed (ht.proper x) (ht.proper y) (by simp)
      rw [← hown.anyOf] at hproper
      exact (hown.meet ht hx hy hv).congr (fun h => h)
        (met_reused ht hr hx hy hproper hown.members).symm
        (accepts_iff_fulfils hx.members).symm (accepts_iff_fulfils hy.members).symm
  -- bare schemas have no alternatives
  | noBranch hany _ => exact absurd (hnone hx) (hany.resolve_right fun h => h (hnone hy))
  | oneBranch hany _ => exact absurd (hnone hx) (hany.resolve_right fun h => h (hnone hy))
  | branches hany _ _ _ _ =>
      exact absurd (hnone hx) (hany.resolve_right fun h => h (hnone hy))

theorem FormJoined.parts {L : Law P} (h : FormJoined L t s r) (hm : s.members = []) :
    (∀ n, r = some n → t.schema n = trimValues (baseOf s)) ∧
      (r = none → ∀ v, ¬s.Admits rd v) := by
  refine ⟨fun n hn => (hn ▸ h).plain hm, ?_⟩
  rintro rfl v hadmits
  rcases h.stored hm with ⟨hbottom, -⟩ | hstored
  · exact not_admits_of_isBottom hbottom hadmits
  · cases hstored with
    | bottom hbottom =>
        exact not_admits_of_isBottom hbottom (admits_trimValues.2 (admits_baseOf.2 hadmits))

theorem upheld_partsLaw (rd : Reading) : Upheld (partsLaw rd) where
  form _ _ h := h.parts
  both ht _ _ _ h := fun hx hy _ hv => h.meet ht hx hy hv

end Law

end ApiModel.Arena
