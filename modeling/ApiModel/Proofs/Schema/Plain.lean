/-
  ApiModel.Proofs.Schema.Plain

  The algebra preserves the meaning of schemas that speak for no parts of a value. The normal form of
  such a schema accepts exactly what the schema accepts, and nothing is accepted where there is none.
  What carries the induction is that every alternative of a normal form makes the demands of the
  whole: that is why one alternative that is left over can stand for the whole.
-/
import ApiModel.Proofs.Schema.Keywords
import ApiModel.Proofs.Schema.Request

namespace ApiModel

/-- The schema says nothing about the parts of a value, except that there be no properties. -/
structure Schema.Childless (s : Schema) : Prop where
  items : s.items = none
  properties : ∀ k, s.properties.get? k = none
  extras : ∀ c, s.extras ≠ some (.matching c)

theorem Schema.Childless.not_part {s : Schema} (h : s.Childless) {v w : Json} {c : SchemaId} :
    ¬s.Part v c w := by
  intro hpart
  cases hpart with
  | item _ hc _ => simp [h.items] at hc
  | property _ hc _ => simp [h.properties] at hc
  | extra _ _ hc _ => exact h.extras c hc

/-- A schema that names no property and bars others allows what has no field. -/
theorem Schema.Childless.allows_iff {s : Schema} (h : s.Childless) {v : Json} : s.Allows v ↔
    (s.extras = some (.allowed false) → ∀ fs k w, v = .obj fs → fs.lookup k ≠ some w) := by
  simp [Schema.Allows, h.properties]

namespace Arena

variable {rd : Reading} {a b t : Arena} {id x y n : SchemaId} {v : Json} {s : Schema}

/-- What a childless schema says of a value itself. -/
def Bears (rd : Reading) (s : Schema) (v : Json) : Prop := s.Admits rd v ∧ s.Allows v

/-- A childless schema that combines childless ones, without a cycle; the alternatives of a normal
    form make the demands of the whole. -/
inductive Plain (rd : Reading) (a : Arena) : SchemaId → Prop
  | intro {id : SchemaId} (childless : (a.schema id).Childless)
      (members : ∀ c ∈ (a.schema id).members, Plain rd a c)
      (carries : a.IsForm id → ∀ c ∈ (a.schema id).anyOf, ∀ v, v.Distinct →
        Accepts rd a c v → Bears rd (a.schema id) v) : Plain rd a id

theorem Plain.childless (h : Plain rd a id) : (a.schema id).Childless := by
  cases h with
  | intro h _ _ => exact h

theorem Plain.member (h : Plain rd a id) {c : SchemaId} (hc : c ∈ (a.schema id).members) :
    Plain rd a c := by
  cases h with
  | intro _ h _ => exact h c hc

theorem Plain.carries (h : Plain rd a id) (hid : a.IsForm id) {c : SchemaId}
    (hc : c ∈ (a.schema id).anyOf) (hv : v.Distinct) (hacc : Accepts rd a c v) :
    Bears rd (a.schema id) v := by
  cases h with
  | intro _ _ h => exact h hid c hc v hv hacc

/-- A plain schema accepts what bears its own demands and those of its members. -/
theorem Plain.accepts_iff (h : Plain rd a id) : Accepts rd a id v ↔
    Bears rd (a.schema id) v ∧ (∀ c ∈ (a.schema id).allOf, Accepts rd a c v) ∧
      ((a.schema id).anyOf ≠ [] → AnyAccepts rd a (a.schema id).anyOf v) ∧
      ((a.schema id).oneOf ≠ [] → AnyAccepts rd a (a.schema id).oneOf v) := by
  rw [Arena.accepts_iff]
  constructor
  · rintro ⟨own, allows, -, hrest⟩
    exact ⟨⟨own, allows⟩, hrest⟩
  · rintro ⟨⟨own, allows⟩, hrest⟩
    exact ⟨own, allows, fun c w hpart => absurd hpart h.childless.not_part, hrest⟩

/-! ## Growth -/

theorem plain_of_grows {P : Json → Prop} (ha : a.WellFormed P) (h : Grows a b)
    (hid : id < a.next) (hplain : Plain rd a id) : Plain rd b id := by
  induction hplain with
  | @intro id childless members carries ih =>
      have hs := h.schema id hid
      have hlt : ∀ c ∈ (a.schema id).members, c < a.next := fun c hc =>
        (ha.proper id).links c (Schema.mem_links_of_member hc)
      refine .intro (hs ▸ childless) ?_ ?_
      · rw [hs]
        exact fun c hc => ih c hc (hlt c hc)
      · rw [hs]
        intro hform c hc v hv hacc
        have hc' := hlt c (by simp [Schema.members, hc])
        exact carries (h.isForm id hid hform) c hc v hv ((h.accepts_iff ha hc').1 hacc)

theorem plain_of_grown {P : Json → Prop} (ha : a.WellFormed P) (h : Grows a b)
    (hid : id < a.next) (hplain : Plain rd b id) : Plain rd a id := by
  induction hplain with
  | @intro id childless members carries ih =>
      have hs := h.schema id hid
      rw [hs] at childless members carries ih
      have hlt : ∀ c ∈ (a.schema id).members, c < a.next := fun c hc =>
        (ha.proper id).links c (Schema.mem_links_of_member hc)
      refine .intro childless (fun c hc => ih c hc (hlt c hc)) ?_
      intro hform c hc v hv hacc
      have hc' := hlt c (by simp [Schema.members, hc])
      exact carries (h.form hform) c hc v hv ((h.accepts_iff ha hc').2 hacc)

/-- An answer that names a plain schema with a given meaning, or none where nothing is meant. -/
structure Means (rd : Reading) (a : Arena) (r : Option SchemaId) (p : Json → Prop) : Prop where
  plain : ∀ n, r = some n → Plain rd a n
  iff : ∀ v, v.Distinct → (Met rd a r v ↔ p v)

theorem Means.mono {P : Json → Prop} {r : Option SchemaId} {p q : Json → Prop}
    (hm : Means rd a r p) (ha : a.WellFormed P) (h : Grows a b)
    (hr : ∀ n, r = some n → a.IsForm n) (hpq : ∀ v, p v ↔ q v) : Means rd b r q where
  plain n hn := plain_of_grows ha h (ha.isForm_lt (hr n hn)) (hm.plain n hn)
  iff v hv := by
    rw [← hpq v, ← hm.iff v hv]
    cases r with
    | none => simp
    | some n => simp only [met_some, h.accepts_iff ha (ha.isForm_lt (hr n rfl))]

theorem Means.congr {r : Option SchemaId} {p q : Json → Prop} (hm : Means rd a r p)
    (hpq : ∀ v, v.Distinct → (p v ↔ q v)) : Means rd a r q where
  plain := hm.plain
  iff v hv := (hm.iff v hv).trans (hpq v hv)

theorem means_none {p : Json → Prop} (hp : ∀ v, v.Distinct → ¬p v) : Means rd a none p where
  plain _ h := by cases h
  iff v hv := by simp [hp v hv]

theorem Means.accepts_iff {p : Json → Prop} (h : Means rd a (some n) p) (hv : v.Distinct) :
    Accepts rd a n v ↔ p v := by
  rw [← h.iff v hv, met_some]

theorem Means.not_of_none {p : Json → Prop} (h : Means rd a none p) (hv : v.Distinct) : ¬p v :=
  fun hp => not_met_none ((h.iff v hv).2 hp)

theorem means_self (h : Plain rd a n) : Means rd a (some n) (Accepts rd a n) where
  plain := by rintro _ ⟨⟩; exact h
  iff v _ := met_some

/-! ## The law -/

/-- On plain schemas a normal form means what the schema means, and a conjunction what both sides
    mean. -/
def plainLaw (rd : Reading) : Law Json.Distinct where
  form a id r := Plain rd a id → Means rd a r (Accepts rd a id)
  both a x y r := Plain rd a x → Plain rd a y →
    Means rd a r fun v => Accepts rd a x v ∧ Accepts rd a y v
  form_mono ha _ h hid hr hlaw hplain :=
    (hlaw (plain_of_grown ha h hid hplain)).mono ha h hr fun _ => (h.accepts_iff ha hid).symm
  both_mono ha _ h hx hy hr hlaw hpx hpy := by
    have hx := ha.isForm_lt hx
    have hy := ha.isForm_lt hy
    refine (hlaw (plain_of_grown ha h hx hpx) (plain_of_grown ha h hy hpy)).mono ha h hr ?_
    exact fun _ => and_congr (h.accepts_iff ha hx).symm (h.accepts_iff ha hy).symm
  form_self _ _ hplain := means_self hplain
  both_self _ _ hplain _ := (means_self hplain).congr fun _ _ => (and_self_iff).symm

/-! ## Conjunctions of schemas -/

section Law

variable {r : Option SchemaId}

theorem Joined.means (ht : t.Lawful (plainLaw rd)) (h : Joined (plainLaw rd) t x y r)
    (hx : Plain rd t x) (hy : Plain rd t y) :
    Means rd t r fun v => Accepts rd t x v ∧ Accepts rd t y v := by
  cases h with
  | left hfx =>
      exact means_none fun v hv hacc => (ht.forms x none hfx hx).not_of_none hv hacc.1
  | right _ hfy =>
      exact means_none fun v hv hacc => (ht.forms y none hfy hy).not_of_none hv hacc.2
  | forms hfx hfy _ _ hlaw =>
      have hmx := ht.forms x _ hfx hx
      have hmy := ht.forms y _ hfy hy
      refine (hlaw (hmx.plain _ rfl) (hmy.plain _ rfl)).congr fun v hv => ?_
      rw [hmx.accepts_iff hv, hmy.accepts_iff hv]

/-- A value is accepted by a surviving pair exactly when each list has a schema that accepts it. -/
theorem Crossed.means (ht : t.Lawful (plainLaw rd)) {left right bs : List SchemaId}
    (h : Crossed (plainLaw rd) t left right bs) (hl : ∀ l ∈ left, Plain rd t l)
    (hr : ∀ r ∈ right, Plain rd t r) : (∀ c ∈ bs, Plain rd t c) ∧ ∀ v, v.Distinct →
      (AnyAccepts rd t bs v ↔ AnyAccepts rd t left v ∧ AnyAccepts rd t right v) := by
  refine ⟨fun c hc => ?_, fun v hv => ⟨?_, ?_⟩⟩
  · obtain ⟨l, hlm, r, hrm, hj⟩ := h.sound c hc
    exact (hj.means ht (hl l hlm) (hr r hrm)).plain c rfl
  · rintro ⟨c, hc, hacc⟩
    obtain ⟨l, hlm, r, hrm, hj⟩ := h.sound c hc
    obtain ⟨hal, har⟩ := ((hj.means ht (hl l hlm) (hr r hrm)).accepts_iff hv).1 hacc
    exact ⟨⟨l, hlm, hal⟩, r, hrm, har⟩
  · rintro ⟨⟨l, hlm, hal⟩, r, hrm, har⟩
    obtain ⟨o, hj, hmem⟩ := h.complete l hlm r hrm
    obtain ⟨c, rfl, hacc⟩ := ((hj.means ht (hl l hlm) (hr r hrm)).iff v hv).2 ⟨hal, har⟩
    exact ⟨c, hmem c rfl, hacc⟩

/-- What a schema without `allOf` and `oneOf` says when it is kept as a normal form. -/
def Speaks (rd : Reading) (t : Arena) (s : Schema) (v : Json) : Prop :=
  Bears rd s v ∧ (s.anyOf ≠ [] → AnyAccepts rd t s.anyOf v)

/-- A schema that may be kept as a plain normal form. -/
structure Keepable (rd : Reading) (t : Arena) (s : Schema) : Prop where
  childless : s.Childless
  allOf : s.allOf = []
  oneOf : s.oneOf = []
  branches : ∀ c ∈ s.anyOf, Plain rd t c
  carries : ∀ c ∈ s.anyOf, ∀ v, v.Distinct → Accepts rd t c v → Bears rd s v

theorem Keepable.plain (h : Keepable rd t (t.schema n)) : Plain rd t n :=
  .intro h.childless (fun c hc => h.branches c (by
    simpa [Schema.members, h.allOf, h.oneOf] using hc)) fun _ => h.carries

theorem Keepable.accepts_iff (h : Keepable rd t (t.schema n)) :
    Accepts rd t n v ↔ Speaks rd t (t.schema n) v := by
  rw [h.plain.accepts_iff, h.allOf, h.oneOf]
  simp [Speaks]

theorem bears_trimValues : Bears rd (trimValues s) v ↔ Bears rd s v := by
  refine and_congr admits_trimValues ?_
  obtain ⟨vs, hvs, -⟩ := trimValues_eq s
  rw [hvs]
  exact Iff.rfl

theorem Keepable.trim (h : Keepable rd t s) : Keepable rd t (trimValues s) := by
  have hbears : ∀ v, Bears rd (trimValues s) v ↔ Bears rd s v := fun _ => bears_trimValues
  obtain ⟨vs, hvs, -⟩ := trimValues_eq s
  rw [hvs] at hbears ⊢
  exact ⟨⟨h.childless.items, h.childless.properties, h.childless.extras⟩, h.allOf, h.oneOf,
    h.branches, fun c hc v hv hacc => (hbears v).2 (h.carries c hc v hv hacc)⟩

theorem speaks_trimValues : Speaks rd t (trimValues s) v ↔ Speaks rd t s v := by
  refine and_congr bears_trimValues ?_
  obtain ⟨vs, hvs, -⟩ := trimValues_eq s
  rw [hvs]

theorem Stored.means (h : Stored t s r) (hs : Keepable rd t s) :
    Means rd t r (Speaks rd t s) := by
  cases h with
  | bottom hbottom =>
      refine means_none fun v _ hspeaks => ?_
      exact not_admits_of_isBottom hbottom (speaks_trimValues.2 hspeaks).1.1
  | @stored n _ _ hn =>
      have htrim := hs.trim
      rw [← hn] at htrim
      refine ⟨by rintro _ ⟨⟩; exact htrim.plain, fun v _ => ?_⟩
      rw [met_some, htrim.accepts_iff, hn, speaks_trimValues]

/-- A schema with the same demands means the same. -/
theorem speaks_of_sameDemands {P : Nat} {s₁ s₂ : Schema} (h : s₁.sameDemands s₂ = true)
    (h₁ : s₁.Proper Json.Distinct P) (h₂ : s₂.Proper Json.Distinct P) :
    Speaks rd t s₁ v ↔ Speaks rd t s₂ v := by
  have hshape := sameShape_of_sameDemands h h₁.keys
  unfold Speaks Bears Schema.Allows
  rw [admits_of_sameDemands h h₁ h₂, hshape.extras, hshape.anyOf]
  simp only [hshape.properties]

/-! ## Normal forms of schemas -/

theorem AllJoined.means (ht : t.Lawful (plainLaw rd)) {own : SchemaId} {ms : List SchemaId}
    (h : AllJoined (plainLaw rd) t own ms r) (hown : Plain rd t own)
    (hms : ∀ m ∈ ms, Plain rd t m) :
    Means rd t r fun v => Accepts rd t own v ∧ ∀ m ∈ ms, Accepts rd t m v := by
  -- induction on the members that are left; `own` stands for those conjoined so far
  induction h with
  | nil => exact (means_self hown).congr fun _ _ => by simp
  | clash hj =>
      refine means_none fun v hv hacc => ?_
      exact (hj.means ht hown (hms _ (by simp))).not_of_none hv ⟨hacc.1, hacc.2 _ (by simp)⟩
  | cons hj _ ih =>
      have hm := hj.means ht hown (hms _ (by simp))
      refine (ih (hm.plain _ rfl) fun m hm => hms m (by simp [hm])).congr fun v hv => ?_
      rw [hm.accepts_iff hv]
      simp [and_assoc]

/-- Branches that all demand what `own` demands stand for a schema with these demands. -/
theorem Gathered.means (ht : t.WellFormed Json.Distinct) {own : SchemaId} {bs : List SchemaId}
    (h : Gathered t s own bs r) (hform : t.IsForm own) (hown : Plain rd t own)
    (hbs : ∀ c ∈ bs, Plain rd t c)
    (hcarry : ∀ c ∈ bs, ∀ v, v.Distinct → Accepts rd t c v → Accepts rd t own v) :
    Means rd t r (AnyAccepts rd t bs) := by
  cases h with
  | none hnil =>
      refine means_none fun v _ hany => ?_
      obtain ⟨c, hc, -⟩ := hany
      rw [hnil] at hc
      cases hc
  | one hone =>
      subst hone
      exact (means_self (hbs _ (by simp))).congr fun v _ => by simp [AnyAccepts]
  | many hlen hs =>
      -- the branches carry the demands of `own` themselves, so one may stand alone
      have hbears : ∀ v, Bears rd ({ t.schema own with
          pointer := s.pointer, anyOf := bs } : Schema) v ↔ Bears rd (t.schema own) v :=
        fun v => and_congr ⟨fun h => { h with }, fun h => { h with }⟩ Iff.rfl
      have hcarries : ∀ c ∈ bs, ∀ v, v.Distinct → Accepts rd t c v →
          Bears rd (t.schema own) v :=
        fun c hc v hv hacc => (hown.accepts_iff.1 (hcarry c hc v hv hacc)).1
      refine (hs.means ⟨⟨hown.childless.items, hown.childless.properties,
        hown.childless.extras⟩, (ht.normal own hform).1.allOf, (ht.normal own hform).1.oneOf,
        hbs, fun c hc v hv hacc => (hbears v).2 (hcarries c hc v hv hacc)⟩).congr fun v hv => ?_
      constructor
      · exact fun hspeaks => hspeaks.2 (List.ne_nil_of_length_pos (Nat.lt_of_lt_of_le
          Nat.zero_lt_two hlen))
      · rintro ⟨c, hc, hacc⟩
        exact ⟨(hbears v).2 (hcarries c hc v hv hacc), fun _ => ⟨c, hc, hacc⟩⟩

theorem AlternativesJoined.means (ht : t.Lawful (plainLaw rd)) {own : SchemaId}
    (h : AlternativesJoined (plainLaw rd) t s own r) (hform : t.IsForm own)
    (hown : Plain rd t own) (hms : ∀ m ∈ s.members, Plain rd t m) :
    Means rd t r fun v => Accepts rd t own v ∧
      (s.anyOf ≠ [] → AnyAccepts rd t s.anyOf v) ∧
      (s.oneOf ≠ [] → AnyAccepts rd t s.oneOf v) := by
  have hany : ∀ m ∈ s.anyOf, Plain rd t m := fun m hm => hms m (by simp [Schema.members, hm])
  have hone : ∀ m ∈ s.oneOf, Plain rd t m := fun m hm => hms m (by simp [Schema.members, hm])
  have hown' : ∀ c ∈ [own], Plain rd t c := by simpa using hown
  have hself : ∀ v, AnyAccepts rd t [own] v ↔ Accepts rd t own v := by simp [AnyAccepts]
  -- the branches come of the group that there is, or of pairs out of both; `own` is in each of them
  cases h with
  | neither ha ho => exact (means_self hown).congr fun v _ => by simp [ha, ho]
  | anyClash ha hc =>
      refine means_none fun v hv hacc => ?_
      obtain ⟨c, hc', -⟩ := ((hc.means ht hany hown').2 v hv).2 ⟨hacc.2.1 ha, (hself v).2 hacc.1⟩
      cases hc'
  | oneClash ho hc =>
      refine means_none fun v hv hacc => ?_
      obtain ⟨c, hc', -⟩ := ((hc.means ht hone hown').2 v hv).2 ⟨hacc.2.2 ho, (hself v).2 hacc.1⟩
      cases hc'
  | any ha ho hc hg =>
      obtain ⟨hbs, hiff⟩ := hc.means ht hany hown'
      refine (hg.means ht.toWellFormed hform hown hbs fun c hc v hv hacc => ?_).congr
        fun v hv => ?_
      · exact (hself v).1 ((hiff v hv).1 ⟨c, hc, hacc⟩).2
      · rw [hiff v hv, hself]
        simp [ha, ho, and_comm]
  | one ha ho hc hg =>
      obtain ⟨hbs, hiff⟩ := hc.means ht hone hown'
      refine (hg.means ht.toWellFormed hform hown hbs fun c hc v hv hacc => ?_).congr
        fun v hv => ?_
      · exact (hself v).1 ((hiff v hv).1 ⟨c, hc, hacc⟩).2
      · rw [hiff v hv, hself]
        simp [ha, ho, and_comm]
  | both ha ho has hos hc hg =>
      obtain ⟨hpas, hasiff⟩ := has.means ht hany hown'
      obtain ⟨hpos, hosiff⟩ := hos.means ht hone hown'
      obtain ⟨hbs, hiff⟩ := hc.means ht hpas hpos
      refine (hg.means ht.toWellFormed hform hown hbs fun c hc v hv hacc => ?_).congr
        fun v hv => ?_
      · exact (hself v).1 ((hasiff v hv).1 ((hiff v hv).1 ⟨c, hc, hacc⟩).1).2
      · rw [hiff v hv, hasiff v hv, hosiff v hv, hself]
        simp only [ne_eq, ha, ho, not_false_eq_true, forall_const]
        constructor
        · rintro ⟨⟨h, hown⟩, h', -⟩
          exact ⟨hown, h, h'⟩
        · rintro ⟨hown, h, h'⟩
          exact ⟨⟨h, hown⟩, h', hown⟩

theorem plain_kindsAlone {p : Pointer} {ks : KindSet} : Keepable rd t (kindsAlone p ks) where
  childless := ⟨rfl, fun _ => rfl, by simp [kindsAlone, Schema.blank]⟩
  allOf := rfl
  oneOf := rfl
  branches := by simp [kindsAlone, Schema.blank]
  carries := by simp [kindsAlone, Schema.blank]

theorem speaks_kindsAlone {p : Pointer} {ks : KindSet} :
    Speaks rd t (kindsAlone p ks) v ↔ ks.accepts v = true := by
  unfold Speaks Bears
  rw [admits_kindsAlone]
  simp [kindsAlone, Schema.blank, Schema.Allows]

theorem Narrowed.means (ht : t.Lawful (plainLaw rd)) {c : SchemaId}
    (h : Narrowed (plainLaw rd) t s c r) (hc : Plain rd t c) :
    Means rd t r fun v => (∀ ks ∈ s.kinds, ks.accepts v = true) ∧ Accepts rd t c v := by
  -- with kinds of its own, the schema is the conjunction of the child and those kinds
  cases h with
  | unmatched hfc =>
      exact means_none fun v hv hacc => (ht.forms c none hfc hc).not_of_none hv hacc.2
  | anyKind hfc hk => exact (ht.forms c _ hfc hc).congr fun v _ => by simp [hk]
  | noKind hfc hk hs =>
      have hmk : Means rd t none _ := hs.means plain_kindsAlone
      exact means_none fun v hv hacc => hmk.not_of_none hv (speaks_kindsAlone.2 (hacc.1 _ hk))
  | kinds hfc hk hs hj =>
      have hmc := ht.forms c _ hfc hc
      have hmk : Means rd t (some _) _ := hs.means plain_kindsAlone
      refine (hj.means ht (hmc.plain _ rfl) (hmk.plain _ rfl)).congr fun v hv => ?_
      rw [hmc.accepts_iff hv, hmk.accepts_iff hv, speaks_kindsAlone]
      simp [hk, and_comm]

/-- A schema with a sole child admits what is of its kinds and accepted by the child. -/
theorem Plain.accepts_of_soleChild? (hs : (t.schema id).Proper Json.Distinct t.next)
    (hid : Plain rd t id) {c : SchemaId} (hc : (t.schema id).soleChild? = some c) :
    Accepts rd t id v ↔
      (∀ ks ∈ (t.schema id).kinds, ks.accepts v = true) ∧ Accepts rd t c v := by
  obtain ⟨hfree, hlists⟩ := Schema.soleChild?_spec hc
  -- apart from kinds and combinators the schema is unconstrained
  have hproper : ({ (t.schema id).withoutCombinators with kinds := none } : Schema).Proper
      Json.Distinct t.next :=
    { hs with
      links := fun x hx => (storable_baseOf (a := t) hs).proper.links x hx
      kinds := by rintro _ ⟨⟩ }
  obtain ⟨hadmits, hshape⟩ : Schema.Admits rd _ v ∧ SameShape _ _ :=
    admits_of_isUnconstrained hfree hproper
  have hbears : Bears rd (t.schema id) v ↔
      ∀ ks ∈ (t.schema id).kinds, ks.accepts v = true := by
    refine ⟨fun h => h.1.kinds, fun h => ⟨{ hadmits with kinds := h }, fun hextras => ?_⟩⟩
    cases hextras.symm.trans hshape.extras
  rw [hid.accepts_iff, hbears]
  rcases hlists with ⟨hall, hany, hone⟩ | ⟨hall, hany, hone⟩ | ⟨hall, hany, hone⟩ <;>
    simp [hall, hany, hone, AnyAccepts]

theorem FormJoined.means (ht : t.Lawful (plainLaw rd)) (hid : Plain rd t id)
    (h : FormJoined (plainLaw rd) t (t.schema id) r) : Means rd t r (Accepts rd t id) := by
  -- the demands of the schema itself, without combinators
  have hbase : Keepable rd t (baseOf (t.schema id)) :=
    ⟨⟨hid.childless.items, hid.childless.properties, hid.childless.extras⟩, rfl, rfl,
      by simp [baseOf, Schema.withoutCombinators], by simp [baseOf, Schema.withoutCombinators]⟩
  have hspeaks : ∀ v, Speaks rd t (baseOf (t.schema id)) v ↔ Bears rd (t.schema id) v := by
    intro v
    refine Iff.trans ⟨fun h => h.1, fun h => ⟨h, fun hne => absurd rfl hne⟩⟩ ?_
    exact and_congr admits_baseOf Iff.rfl
  have hall : ∀ m ∈ (t.schema id).allOf, Plain rd t m :=
    fun m hm => hid.member (by simp [Schema.members, hm])
  cases h with
  | bottom hbottom =>
      exact means_none fun v _ hacc => not_admits_of_isBottom hbottom (hid.accepts_iff.1 hacc).1.1
  | narrowed hc hr =>
      have hplain := hid.member (Schema.mem_members_of_soleChild? hc)
      exact (hr.means ht hplain).congr fun v _ => (hid.accepts_of_soleChild? (ht.proper id) hc).symm
  | noBase _ hs =>
      have hm : Means rd t none _ := hs.means hbase
      exact means_none fun v hv hacc =>
        hm.not_of_none hv ((hspeaks v).2 (hid.accepts_iff.1 hacc).1)
  | allClash _ hs hj =>
      have hm := hs.means hbase
      refine means_none fun v hv hacc => ?_
      obtain ⟨hown, hms, -⟩ := hid.accepts_iff.1 hacc
      refine (hj.means ht (hm.plain _ rfl) hall).not_of_none hv ⟨?_, hms⟩
      exact (hm.accepts_iff hv).2 ((hspeaks v).2 hown)
  -- the base, then the members of `allOf`, then the alternatives
  | alternatives _ hs hj halt =>
      have hm := hs.means hbase
      have hown := hj.means ht (hm.plain _ rfl) hall
      refine (halt.means ht (hj.isForm hs.isForm) (hown.plain _ rfl) fun m => hid.member).congr
        fun v hv => ?_
      rw [hown.accepts_iff hv, hm.accepts_iff hv, hspeaks, hid.accepts_iff, and_assoc]

/-! ## Conjunctions of normal forms -/

theorem isClosed_iff : isClosed s = true ↔ s.extras = some (.allowed false) :=
  ⟨eq_of_beq, fun h => by simp [isClosed, h]⟩

/-- Without schemas for further properties these are barred where either side bars them. -/
theorem ExtrasJoined.barred {P : Json → Prop} {L : Law P} {s₁ s₂ : Schema} {e : Option Extras}
    (h : ExtrasJoined L t s₁ s₂ e) (h₁ : s₁.Childless) (h₂ : s₂.Childless) :
    (∀ c, e ≠ some (.matching c)) ∧ (e = some (.allowed false) ↔
      s₁.extras = some (.allowed false) ∨ s₂.extras = some (.allowed false)) := by
  cases h with
  | left ha =>
      refine ⟨h₂.extras, fun h => .inr h, fun h => h.resolve_left ?_⟩
      rcases ha with ha | ha <;> simp [ha]
  | right hb =>
      refine ⟨h₁.extras, fun h => .inl h, fun h => h.resolve_right ?_⟩
      rcases hb with hb | hb <;> simp [hb]
  | closed hc =>
      refine ⟨by simp, fun _ => ?_, fun _ => rfl⟩
      exact hc.imp isClosed_iff.1 isClosed_iff.1
  | both ha _ _ => exact absurd ha (h₁.extras _)

/-- The demands that a conjunction of childless schemas makes itself. -/
theorem OwnJoined.bears {L : Law Json.Distinct} {s₁ s₂ own : Schema} {bs : List SchemaId}
    (h : OwnJoined L t s₁ s₂ own) (hp₁ : s₁.Proper Json.Distinct t.next)
    (hp₂ : s₂.Proper Json.Distinct t.next) (h₁ : s₁.Childless) (h₂ : s₂.Childless) :
    ({ own with anyOf := bs } : Schema).Childless ∧ own.allOf = [] ∧ own.oneOf = [] ∧
      ∀ v, v.Distinct →
        (Bears rd { own with anyOf := bs } v ↔ Bears rd s₁ v ∧ Bears rd s₂ v) := by
  cases h with
  | @mk k i e d hk hi he hd =>
      obtain ⟨hmatching, hbarred⟩ := he.barred h₁ h₂
      -- childless sides leave nothing to conjoin below
      have hitems : i = none := by
        generalize hr : some i = r at hi
        cases hi with
        | both ha _ _ => exact absurd ha (by simp [h₁.items])
        | one _ => simpa [h₁.items, h₂.items] using hr
      have hprops : ∀ key, d.get? key = none := by
        intro key
        refine hd.unnamed fun hmem => ?_
        have hnamed := named_of_mem_mergedKeys hmem
        simp [Dict.contains, h₁.properties, h₂.properties] at hnamed
      have hchildless : ({ k with
          items := i, extras := e, properties := d, anyOf := bs } : Schema).Childless :=
        ⟨hitems, hprops, hmatching⟩
      refine ⟨hchildless, ?_, ?_, fun v hv => ?_⟩
      · obtain ⟨place, m, p, f, rfl, -, -, -⟩ := hk
        rfl
      · obtain ⟨place, m, p, f, rfl, -, -, -⟩ := hk
        rfl
      · have hadmits : Schema.Admits rd ({ k with
            items := i, extras := e, properties := d, anyOf := bs } : Schema) v ↔
            s₁.Admits rd v ∧ s₂.Admits rd v :=
          Iff.trans ⟨fun h => { h with }, fun h => { h with }⟩ (hk.admits_iff hp₁ hp₂ hv)
        have hallows : Schema.Allows ({ k with
            items := i, extras := e, properties := d, anyOf := bs } : Schema) v ↔
            s₁.Allows v ∧ s₂.Allows v := by
          rw [hchildless.allows_iff, h₁.allows_iff, h₂.allows_iff, hbarred, or_imp]
        rw [Bears, hadmits, hallows, Bears, Bears]
        exact and_and_and_comm

/-- The sides of a plain normal form accept together what it accepts. -/
theorem anyAccepts_sides (ht : t.WellFormed Json.Distinct) (hform : t.IsForm x)
    (hx : Plain rd t x) (hv : v.Distinct) : AnyAccepts rd t (t.sides x) v ↔ Accepts rd t x v := by
  unfold sides
  split
  · simp [AnyAccepts]
  next hne =>
  rw [List.isEmpty_iff] at hne
  have hnormal := (ht.normal x hform).1
  constructor
  · rintro ⟨c, hc, hacc⟩
    refine hx.accepts_iff.2 ⟨hx.carries hform hc hv hacc, ?_, fun _ => ⟨c, hc, hacc⟩, ?_⟩
    · simp [hnormal.allOf]
    · simp [hnormal.oneOf]
  · exact fun hacc => (hx.accepts_iff.1 hacc).2.2.1 hne

theorem plain_sides (hx : Plain rd t x) : ∀ c ∈ t.sides x, Plain rd t c := by
  intro c hc
  unfold sides at hc
  split at hc
  · rw [List.mem_singleton] at hc
    exact hc ▸ hx
  · exact hx.member (by simp [Schema.members, hc])

/-- A plain normal form says its own demands, and those of one of its alternatives. -/
theorem Plain.accepts_form (ht : t.WellFormed Json.Distinct) (hform : t.IsForm x)
    (hx : Plain rd t x) : Accepts rd t x v ↔ Speaks rd t (t.schema x) v := by
  have hnormal := (ht.normal x hform).1
  rw [hx.accepts_iff, hnormal.allOf, hnormal.oneOf]
  simp [Speaks]

theorem Reused.means (ht : t.WellFormed Json.Distinct) {out : Schema}
    (h : Reused t x y out r) (hfx : t.IsForm x) (hfy : t.IsForm y) (hx : Plain rd t x)
    (hy : Plain rd t y) (hout : Keepable rd t out) (hproper : out.Proper Json.Distinct t.next) :
    Means rd t r (Speaks rd t out) := by
  cases h with
  | left hsame =>
      refine (means_self hx).congr fun v _ => ?_
      rw [hx.accepts_form ht hfx, speaks_of_sameDemands hsame hproper (ht.proper x)]
  | right hsame =>
      refine (means_self hy).congr fun v _ => ?_
      rw [hy.accepts_form ht hfy, speaks_of_sameDemands hsame hproper (ht.proper y)]
  | stored hs => exact hs.means hout

/-- An unconstrained schema accepts every value. -/
theorem accepts_of_isUnconstrained (hs : (t.schema x).Proper Json.Distinct t.next)
    (hx : Plain rd t x) (hfree : (t.schema x).isUnconstrained = true) : Accepts rd t x v := by
  obtain ⟨hadmits, hshape⟩ : Schema.Admits rd _ v ∧ SameShape _ _ :=
    admits_of_isUnconstrained hfree hs
  refine hx.accepts_iff.2 ⟨⟨hadmits, fun h => ?_⟩, ?_, ?_, ?_⟩
  · cases h.symm.trans hshape.extras
  · simp [hshape.allOf, Schema.blank]
  · exact fun h => absurd hshape.anyOf h
  · exact fun h => absurd hshape.oneOf h

/-- The demands that childless sides make, with alternatives that do what both sides do, mean what
    both sides mean. -/
theorem OwnJoined.means (ht : t.Lawful (plainLaw rd)) (hfx : t.IsForm x) (hfy : t.IsForm y)
    (hx : Plain rd t x) (hy : Plain rd t y) {own : Schema} {bs : List SchemaId}
    (h : OwnJoined (plainLaw rd) t (t.schema x) (t.schema y) own)
    (hr : Reused t x y { own with anyOf := bs } r) (hforms : ∀ c ∈ bs, t.IsForm c)
    (hbs : ∀ c ∈ bs, Plain rd t c)
    (hnone : bs = [] → (t.schema x).anyOf = [] ∧ (t.schema y).anyOf = [])
    (hany : bs ≠ [] → ∀ v, v.Distinct →
      (AnyAccepts rd t bs v ↔ Accepts rd t x v ∧ Accepts rd t y v)) :
    Means rd t r fun v => Accepts rd t x v ∧ Accepts rd t y v := by
  have hpx := ht.proper x
  have hpy := ht.proper y
  obtain ⟨hchildless, hall, hone, hbears⟩ : _ ∧ _ ∧ _ ∧ ∀ v, v.Distinct →
      (Bears rd { own with anyOf := bs } v ↔ Bears rd (t.schema x) v ∧ Bears rd (t.schema y) v) :=
    h.bears hpx hpy hx.childless hy.childless
  have hax : ∀ v, Accepts rd t x v ↔ Speaks rd t (t.schema x) v :=
    fun _ => hx.accepts_form ht.toWellFormed hfx
  have hay : ∀ v, Accepts rd t y v ↔ Speaks rd t (t.schema y) v :=
    fun _ => hy.accepts_form ht.toWellFormed hfy
  -- each alternative does what both sides do, so it bears the demands of both
  have hkeep : Keepable rd t { own with anyOf := bs } := by
    refine ⟨hchildless, hall, hone, hbs, fun c hc v hv hacc => (hbears v hv).2 ?_⟩
    obtain ⟨hx, hy⟩ := (hany (List.ne_nil_of_mem hc) v hv).1 ⟨c, hc, hacc⟩
    exact ⟨((hax v).1 hx).1, ((hay v).1 hy).1⟩
  have hproper := h.proper ht.toWellFormed hpx hpy fun c hc => ht.isForm_lt (hforms c hc)
  refine (hr.means ht.toWellFormed hfx hfy hx hy hkeep hproper).congr fun v hv => ?_
  unfold Speaks
  rw [hbears v hv]
  by_cases hnil : bs = []
  · obtain ⟨hx0, hy0⟩ := hnone hnil
    simp [hax, hay, Speaks, hnil, hx0, hy0]
  · rw [← hany hnil v hv]
    refine ⟨fun h => h.2 hnil, fun h => ⟨?_, fun _ => h⟩⟩
    obtain ⟨hx, hy⟩ := (hany hnil v hv).1 h
    exact ⟨((hax v).1 hx).1, ((hay v).1 hy).1⟩

theorem BothJoined.means (ht : t.Lawful (plainLaw rd)) (hfx : t.IsForm x) (hfy : t.IsForm y)
    (hx : Plain rd t x) (hy : Plain rd t y) (h : BothJoined (plainLaw rd) t x y r) :
    Means rd t r fun v => Accepts rd t x v ∧ Accepts rd t y v := by
  have hpx := ht.proper x
  have hpy := ht.proper y
  -- the pairs of alternatives accept together what both sides accept
  have hsides : ∀ {bs}, Crossed (plainLaw rd) t (t.sides x) (t.sides y) bs →
      (∀ c ∈ bs, Plain rd t c) ∧ ∀ v, v.Distinct →
        (AnyAccepts rd t bs v ↔ Accepts rd t x v ∧ Accepts rd t y v) := by
    intro bs hc
    obtain ⟨hplain, hiff⟩ := hc.means ht (plain_sides hx) (plain_sides hy)
    refine ⟨hplain, fun v hv => ?_⟩
    rw [hiff v hv, anyAccepts_sides ht.toWellFormed hfx hx hv,
      anyAccepts_sides ht.toWellFormed hfy hy hv]
  cases h with
  | rightFree hfree =>
      refine (means_self hx).congr fun v _ => ?_
      exact (and_iff_left (accepts_of_isUnconstrained hpy hy hfree)).symm
  | leftFree hfree =>
      refine (means_self hy).congr fun v _ => ?_
      exact (and_iff_right (accepts_of_isUnconstrained hpx hx hfree)).symm
  | itemsClash hi =>
      generalize hr : (none : Option (Option SchemaId)) = r at hi
      cases hi with
      | both ha _ _ => exact absurd ha (by simp [hx.childless.items])
      | one _ => cases hr
  | propertyClash hk _ =>
      have hnamed := named_of_mem_mergedKeys hk
      simp [Dict.contains, hx.childless.properties, hy.childless.properties] at hnamed
  | @plain own _ hown hx0 hy0 hr =>
      have hr' : Reused t x y { own with anyOf := [] } r := by
        rw [← hown.anyOf]
        exact hr
      exact hown.means ht hfx hfy hx hy hr' (by simp) (by simp) (fun _ => ⟨hx0, hy0⟩)
        fun h => absurd rfl h
  | noBranch _ hc =>
      refine means_none fun v hv hacc => ?_
      obtain ⟨c, hmem, -⟩ := ((hsides hc).2 v hv).2 hacc
      cases hmem
  | oneBranch _ hc =>
      obtain ⟨hplain, hiff⟩ := hsides hc
      refine (means_self (hplain _ (by simp))).congr fun v hv => ?_
      rw [← hiff v hv]
      simp [AnyAccepts]
  | branches _ hown hc hlen hr =>
      obtain ⟨hplain, hiff⟩ := hsides hc
      have hne := List.ne_nil_of_length_pos (Nat.lt_of_lt_of_le Nat.zero_lt_two hlen)
      exact hown.means ht hfx hfy hx hy hr hc.isForm hplain (fun h => absurd h hne)
        fun _ => hiff

theorem upheld_plainLaw (rd : Reading) : Upheld (plainLaw rd) where
  form ht _ h := fun hplain => h.means ht hplain
  both ht hx hy _ h := fun hpx hpy => h.means ht hx hy hpx hpy

end Law

end Arena

end ApiModel
