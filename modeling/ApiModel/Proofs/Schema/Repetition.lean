/-
  ApiModel.Proofs.Schema.Repetition

  Repeated conjunctions. Where a conjunction is conjoined with one of its sides once more, every
  child schema meets one that it was conjoined from or was taken for it, so by the same law further
  down nothing changes, and the answer is the schema that was there. This holds for schemas that
  lead to no alternatives and nowhere spell out that further properties are allowed, as long as no
  conjunction has been put off.
-/
import ApiModel.Proofs.Schema.Inclusion
import ApiModel.Proofs.Schema.Follow
import ApiModel.Proofs.Schema.Request

namespace ApiModel

/-- The schema has no alternatives and does not spell out that further properties are allowed. -/
structure Schema.Strict (s : Schema) : Prop where
  anyOf : s.anyOf = []
  oneOf : s.oneOf = []
  extras : s.extras ≠ some (.allowed true)

namespace Arena

variable {P : Json → Prop} {L : Law P} {a b t : Arena} {x y z n c d : SchemaId}
  {s u own : Schema} {r : Option SchemaId}

/-! ## Nothing put off -/

theorem prompt_of_grows (ha : a.WellFormed P) (h : Grows a b) (hb : b.Prompt) : a.Prompt := by
  intro id
  cases hops : a.operands.get? id with
  | none => rfl
  | some os =>
      have hlater := hb id
      rw [h.operands id (ha.operands id os hops).1, hops] at hlater
      cases hlater

/-- Where nothing is put off, two child schemas that are one stay as they are. -/
theorem ChildJoined.eq_of_prompt (ht : t.Prompt) (h : ChildJoined L t c c r) : r = some c := by
  cases h with
  | same _ => rfl
  | @single d hd =>
      have hmem : c ∈ ((t.operandsOf c).union (t.operandsOf c)).elements :=
        SortedSet.mem_union.2 (.inl (by simp [operandsOf, ht c, SortedSet.singleton]))
      rw [hd, List.mem_singleton] at hmem
      rw [hmem]
  | putOff hd => cases (ht _).symm.trans hd
  | unmatched hne _ _ _ => exact absurd rfl hne
  | joined hne _ _ _ => exact absurd rfl hne

/-- Where nothing is put off, two different child schemas are conjoined by way of their forms. -/
theorem ChildJoined.of_prompt (ht : t.Prompt) (hne : c ≠ d) (h : ChildJoined L t c d r) :
    (∃ fc fd, t.progress.get? c = some (.done fc) ∧ t.progress.get? d = some (.done fd) ∧
      (fc = none ∨ fd = none) ∧ r = none) ∨
    ∃ nc nd o, t.progress.get? c = some (.done (some nc)) ∧
      t.progress.get? d = some (.done (some nd)) ∧ Joined L t nc nd o ∧
      r = o.map fun n => if n = nc then c else if n = nd then d else n := by
  cases h with
  | same heq => exact absurd heq hne
  | @single e he =>
      -- each of the two stands for itself
      have hmem : ∀ z, z = c ∨ z = d → z = e := by
        intro z hz
        have hz' : z ∈ ((t.operandsOf c).union (t.operandsOf d)).elements := by
          refine SortedSet.mem_union.2 (hz.imp ?_ ?_) <;> rintro rfl <;>
            simp [operandsOf, ht z, SortedSet.singleton]
        rwa [he, List.mem_singleton] at hz'
      exact absurd ((hmem c (.inl rfl)).trans (hmem d (.inr rfl)).symm) hne
  | putOff hd => cases (ht _).symm.trans hd
  | unmatched _ hc hd h => exact .inl ⟨_, _, hc, hd, h, rfl⟩
  | joined _ hc hd hj => exact .inr ⟨_, _, _, hc, hd, hj, rfl⟩

/-! ## Strict schemas -/

/-- Everything that the schema leads to is strict. -/
def Strict (a : Arena) (x : SchemaId) : Prop :=
  ∀ y, Relation.ReflTransGen a.Link x y → (a.schema y).Strict

theorem Strict.schema (h : a.Strict x) : (a.schema x).Strict := h x .refl

theorem Strict.link (h : a.Strict x) (hxy : a.Link x y) : a.Strict y :=
  fun _ hz => h _ (.head hxy hz)

theorem strict_of_links (hx : (a.schema x).Strict) (h : ∀ c ∈ (a.schema x).links, a.Strict c) :
    a.Strict x := by
  intro y hy
  rcases Relation.ReflTransGen.cases_head hy with rfl | ⟨c, hc, hcy⟩
  · exact hx
  · exact h c hc y hcy

theorem strict_iff (ha : a.WellFormed P) (h : Grows a b) (hx : x < a.next) :
    b.Strict x ↔ a.Strict x := by
  unfold Strict
  refine forall_congr' fun y => ?_
  rw [reach_iff ha h.schema hx y]
  refine imp_congr_right fun hy => ?_
  rw [h.schema y (ha.reach_lt hx hy)]

theorem strict_of_stored (h : Stored t s (some n)) (hs : s.Strict)
    (hlinks : ∀ c ∈ s.links, t.Strict c) : t.Strict n := by
  cases h with
  | stored _ _ hn =>
      obtain ⟨vs, hvs, -⟩ := trimValues_eq s
      refine strict_of_links ?_ fun c hc => hlinks c ?_
      · rw [hn, hvs]
        exact ⟨hs.anyOf, hs.oneOf, hs.extras⟩
      · rwa [hn, links_trimValues] at hc

theorem OwnJoined.strict (h : OwnJoined L t s u own) (hs : s.Strict) (hu : u.Strict) :
    own.Strict := by
  refine ⟨h.anyOf, ?_, ?_⟩
  · have hmembers := h.members
    simp only [Schema.members, List.append_eq_nil_iff] at hmembers
    exact hmembers.2
  · cases h with
    | mk _ _ he _ =>
        cases he with
        | left _ => exact hu.extras
        | right _ => exact hs.extras
        | closed _ => simp
        | @both _ _ o _ _ _ => cases o <;> simp

/-! ## Forms that include others -/

/-- The normal form `n` absorbs the normal form `x`: conjoined with it, `n` demands what it did, and
    so do its child schemas, however far down. -/
inductive Absorbs (a : Arena) : SchemaId → SchemaId → Prop
  | same (n : SchemaId) : Absorbs a n n
  | free {n x : SchemaId} (hn : (a.schema n).anyOf = [])
      (hx : (a.schema x).isUnconstrained = true) : Absorbs a n x
  | demands {n x : SchemaId} {R : SchemaId → SchemaId → Prop} (hn : (a.schema n).Strict)
      (hx : (a.schema x).Strict) (hwhole : Repeats (a.schema n) (a.schema x))
      (hparts : Includes R (a.schema n) (a.schema x))
      (hdone : ∀ c d, R c d → c ≠ d → ∃ fc fd, a.progress.get? c = some (.done (some fc)) ∧
        a.progress.get? d = some (.done (some fd)))
      (hforms : ∀ c d fc fd, R c d → c ≠ d → a.progress.get? c = some (.done (some fc)) →
        a.progress.get? d = some (.done (some fd)) → Absorbs a fc fd) : Absorbs a n x

theorem Absorbs.mono (ha : a.WellFormed P) (h : Grows a b) (hn : a.IsForm n) (hx : a.IsForm x)
    (habsorbs : a.Absorbs n x) : b.Absorbs n x := by
  induction habsorbs with
  | same n => exact .same n
  | free hany hfree =>
      rw [← h.schema _ (ha.isForm_lt hn)] at hany
      rw [← h.schema _ (ha.isForm_lt hx)] at hfree
      exact .free hany hfree
  | demands hsn hsx hwhole hparts hdone _ ih =>
      rw [← h.schema _ (ha.isForm_lt hn)] at hsn hwhole hparts
      rw [← h.schema _ (ha.isForm_lt hx)] at hsx hwhole hparts
      refine .demands hsn hsx hwhole hparts (fun c d hR hne => ?_) fun c d fc fd hR hne hc hd => ?_
      · obtain ⟨fc, fd, hc, hd⟩ := hdone c d hR hne
        exact ⟨fc, fd, h.done _ _ hc, h.done _ _ hd⟩
      · -- the forms of the child schemas were there before
        obtain ⟨fc', fd', hc', hd'⟩ := hdone c d hR hne
        cases hc.symm.trans (h.done _ _ hc')
        cases hd.symm.trans (h.done _ _ hd')
        exact ih c d fc fd hR hne hc' hd' (ha.form _ _ hc') (ha.form _ _ hd')

/-- The child schema `c` is `d`, or its normal form absorbs that of `d`. -/
def Meets (a : Arena) (c d : SchemaId) : Prop :=
  c = d ∨ ∃ fc fd, a.progress.get? c = some (.done (some fc)) ∧
    a.progress.get? d = some (.done (some fd)) ∧ a.Absorbs fc fd

theorem absorbs_of_meets (hn : (a.schema n).Strict) (hx : (a.schema x).Strict)
    (hwhole : Repeats (a.schema n) (a.schema x))
    (hparts : Includes a.Meets (a.schema n) (a.schema x)) : a.Absorbs n x := by
  refine .demands hn hx hwhole hparts (fun c d hmeets hne => ?_)
    fun c d fc fd hmeets hne hc hd => ?_
  · obtain ⟨fc, fd, hc, hd, -⟩ := hmeets.resolve_left hne
    exact ⟨fc, fd, hc, hd⟩
  · obtain ⟨fc', fd', hc', hd', habsorbs⟩ := hmeets.resolve_left hne
    cases hc.symm.trans hc'
    cases hd.symm.trans hd'
    exact habsorbs

/-! ## A conjunction absorbs its sides -/

/-- The normal form of a strict schema is strict, and a conjunction of strict forms absorbs both. -/
def absorption : Law Json.Distinct where
  form a id r := a.Prompt → a.Strict id → ∀ n, r = some n → a.Strict n
  both a x y r := a.Prompt → a.Strict x → a.Strict y →
    ∀ n, r = some n → a.Strict n ∧ a.Absorbs n x ∧ a.Absorbs n y
  form_mono ha _ h hid hr hlaw hp hs n hn := by
    rw [strict_iff ha h hid] at hs
    rw [strict_iff ha h (ha.isForm_lt (hr n hn))]
    exact hlaw (prompt_of_grows ha h hp) hs n hn
  both_mono ha _ h hx hy hr hlaw hp hsx hsy n hn := by
    rw [strict_iff ha h (ha.isForm_lt hx)] at hsx
    rw [strict_iff ha h (ha.isForm_lt hy)] at hsy
    obtain ⟨hs, hnx, hny⟩ := hlaw (prompt_of_grows ha h hp) hsx hsy n hn
    rw [strict_iff ha h (ha.isForm_lt (hr n hn))]
    exact ⟨hs, hnx.mono ha h (hr n hn) hx, hny.mono ha h (hr n hn) hy⟩
  form_self _ _ _ hs n hn := by
    cases hn
    exact hs
  both_self _ _ _ hs _ n hn := by
    cases hn
    exact ⟨hs, .same _, .same _⟩

section Absorption

variable {L : Law Json.Distinct} (hL : L.Entails absorption) (ht : t.Lawful L) (hp : t.Prompt)
include hL ht hp

theorem strict_of_done (hx : t.Strict x) (hn : t.progress.get? x = some (.done (some n))) :
    t.Strict n :=
  hL.form (ht.forms x _ hn) hp hx n rfl

theorem ChildJoined.meets (hj : ChildJoined L t c d (some z)) (hc : t.Strict c)
    (hd : t.Strict d) : t.Strict z ∧ t.Meets z c ∧ t.Meets z d := by
  by_cases hne : c = d
  · subst hne
    cases hj.eq_of_prompt hp
    exact ⟨hc, .inl rfl, .inl rfl⟩
  rcases hj.of_prompt hp hne with ⟨_, _, _, _, _, hnone⟩ | ⟨nc, nd, o, hnc, hnd, hjoined, hr⟩
  · cases hnone
  obtain ⟨n, rfl, hz⟩ := Option.map_eq_some_iff.1 hr.symm
  have hlaw := hL.both (hjoined.both_of_isForm (ht.form _ _ hnc) (ht.form _ _ hnd))
  obtain ⟨hn, hnc', hnd'⟩ :=
    hlaw hp (strict_of_done hL ht hp hc hnc) (strict_of_done hL ht hp hd hnd) n rfl
  -- an operand whose form is the result is given for it
  split at hz
  · next heq =>
      subst heq hz
      exact ⟨hc, .inl rfl, .inr ⟨n, nd, hnc, hnd, hnd'⟩⟩
  · split at hz
    · next heq =>
        subst heq hz
        exact ⟨hd, .inr ⟨n, nc, hnd, hnc, hnc'⟩, .inl rfl⟩
    · subst hz
      exact ⟨hn, .inr ⟨n, nc, hjoined.isForm, hnc, hnc'⟩,
        .inr ⟨n, nd, hjoined.isForm, hnd, hnd'⟩⟩

theorem strict_of_joined (hj : Joined L t x y (some n)) (hx : t.Strict x)
    (hy : t.Strict y) : t.Strict n := by
  cases hj with
  | forms hnx hny _ _ hlaw =>
      exact (hL.both hlaw hp (strict_of_done hL ht hp hx hnx)
        (strict_of_done hL ht hp hy hny) n rfl).1

/-- The outcome for strict forms: an operand that has the demands of the conjunction already, or a
    new schema with these demands. -/
theorem absorbs_of_reused (hown : OwnJoined L t (t.schema x) (t.schema y) own)
    (hx : t.Strict x) (hy : t.Strict y) (hr : Reused t x y own (some n)) :
    t.Strict n ∧ t.Absorbs n x ∧ t.Absorbs n y := by
  have hpx := ht.proper x
  have hpy := ht.proper y
  have hkeys := hown.keys_nodup
  have hfacing : ∀ {c d}, Facing (t.schema x) (t.schema y) c d → t.Strict c ∧ t.Strict d :=
    fun hf => ⟨hx.link hf.mem_links.1, hy.link hf.mem_links.2⟩
  obtain ⟨hinx, hiny⟩ := hown.includes (R := t.Meets) (fun _ => .inl rfl)
    (fun c d z hf hz => (hz.meets hL ht hp (hfacing hf).1 (hfacing hf).2).2) hx.schema.extras
    hy.schema.extras
  generalize hn : some n = r at hr
  cases hr with
  | left hsame =>
      cases hn
      have hparts := (sameShape_of_sameDemands hsame hkeys).toSameParts
      exact ⟨hx, .same _, absorbs_of_meets hx.schema hy.schema (hown.repeats_left hsame)
        (hiny.congr hparts)⟩
  | right hsame =>
      cases hn
      have hparts := (sameShape_of_sameDemands hsame hkeys).toSameParts
      exact ⟨hy, absorbs_of_meets hy.schema hx.schema (hown.repeats_right hpx hpy hsame)
        (hinx.congr hparts), .same _⟩
  | stored hs =>
      obtain ⟨hrx, hry⟩ := hown.repeats_stored hpx hpy
      have hstrict : t.Strict n := by
        refine strict_of_stored (hn ▸ hs) (hown.strict hx.schema hy.schema) fun c hc => ?_
        rw [Schema.mem_links_iff, hown.members, List.mem_nil_iff, or_false] at hc
        cases hown.part hc with
        | left hc => exact hx.link (Schema.mem_links_of_part hc)
        | right hc => exact hy.link (Schema.mem_links_of_part hc)
        | both hf hz => exact (hz.meets hL ht hp (hfacing hf).1 (hfacing hf).2).1
      have hschema : t.schema n = trimValues own := by
        cases hs with
        | bottom _ => cases hn
        | stored _ _ hs => cases hn; exact hs
      rw [← hschema] at hrx hry
      have hparts : SameParts own (t.schema n) := hschema ▸ sameParts_trimValues.symm
      exact ⟨hstrict, absorbs_of_meets hstrict.schema hx.schema hrx (hinx.congr hparts),
        absorbs_of_meets hstrict.schema hy.schema hry (hiny.congr hparts)⟩

theorem absorbs_of_bothJoined (hx : t.Strict x) (hy : t.Strict y)
    (hj : BothJoined L t x y (some n)) : t.Strict n ∧ t.Absorbs n x ∧ t.Absorbs n y := by
  generalize hn : some n = r at hj
  cases hj with
  | rightFree hfree => cases hn; exact ⟨hx, .same _, .free hx.schema.anyOf hfree⟩
  | leftFree hfree => cases hn; exact ⟨hy, .free hy.schema.anyOf hfree, .same _⟩
  | itemsClash _ => cases hn
  | propertyClash _ _ => cases hn
  | plain hown _ _ hr => exact absorbs_of_reused hL ht hp hown hx hy (hn ▸ hr)
  | noBranch _ _ => cases hn
  | oneBranch hany _ =>
      exact absurd hx.schema.anyOf (hany.resolve_right fun h => h hy.schema.anyOf)
  | branches hany _ _ _ _ =>
      exact absurd hx.schema.anyOf (hany.resolve_right fun h => h hy.schema.anyOf)

theorem strict_of_allJoined {own : SchemaId} {ms : List SchemaId} (hown : t.Strict own)
    (hms : ∀ m ∈ ms, t.Strict m) (hj : AllJoined L t own ms (some n)) : t.Strict n := by
  generalize hn : some n = r at hj
  induction hj with
  | nil => cases hn; exact hown
  | clash _ => cases hn
  | cons h _ ih =>
      exact ih (strict_of_joined hL ht hp h hown (hms _ (by simp)))
        (fun m hm => hms m (by simp [hm])) hn

theorem strict_of_formJoined (hx : t.Strict x)
    (hj : FormJoined L t (t.schema x) (some n)) : t.Strict n := by
  have hmember : ∀ {m}, m ∈ (t.schema x).members → t.Strict m := fun hm =>
    hx.link (Member.link hm)
  generalize hn : some n = r at hj
  cases hj with
  | bottom _ => cases hn
  | narrowed hc h =>
      have hc := hmember (Schema.mem_members_of_soleChild? hc)
      cases h with
      | unmatched _ => cases hn
      | anyKind hdone _ => cases hn; exact strict_of_done hL ht hp hc hdone
      | noKind _ _ _ => cases hn
      | kinds hdone _ hs hj =>
          refine strict_of_joined hL ht hp (hn ▸ hj) (strict_of_done hL ht hp hc hdone) ?_
          exact strict_of_stored hs ⟨rfl, rfl, nofun⟩ (fun _ hc => nomatch hc)
  | noBase _ _ => cases hn
  | allClash _ _ _ => cases hn
  | alternatives _ hbase hall halt =>
      have hbase' := strict_of_stored hbase ⟨rfl, rfl, hx.schema.extras⟩
        fun c hc => hx.link (mem_links_of_baseOf hc)
      have hown := strict_of_allJoined hL ht hp hbase'
        (fun m hm => hmember (by simp [Schema.members, hm])) hall
      have hany := hx.schema.anyOf
      have hone := hx.schema.oneOf
      cases halt with
      | neither _ _ => cases hn; exact hown
      | anyClash h _ => exact absurd hany h
      | oneClash h _ => exact absurd hone h
      | any h _ _ _ => exact absurd hany h
      | one _ h _ _ => exact absurd hone h
      | both h _ _ _ _ _ => exact absurd hany h

end Absorption

theorem upheld_absorption : Upheld absorption where
  form ht _ hj hp hx _ hn := strict_of_formJoined (.refl _) ht hp hx (hn ▸ hj)
  both ht _ _ _ hj hp hx hy _ hn := absorbs_of_bothJoined (.refl _) ht hp hx hy (hn ▸ hj)

/-! ## Conjoined once more -/

/-- Where the first of two normal forms absorbs the second, now or later, it is what their
    conjunction comes to. -/
def repetition : Law Json.Distinct where
  form _ _ _ := True
  both a x y r := ∀ b : Arena, b.WellFormed Json.Distinct → Grows a b → b.Prompt →
    b.Absorbs x y → r = some x
  form_mono _ _ _ _ _ _ := trivial
  both_mono _ _ h _ _ _ hlaw c hc hbc := hlaw c hc (h.trans hbc)
  form_self _ _ := trivial
  both_self _ _ _ _ _ _ _ := rfl

/-- Two normal forms without alternatives come to the first one, if all facing child schemas do and
    what the two demand then, as far as the second one demands anything, is what the first one
    demands. -/
theorem BothJoined.eq_left (hj : BothJoined L t x y r) (hx : (t.schema x).anyOf = [])
    (hy : (t.schema y).anyOf = [])
    (hchild : ∀ c d z, Facing (t.schema x) (t.schema y) c d → ChildJoined L t c d z → z = some c)
    (hfree : (t.schema x).isUnconstrained = true → (t.schema y).isUnconstrained = true)
    (hown : ∀ own, (t.schema y).isUnconstrained = false →
      OwnJoined L t (t.schema x) (t.schema y) own → own.sameDemands (t.schema x) = true) :
    r = some x := by
  have hclash : ¬∃ c d, Facing (t.schema x) (t.schema y) c d ∧ ChildJoined L t c d none :=
    fun ⟨c, d, hf, hz⟩ => nomatch hchild c d none hf hz
  cases hj with
  | rightFree _ => rfl
  | leftFree h hne => cases (hfree h).symm.trans hne
  | itemsClash h => exact absurd h.facing hclash
  | propertyClash _ h => exact absurd h.facing hclash
  | plain ho _ _ hr hne =>
      have hsame := hown _ hne ho
      cases hr with
      | left _ => rfl
      | right _ h => cases hsame.symm.trans h
      | stored _ h => cases hsame.symm.trans h
  | noBranch hany _ => exact absurd hx (hany.resolve_right fun h => h hy)
  | oneBranch hany _ => exact absurd hx (hany.resolve_right fun h => h hy)
  | branches hany _ _ _ _ => exact absurd hx (hany.resolve_right fun h => h hy)

section Repetition

variable (ht : t.WellFormed Json.Distinct) (hp : t.Prompt)
include ht hp

/-- Of two child schemas that meet, the first one is the conjunction. -/
theorem ChildJoined.eq_of_meets (hj : ChildJoined repetition t c d r) (hmeets : t.Meets c d) :
    r = some c := by
  by_cases hne : c = d
  · subst hne
    exact hj.eq_of_prompt hp
  obtain ⟨fc, fd, hfc, hfd, habsorbs⟩ := hmeets.resolve_left hne
  rcases hj.of_prompt hp hne with ⟨fc', fd', hfc', hfd', hnone, -⟩ |
    ⟨nc, nd, o, hnc, hnd, hjoined, rfl⟩
  · cases hfc.symm.trans hfc'
    cases hfd.symm.trans hfd'
    rcases hnone with h | h <;> cases h
  · cases hfc.symm.trans hnc
    cases hfd.symm.trans hnd
    have hlaw := hjoined.both_of_isForm (ht.form _ _ hnc) (ht.form _ _ hnd)
    rw [hlaw t ht (.refl t) hp habsorbs, Option.map_some, if_pos rfl]

theorem eq_left_of_absorbs (hy : t.IsForm y) (hne : x ≠ y)
    (hj : BothJoined repetition t x y r) (habsorbs : t.Absorbs x y) : r = some x := by
  have hkeys := fun z => (ht.proper z).keys
  cases habsorbs with
  | same _ => exact absurd rfl hne
  | free hany hfree =>
      have hshape := sameShape_of_isUnconstrained hfree (hkeys y)
      refine hj.eq_left hany hshape.anyOf (fun c d z hf _ => ?_) (fun _ => hfree)
        fun own h _ => nomatch hfree.symm.trans h
      -- nothing faces a child schema of the second one, which has none
      cases (hf.congr ⟨rfl, fun _ => rfl, rfl⟩ hshape.toSameParts).mem_links.2
  | demands hsx hsy hrepeats hincludes hdone hforms =>
      have hmembers : (t.schema y).members = [] := by
        simp [Schema.members, (ht.normal y hy).1.allOf, hsy.anyOf, hsy.oneOf]
      have hchild : ∀ c d z, Facing (t.schema x) (t.schema y) c d →
          ChildJoined repetition t c d z → z = some c := by
        intro c d z hf hz
        refine hz.eq_of_meets ht hp ?_
        by_cases heq : c = d
        · exact .inl heq
        · have hR := hincludes.facing hf
          obtain ⟨fc, fd, hfc, hfd⟩ := hdone c d hR heq
          exact .inr ⟨fc, fd, hfc, hfd, hforms c d fc fd hR heq hfc hfd⟩
      exact hj.eq_left hsx.anyOf hsy.anyOf hchild
        (fun h => isUnconstrained_of_includes h (hkeys x) hrepeats hincludes (hkeys y) hmembers)
        fun own _ ho => ho.sameDemands_left hincludes hchild hrepeats hsx.extras (hkeys x)

end Repetition

theorem upheld_repetition : Upheld repetition where
  form _ _ _ := trivial
  both ha hx hy hne hj _ hb hab hp habsorbs :=
    eq_left_of_absorbs hb hp (hab.form hy) hne
      (hj.mono ha.toWellFormed hb hab (ha.isForm_lt hx) (ha.isForm_lt hy)) habsorbs

end Arena

namespace Session

variable {document : Json} {naming : Naming} {s s' s'' : Session} {x y z n : SchemaId}
  {calls calls' : Nat} {r : Option SchemaId}

/-- A conjunction absorbs the normal forms of both sides. -/
theorem absorbs_of_conjoin (hd : document.Distinct) (hs : Reachable document naming s)
    (hx : x < s.arena.next) (hy : y < s.arena.next) (hsx : s.arena.Strict x)
    (hsy : s.arena.Strict y) (hrun : (conjoin calls x y).run s = (.ok (some n), s'))
    (hp : s'.arena.Prompt) (hz : z = x ∨ z = y) : s'.arena.IsForm n ∧
      ∃ nz, s'.arena.progress.get? z = some (.done (some nz)) ∧ s'.arena.Absorbs n nz := by
  have hlawful := hs.lawful Arena.upheld_absorption hereditary_distinct hd
  have hwf := hlawful.arena.toWellFormed
  obtain ⟨⟨hlawful', hfollows⟩, hjoined⟩ :=
    (keeps_conjoin Arena.upheld_absorption hlawful calls hx hy).of_ok hrun
  have hgrows := hfollows.arena
  rw [← Arena.strict_iff hwf hgrows hx] at hsx
  rw [← Arena.strict_iff hwf hgrows hy] at hsy
  cases hjoined with
  | forms hnx hny hform _ hlaw =>
      obtain ⟨-, hnx', hny'⟩ := hlaw hp (Arena.strict_of_done (.refl _) hlawful'.arena hp hsx hnx)
        (Arena.strict_of_done (.refl _) hlawful'.arena hp hsy hny) n rfl
      refine ⟨hform n rfl, ?_⟩
      rcases hz with rfl | rfl
      · exact ⟨_, hnx, hnx'⟩
      · exact ⟨_, hny, hny'⟩

/-- A conjunction stays as it is when it is conjoined with one of its sides once more, at whatever
    depth the two overlap: an answer to that is the very same schema. The two sides lead to no
    alternatives and nowhere spell out that further properties are allowed, and no conjunction has
    been put off. -/
theorem conjoin_again (hd : document.Distinct) (hs : Reachable document naming s)
    (hx : x < s.arena.next) (hy : y < s.arena.next) (hsx : s.arena.Strict x)
    (hsy : s.arena.Strict y) (hrun : (conjoin calls x y).run s = (.ok (some n), s'))
    (hz : z = x ∨ z = y) (hagain : (conjoin calls' n z).run s' = (.ok r, s''))
    (hp : s''.arena.Prompt) : r = some n := by
  have hlawful := hs.lawful Arena.upheld_repetition hereditary_distinct hd
  obtain ⟨⟨hlawful', hfollows⟩, hfirst⟩ :=
    (keeps_conjoin Arena.upheld_repetition hlawful calls hx hy).of_ok hrun
  have hwf' := hlawful'.arena.toWellFormed
  have hltn : n < s'.arena.next := hwf'.isForm_lt hfirst.isForm
  have hltz : z < s'.arena.next := by
    have hlt : ∀ {id}, id < s.arena.next → id < s'.arena.next :=
      fun h => Nat.lt_of_lt_of_le h hfollows.arena.next
    rcases hz with rfl | rfl
    · exact hlt hx
    · exact hlt hy
  obtain ⟨⟨hlawful'', hfollows'⟩, hjoined⟩ :=
    (keeps_conjoin Arena.upheld_repetition hlawful' calls' hltn hltz).of_ok hagain
  have hgrows := hfollows'.arena
  obtain ⟨hform, nz, hnz, habsorbs⟩ := absorbs_of_conjoin hd hs hx hy hsx hsy hrun
    (Arena.prompt_of_grows hwf' hgrows hp) hz
  have hn' := hgrows.done _ _ hform
  have hnz' := hgrows.done _ _ hnz
  cases hjoined with
  | left hnone => cases hn'.symm.trans hnone
  | right _ hnone => cases hnz'.symm.trans hnone
  | forms hn hz _ _ hlaw =>
      cases hn'.symm.trans hn
      cases hnz'.symm.trans hz
      exact hlaw _ hlawful''.arena.toWellFormed (.refl _) hp
        (habsorbs.mono hwf' hgrows hform (hwf'.form _ _ hnz))

end Session

end ApiModel
