/-
  ApiModel.Proofs.Schema.Symmetry

  Whether two schemas have a conjunction does not depend on their order. A conjunction of normal forms
  tells what the two are to each other, as long as none has been put off on the way; what carries the
  induction is that it leaves only what both sides leave, and alternatives only what the whole leaves.
  So one alternative that is there shows that the demands of the whole can be met too, whether these
  are looked at or not.
-/
import ApiModel.Proofs.Schema.Exclusion
import ApiModel.Proofs.Schema.Repetition
import ApiModel.Proofs.Schema.Settled

namespace ApiModel

namespace Arena

variable {P : Json → Prop} {a b t : Arena} {x y z n c d l : SchemaId} {s own : Schema}
  {r : Option SchemaId} {bs : List SchemaId}

/-! ## Alternatives that leave no more than the whole -/

/-- The alternatives of every normal form that `x` leads to leave only what the whole leaves. -/
def Tapers (a : Arena) (x : SchemaId) : Prop :=
  ∀ y, Relation.ReflTransGen a.Link x y → a.IsForm y → ∀ c ∈ (a.schema y).anyOf,
    Tighter (a.schema c) (a.schema y)

theorem Tapers.link (h : a.Tapers x) (hxy : a.Link x y) : a.Tapers y :=
  fun _ hz => h _ (.head hxy hz)

/-- What the document has leads to no normal forms. -/
theorem tapers_of_raw (ha : a.WellFormed P) (hx : a.Raw x) : a.Tapers x := by
  intro y hxy
  have hraw : a.Raw y := by
    induction hxy with
    | refl => exact hx
    | tail _ hzy ih => exact ha.raw _ _ ih hzy
  exact fun hy => absurd hy hraw.1

theorem tapers_of_links (hany : ∀ c ∈ (a.schema x).anyOf, Tighter (a.schema c) (a.schema x))
    (hlinks : ∀ c ∈ (a.schema x).links, a.Tapers c) : a.Tapers x := by
  intro y hxy hy
  rcases Relation.ReflTransGen.cases_head hxy with rfl | ⟨c, hc, hcy⟩
  · exact hany
  · exact hlinks c hc y hcy hy

theorem tapers_iff (ha : a.WellFormed P) (h : Grows a b) (hx : x < a.next) :
    b.Tapers x ↔ a.Tapers x := by
  unfold Tapers
  refine forall_congr' fun y => ?_
  rw [reach_iff ha h.schema hx y]
  refine imp_congr_right fun hxy => ?_
  have hy := ha.reach_lt hx hxy
  refine imp_congr ⟨h.isForm y hy, h.form⟩ ?_
  rw [h.schema y hy]
  refine forall_congr' fun c => imp_congr_right fun hc => ?_
  rw [h.schema c (ha.anyOf_lt hc)]

/-- The alternatives of a normal form, or itself, leave only what it leaves. -/
theorem Tapers.side (h : a.Tapers x) (hx : a.IsForm x) (hl : l ∈ a.sides x) :
    a.Tapers l ∧ Tighter (a.schema l) (a.schema x) := by
  unfold sides at hl
  split at hl
  · rw [List.mem_singleton] at hl
    subst hl
    exact ⟨h, .refl _⟩
  · exact ⟨h.link (Member.link (by simp [Member, Schema.members, hl])), h x .refl hx l hl⟩

theorem tapers_of_stored (h : Stored t s (some n)) (hany : ∀ c ∈ s.anyOf, Tighter (t.schema c) s)
    (hlinks : ∀ c ∈ s.links, t.Tapers c) : t.Tapers n := by
  cases h with
  | stored _ _ hn =>
      have htrim := (tighter_trimValues (s := s)).2
      obtain ⟨vs, hvs, -⟩ := trimValues_eq s
      refine tapers_of_links (fun c hc => ?_) fun c hc => hlinks c ?_
      · rw [hn] at hc ⊢
        refine (hany c ?_).trans htrim
        rwa [hvs] at hc
      · rwa [hn, links_trimValues] at hc

/-! ## The law -/

/-- The conjunction of two normal forms tells what they are to each other, and leaves only what both
    leave. -/
inductive Judged (a : Arena) (x y : SchemaId) : Option SchemaId → Prop
  | excluded (h : a.Excludes x y) : Judged a x y none
  | found {n : SchemaId} (h : a.Compatible x y) (hn : a.Tapers n)
      (hx : Tighter (a.schema n) (a.schema x)) (hy : Tighter (a.schema n) (a.schema y)) :
      Judged a x y (some n)

theorem Judged.mono (ha : a.WellFormed P) (h : Grows a b) (hx : a.IsForm x) (hy : a.IsForm y)
    (hr : ∀ n, r = some n → a.IsForm n) (hj : a.Judged x y r) : b.Judged x y r := by
  cases hj with
  | excluded hxy => exact .excluded (hxy.mono ha h hx hy)
  | found hxy hn hnx hny =>
      have hlt := ha.isForm_lt (hr _ rfl)
      rw [← h.schema _ (ha.isForm_lt hx), ← h.schema _ hlt] at hnx
      rw [← h.schema _ (ha.isForm_lt hy), ← h.schema _ hlt] at hny
      exact .found (hxy.mono ha h hx hy) ((tapers_iff ha h hlt).2 hn) hnx hny

/-- Normal forms whose alternatives leave no more than the whole have such a conjunction, or exclude
    each other. -/
def exclusion : Law Json.Distinct where
  form a id r := a.Prompt → a.Tapers id → ∀ n, r = some n → a.Tapers n
  both a x y r := a.Prompt → a.Tapers x → a.Tapers y → a.Judged x y r
  form_mono ha _ h hid hr hlaw hp hx n hn := by
    rw [tapers_iff ha h hid] at hx
    rw [tapers_iff ha h (ha.isForm_lt (hr n hn))]
    exact hlaw (prompt_of_grows ha h hp) hx n hn
  both_mono ha _ h hx hy hr hlaw hp htx hty := by
    rw [tapers_iff ha h (ha.isForm_lt hx)] at htx
    rw [tapers_iff ha h (ha.isForm_lt hy)] at hty
    exact (hlaw (prompt_of_grows ha h hp) htx hty).mono ha h hx hy hr
  form_self _ _ _ hx n hn := by
    cases hn
    exact hx
  both_self _ _ _ hx _ := .found (.same _) hx (.refl _) (.refl _)

section Law

variable (ht : t.Lawful exclusion) (hp : t.Prompt)
include ht hp

theorem tapers_of_done (hx : t.Tapers x) (hn : t.progress.get? x = some (.done (some n))) :
    t.Tapers n :=
  ht.forms x _ hn hp hx n rfl

/-- The conjunction of two schemas, told of their normal forms. -/
theorem Joined.judged (hj : Joined exclusion t x y (some n)) (hx : t.Tapers x)
    (hy : t.Tapers y) : ∃ nx ny, t.progress.get? x = some (.done (some nx)) ∧
      t.progress.get? y = some (.done (some ny)) ∧ t.Judged nx ny (some n) := by
  cases hj with
  | forms hnx hny _ _ hlaw =>
      exact ⟨_, _, hnx, hny,
        hlaw hp (tapers_of_done ht hp hx hnx) (tapers_of_done ht hp hy hny)⟩

theorem tapers_of_joined (hj : Joined exclusion t x y (some n)) (hx : t.Tapers x)
    (hy : t.Tapers y) : t.Tapers n := by
  obtain ⟨_, _, _, _, hjudged⟩ := hj.judged ht hp hx hy
  cases hjudged with
  | found _ hn _ _ => exact hn

/-! ### Child schemas -/

theorem ChildJoined.tapers (hj : ChildJoined exclusion t c d (some z)) (hc : t.Tapers c)
    (hd : t.Tapers d) : t.Tapers z := by
  by_cases hne : c = d
  · subst hne
    cases hj.eq_of_prompt hp
    exact hc
  rcases hj.of_prompt hp hne with ⟨_, _, _, _, _, hnone⟩ | ⟨nc, nd, o, hnc, hnd, hjoined, hr⟩
  · cases hnone
  obtain ⟨n, rfl, rfl⟩ := Option.map_eq_some_iff.1 hr.symm
  split
  · exact hc
  · split
    · exact hd
    · exact tapers_of_joined ht hp hjoined (tapers_of_done ht hp hc hnc)
        (tapers_of_done ht hp hd hnd)

/-- Different child schemas with a conjunction have compatible normal forms. -/
theorem ChildJoined.compatible (hj : ChildJoined exclusion t c d (some z)) (hne : c ≠ d)
    (hc : t.Tapers c) (hd : t.Tapers d) : ∃ nc nd,
      t.progress.get? c = some (.done (some nc)) ∧ t.progress.get? d = some (.done (some nd)) ∧
      t.Compatible nc nd := by
  rcases hj.of_prompt hp hne with ⟨_, _, _, _, _, hnone⟩ | ⟨nc, nd, o, hnc, hnd, hjoined, hr⟩
  · cases hnone
  obtain ⟨n, rfl, -⟩ := Option.map_eq_some_iff.1 hr.symm
  have hjudged := hjoined.both_of_isForm (ht.form _ _ hnc) (ht.form _ _ hnd) hp
    (tapers_of_done ht hp hc hnc) (tapers_of_done ht hp hd hnd)
  cases hjudged with
  | found hcompatible _ _ _ => exact ⟨nc, nd, hnc, hnd, hcompatible⟩

/-- Coupled child schemas without a conjunction are why the whole has none. -/
theorem excludes_of_coupled (hcd : Coupled (t.schema x) (t.schema y) c d) (hx : t.Tapers x)
    (hy : t.Tapers y) (hj : ChildJoined exclusion t c d none) : t.Excludes x y := by
  have hc := hx.link hcd.mem_links.1
  have hd := hy.link hcd.mem_links.2
  by_cases hne : c = d
  · subst hne
    cases hj.eq_of_prompt hp
  rcases hj.of_prompt hp hne with ⟨fc, fd, hfc, hfd, hnone, -⟩ |
    ⟨nc, nd, o, hnc, hnd, hjoined, hr⟩
  · exact .unmatched hcd hne hfc hfd hnone
  obtain rfl := Option.map_eq_none_iff.1 hr.symm
  have hjudged := hjoined.both_of_isForm (ht.form _ _ hnc) (ht.form _ _ hnd) hp
    (tapers_of_done ht hp hc hnc) (tapers_of_done ht hp hd hnd)
  cases hjudged with
  | excluded h => exact .child hcd hne hnc hnd h

section Own

variable (hown : OwnJoined exclusion t (t.schema x) (t.schema y) own) (hx : t.Tapers x)
  (hy : t.Tapers y)
include hown hx hy

/-- Child schemas of a conjunction have conjunctions where they are coupled. -/
theorem OwnJoined.compatible (hcd : Coupled (t.schema x) (t.schema y) c d) (hne : c ≠ d) :
    ∃ nc nd, t.progress.get? c = some (.done (some nc)) ∧
      t.progress.get? d = some (.done (some nd)) ∧ t.Compatible nc nd := by
  obtain ⟨z, hz⟩ := hown.child hcd
  exact hz.compatible ht hp hne (hx.link hcd.mem_links.1) (hy.link hcd.mem_links.2)

theorem OwnJoined.matched : t.Matched x y := fun c d hcd hne => by
  obtain ⟨nc, nd, hnc, hnd, -⟩ := hown.compatible ht hp hx hy hcd hne
  exact ⟨nc, nd, hnc, hnd⟩

theorem OwnJoined.compatible_forms {nc nd : SchemaId}
    (hcd : Coupled (t.schema x) (t.schema y) c d) (hne : c ≠ d)
    (hc : t.progress.get? c = some (.done (some nc)))
    (hd : t.progress.get? d = some (.done (some nd))) : t.Compatible nc nd := by
  obtain ⟨mc, md, hmc, hmd, hcompatible⟩ := hown.compatible ht hp hx hy hcd hne
  cases hc.symm.trans hmc
  cases hd.symm.trans hmd
  exact hcompatible

theorem OwnJoined.tapers_of_links (hbs : ∀ c ∈ bs, t.Tapers c)
    (hc : c ∈ ({ own with anyOf := bs } : Schema).links) : t.Tapers c := by
  rcases Schema.mem_links_iff.1 hc with hc | hc
  · cases hown.part hc with
    | left hc => exact hx.link (Schema.mem_links_of_part hc)
    | right hc => exact hy.link (Schema.mem_links_of_part hc)
    | both hf hz => exact hz.tapers ht hp (hx.link hf.mem_links.1) (hy.link hf.mem_links.2)
  · have hmembers := hown.members
    simp only [Schema.members, List.append_eq_nil_iff] at hmembers
    simp only [Schema.members, hmembers.1.1, hmembers.2, List.nil_append, List.append_nil] at hc
    exact hbs c hc

/-- What comes of a conjunction leaves only what both sides leave, if its alternatives do. -/
theorem found_of_reused (hforms : ∀ c ∈ bs, t.IsForm c) (hbs : ∀ c ∈ bs, t.Tapers c)
    (htight : ∀ c ∈ bs, Tighter (t.schema c) own)
    (hr : Reused t x y { own with anyOf := bs } (some n)) :
    t.Tapers n ∧ Tighter (t.schema n) (t.schema x) ∧ Tighter (t.schema n) (t.schema y) := by
  have hpx := ht.proper x
  have hpy := ht.proper y
  have hpown := hown.proper ht.toWellFormed hpx hpy fun c hc => ht.isForm_lt (hforms c hc)
  obtain ⟨hdown, hup⟩ := tighter_branches own own.pointer bs
  have hsides : ∀ {z}, Tighter (t.schema z) { own with anyOf := bs } →
      Tighter (t.schema z) (t.schema x) ∧ Tighter (t.schema z) (t.schema y) := fun hz =>
    (hown.tighter_iff hpx hpy).1 (hz.trans hdown)
  generalize ho : some n = o at hr
  cases hr with
  | left hsame =>
      cases ho
      exact ⟨hx, hsides (tighter_of_sameDemands hsame hpown hpx)⟩
  | right hsame =>
      cases ho
      exact ⟨hy, hsides (tighter_of_sameDemands hsame hpown hpy)⟩
  | stored hs =>
      subst ho
      refine ⟨tapers_of_stored hs (fun c hc => (htight c hc).trans hup)
        fun c => hown.tapers_of_links ht hp hx hy hbs, hsides ?_⟩
      cases hs with
      | stored _ _ hn =>
          rw [hn]
          exact tighter_trimValues.1

omit hp hx hy in
/-- Where nothing comes of a conjunction, its demands leave nothing. -/
theorem not_viable_of_reused (hforms : ∀ c ∈ bs, t.IsForm c)
    (hr : Reused t x y { own with anyOf := bs } none) : ¬Viable own := by
  intro hviable
  have hpown := hown.proper ht.toWellFormed (ht.proper x) (ht.proper y)
    fun c hc => ht.isForm_lt (hforms c hc)
  have hout := hviable.of_tighter (tighter_branches own own.pointer bs).2
  generalize ho : (none : Option SchemaId) = o at hr
  cases hr with
  | left _ => cases ho
  | right _ _ => cases ho
  | stored hs =>
      subst ho
      cases hs with
      | bottom h => cases ((isBottom_trimValues_iff hpown).2 hout).symm.trans h

end Own

/-! ### Conjunctions -/

/-- A branch of a conjunction leaves only what both sides leave. -/
theorem Crossed.judged (hbs : Crossed exclusion t (t.sides x) (t.sides y) bs) (hx : t.Tapers x)
    (hy : t.Tapers y) (hfx : t.IsForm x) (hfy : t.IsForm y) (hc : c ∈ bs) :
    t.Tapers c ∧ Tighter (t.schema c) (t.schema x) ∧ Tighter (t.schema c) (t.schema y) ∧
      ∃ l ∈ t.sides x, ∃ r ∈ t.sides y, t.Compatible l r := by
  obtain ⟨l, hl, r, hr, hj⟩ := hbs.sound c hc
  obtain ⟨htl, hlx⟩ := hx.side hfx hl
  obtain ⟨htr, hry⟩ := hy.side hfy hr
  have hjudged := hj.both_of_isForm (isForm_of_mem_sides ht.toWellFormed hfx l hl)
    (isForm_of_mem_sides ht.toWellFormed hfy r hr) hp htl htr
  cases hjudged with
  | found hlr hn hcl hcr => exact ⟨hn, hcl.trans hlx, hcr.trans hry, l, hl, r, hr, hlr⟩

theorem judged_of_bothJoined (hfx : t.IsForm x) (hfy : t.IsForm y) (hx : t.Tapers x)
    (hy : t.Tapers y) (hj : BothJoined exclusion t x y r) : t.Judged x y r := by
  have hpx := ht.proper x
  have hpy := ht.proper y
  cases hj with
  | rightFree hfree =>
      exact .found (.rightFree hfree) hx (.refl _) (tighter_of_isUnconstrained hfree)
  | leftFree hfree =>
      exact .found (.leftFree hfree) hy (tighter_of_isUnconstrained hfree) (.refl _)
  | itemsClash h =>
      obtain ⟨c, d, hcd, hz⟩ := h.coupled
      exact .excluded (excludes_of_coupled ht hp hcd hx hy hz)
  | propertyClash _ h =>
      obtain ⟨c, d, hcd, hz⟩ := h.coupled
      exact .excluded (excludes_of_coupled ht hp hcd hx hy hz)
  | @plain own r hown hanyx hanyy hr =>
      -- the demands are those with no alternatives
      have hnil : ({ own with anyOf := [] } : Schema) = own := by rw [← hown.anyOf]
      rw [← hnil] at hr
      cases r with
      | none =>
          refine .excluded (.demands hanyx hanyy fun hoverlap => ?_)
          exact not_viable_of_reused ht hown (by simp) hr ((hown.viable_iff hpx hpy).2 hoverlap)
      | some n =>
          obtain ⟨hn, hnx, hny⟩ := found_of_reused ht hp hown hx hy (by simp) (by simp)
            (by simp) hr
          refine .found (.plain hanyx hanyy ?_ (hown.matched ht hp hx hy) fun c d nc nd =>
            hown.compatible_forms ht hp hx hy) hn hnx hny
          exact (viable_of_isForm ht.toWellFormed (hr.isForm hfx hfy)).overlap hnx hny
  | noBranch hany hbs =>
      refine .excluded (.branches hany fun l hl r hr => ?_)
      obtain ⟨o, ho, hmem⟩ := hbs.complete l hl r hr
      cases o with
      | some c => cases hmem c rfl
      | none =>
          have hjudged := ho.both_of_isForm (isForm_of_mem_sides ht.toWellFormed hfx l hl)
            (isForm_of_mem_sides ht.toWellFormed hfy r hr) hp (hx.side hfx hl).1
            (hy.side hfy hr).1
          cases hjudged with
          | excluded h => exact h
  | @oneBranch _ c hany hbs _ hown =>
      obtain ⟨hc, hcx, hcy, l, hl, r, hr, hlr⟩ :=
        hbs.judged ht hp hx hy hfx hfy (List.mem_singleton_self c)
      exact .found (.branch hany hl hr hlr (hown.matched ht hp hx hy) fun c d nc nd =>
        hown.compatible_forms ht hp hx hy) hc hcx hcy
  | @branches own bs r hany hown hbs htwo hr =>
      obtain ⟨c, hc⟩ := List.exists_mem_of_ne_nil bs
        (List.ne_nil_of_length_pos (Nat.lt_of_lt_of_le Nat.zero_lt_two htwo))
      -- a branch leaves something, so the demands of the whole do
      have htight : ∀ c ∈ bs, Tighter (t.schema c) own := fun c hc =>
        have hjudged := hbs.judged ht hp hx hy hfx hfy hc
        (hown.tighter_iff hpx hpy).2 ⟨hjudged.2.1, hjudged.2.2.1⟩
      cases r with
      | none =>
          have hviable := viable_of_isForm ht.toWellFormed (hbs.isForm c hc)
          exact absurd (hviable.of_tighter (htight c hc))
            (not_viable_of_reused ht hown hbs.isForm hr)
      | some n =>
          obtain ⟨-, -, -, l, hl, r, hr', hlr⟩ := hbs.judged ht hp hx hy hfx hfy hc
          obtain ⟨hn, hnx, hny⟩ := found_of_reused ht hp hown hx hy hbs.isForm
            (fun c hc => (hbs.judged ht hp hx hy hfx hfy hc).1) htight hr
          exact .found (.branch hany hl hr' hlr (hown.matched ht hp hx hy) fun c d nc nd =>
            hown.compatible_forms ht hp hx hy) hn hnx hny

/-! ### Normal forms -/

theorem tapers_of_allJoined {own : SchemaId} {ms : List SchemaId} (hown : t.Tapers own)
    (hms : ∀ m ∈ ms, t.Tapers m) (hj : AllJoined exclusion t own ms (some n)) : t.Tapers n := by
  generalize hn : some n = o at hj
  induction hj with
  | nil => cases hn; exact hown
  | clash _ => cases hn
  | cons h _ ih =>
      exact ih (tapers_of_joined ht hp h hown (hms _ (by simp)))
        (fun m hm => hms m (by simp [hm])) hn

/-- Branches conjoined with a normal form, or made of such, leave only what it leaves. -/
theorem Crossed.tightens {own : SchemaId} {left right : List SchemaId}
    (h : Crossed exclusion t left right bs)
    (hl : ∀ l ∈ left, t.Tapers l) (hr : ∀ r ∈ right, t.Tapers r)
    (hright : ∀ r ∈ right, t.IsForm r ∧ Tighter (t.schema r) (t.schema own)) :
    ∀ c ∈ bs, t.Tapers c ∧ t.IsForm c ∧ Tighter (t.schema c) (t.schema own) := by
  intro c hc
  obtain ⟨l, hlm, r, hrm, hj⟩ := h.sound c hc
  obtain ⟨nl, nr, -, hnr, hjudged⟩ := hj.judged ht hp (hl l hlm) (hr r hrm)
  obtain ⟨hform, htight⟩ := hright r hrm
  cases hform.symm.trans hnr
  cases hjudged with
  | found _ hn _ hcr => exact ⟨hn, hj.isForm, hcr.trans htight⟩

omit ht hp in
/-- Branches that leave only what `own` leaves may be alternatives of its demands. -/
theorem tapers_of_gathered {own : SchemaId} (hown : t.Tapers own)
    (hbs : ∀ c ∈ bs, t.Tapers c ∧ t.IsForm c ∧ Tighter (t.schema c) (t.schema own))
    (hj : Gathered t s own bs (some n)) : t.Tapers n := by
  generalize hn : some n = o at hj
  cases hj with
  | none _ => cases hn
  | one h => cases hn; exact (hbs n (by simp [h])).1
  | many _ hs =>
      subst hn
      refine tapers_of_stored hs (fun c hc => ?_) fun c hc => ?_
      · exact (hbs c hc).2.2.trans (tighter_branches _ _ _).2
      · rcases Schema.mem_links_iff.1 hc with hc | hc
        · exact hown.link (Schema.mem_links_of_part hc)
        · simp only [Schema.members, List.mem_append] at hc
          rcases hc with (hc | hc) | hc
          · exact hown.link (Member.link (by simp [Member, Schema.members, hc]))
          · exact (hbs c hc).1
          · exact hown.link (Member.link (by simp [Member, Schema.members, hc]))

theorem tapers_of_alternativesJoined {own : SchemaId} (hform : t.IsForm own)
    (hown : t.Tapers own) (hms : ∀ m ∈ s.members, t.Tapers m)
    (hj : AlternativesJoined exclusion t s own (some n)) : t.Tapers n := by
  have hany : ∀ m ∈ s.anyOf, t.Tapers m := fun m hm => hms m (by simp [Schema.members, hm])
  have hone : ∀ m ∈ s.oneOf, t.Tapers m := fun m hm => hms m (by simp [Schema.members, hm])
  have hself : ∀ r ∈ [own], t.IsForm r ∧ Tighter (t.schema r) (t.schema own) := by
    simpa using ⟨hform, Tighter.refl _⟩
  have hself' : ∀ r ∈ [own], t.Tapers r := by simpa using hown
  have hgroup : ∀ {ms bs}, (∀ m ∈ ms, t.Tapers m) → Crossed exclusion t ms [own] bs →
      ∀ c ∈ bs, t.Tapers c ∧ t.IsForm c ∧ Tighter (t.schema c) (t.schema own) := fun hms h =>
    h.tightens ht hp hms hself' hself
  generalize hn : some n = o at hj
  cases hj with
  | neither _ _ => cases hn; exact hown
  | anyClash _ _ => cases hn
  | oneClash _ _ => cases hn
  | any _ _ h hg => exact tapers_of_gathered hown (hgroup hany h) (hn ▸ hg)
  | one _ _ h hg => exact tapers_of_gathered hown (hgroup hone h) (hn ▸ hg)
  | both _ _ has hos h hg =>
      refine tapers_of_gathered hown ?_ (hn ▸ hg)
      exact h.tightens ht hp (fun l hl => (hgroup hany has l hl).1)
        (fun r hr => (hgroup hone hos r hr).1) fun r hr => (hgroup hone hos r hr).2

theorem tapers_of_formJoined (hx : t.Tapers x)
    (hj : FormJoined exclusion t (t.schema x) (some n)) : t.Tapers n := by
  have hmember : ∀ {m}, m ∈ (t.schema x).members → t.Tapers m := fun hm =>
    hx.link (Member.link hm)
  generalize hn : some n = o at hj
  cases hj with
  | bottom _ => cases hn
  | narrowed hc h =>
      have hc := hmember (Schema.mem_members_of_soleChild? hc)
      cases h with
      | unmatched _ => cases hn
      | anyKind hdone _ => cases hn; exact tapers_of_done ht hp hc hdone
      | noKind _ _ _ => cases hn
      | kinds hdone _ hs hj =>
          refine tapers_of_joined ht hp (hn ▸ hj) (tapers_of_done ht hp hc hdone) ?_
          exact tapers_of_stored hs nofun nofun
  | noBase _ _ => cases hn
  | allClash _ _ _ => cases hn
  | alternatives _ hbase hall halt =>
      have hbase' : t.Tapers _ := tapers_of_stored hbase nofun
        fun c hc => hx.link (mem_links_of_baseOf hc)
      have hown := tapers_of_allJoined ht hp hbase'
        (fun m hm => hmember (by simp [Schema.members, hm])) hall
      exact tapers_of_alternativesJoined ht hp (hall.isForm hbase.isForm) hown
        (fun m hm => hmember hm) (hn ▸ halt)

/-- The two orders agree in whether there is a conjunction. -/
theorem Joined.eq_none_comm {r' : Option SchemaId} (hx : t.Tapers x) (hy : t.Tapers y)
    (hxy : Joined exclusion t x y r) (hyx : Joined exclusion t y x r') : r = none ↔ r' = none := by
  cases hxy with
  | left hnone =>
      cases hyx with
      | left _ => exact Iff.rfl
      | right _ _ => exact Iff.rfl
      | forms _ hnx _ _ _ => cases hnone.symm.trans hnx
  | right _ hnone =>
      cases hyx with
      | left _ => exact Iff.rfl
      | right _ _ => exact Iff.rfl
      | forms hny _ _ _ _ => cases hnone.symm.trans hny
  | forms hnx hny _ _ hlaw =>
      cases hyx with
      | left hnone => cases hny.symm.trans hnone
      | right _ hnone => cases hnx.symm.trans hnone
      | forms hny' hnx' _ _ hlaw' =>
          cases hnx.symm.trans hnx'
          cases hny.symm.trans hny'
          have hfx := ht.form _ _ hnx
          have hfy := ht.form _ _ hny
          have htx := tapers_of_done ht hp hx hnx
          have hty := tapers_of_done ht hp hy hny
          -- the same two normal forms are judged twice, and cannot be both
          have hjudged := hlaw hp htx hty
          have hjudged' := hlaw' hp hty htx
          cases hjudged with
          | excluded h =>
              cases hjudged' with
              | excluded _ => exact Iff.rfl
              | found h' => exact absurd h' (h.not_compatible ht.toWellFormed hfx hfy)
          | found h =>
              cases hjudged' with
              | excluded h' => exact absurd h (h'.not_compatible ht.toWellFormed hfy hfx)
              | found _ => simp

end Law

theorem upheld_exclusion : Upheld exclusion where
  form ht _ hj hp hx _ hn := tapers_of_formJoined ht hp hx (hn ▸ hj)
  both ht hx hy _ hj hp htx hty := judged_of_bothJoined ht hp hx hy htx hty hj

end Arena

namespace Session

variable {document : Json} {naming : Naming} {s s' t t' : Session} {x y n : SchemaId}
  {calls calls' : Nat} {r r' : Option SchemaId}

/-- What has been loaded refers to what the document has. -/
theorem tapers_of_loaded (hs : Reachable document naming s) {p : Pointer}
    (hx : s.loaded.get? p = some x) : s.arena.Tapers x := by
  have hlawful := hs.lawful Arena.upheld_free hereditary_true trivial
  exact Arena.tapers_of_raw hlawful.arena.toWellFormed (hlawful.loaded p x hx).2

section Answers

variable (hd : document.Distinct) (hs : Reachable document naming s) (hx : x < s.arena.next)
  (htx : s.arena.Tapers x) (hp : s'.arena.Prompt)
include hd hs hx htx hp

theorem tapers_of_normalize (hrun : (normalize calls x).run s = (.ok (some n), s')) :
    s'.arena.Tapers n := by
  have hlawful := hs.lawful Arena.upheld_exclusion hereditary_distinct hd
  obtain ⟨⟨hlawful', hfollows⟩, hdone⟩ :=
    (keeps_normalize Arena.upheld_exclusion hlawful calls hx).of_ok hrun
  rw [← Arena.tapers_iff hlawful.arena.toWellFormed hfollows.arena hx] at htx
  exact Arena.tapers_of_done hlawful'.arena hp htx hdone

theorem tapers_of_conjoin (hy : y < s.arena.next) (hty : s.arena.Tapers y)
    (hrun : (conjoin calls x y).run s = (.ok (some n), s')) : s'.arena.Tapers n := by
  have hlawful := hs.lawful Arena.upheld_exclusion hereditary_distinct hd
  have hwf := hlawful.arena.toWellFormed
  obtain ⟨⟨hlawful', hfollows⟩, hjoined⟩ :=
    (keeps_conjoin Arena.upheld_exclusion hlawful calls hx hy).of_ok hrun
  rw [← Arena.tapers_iff hwf hfollows.arena hx] at htx
  rw [← Arena.tapers_iff hwf hfollows.arena hy] at hty
  exact Arena.tapers_of_joined hlawful'.arena hp hjoined htx hty

end Answers

/-- Whether two schemas have a conjunction does not depend on their order: of two answers, one for
    each order and the second one at any later time, both are none or neither is. The two are
    schemas that have been loaded, or normal forms and conjunctions of such, and no conjunction has
    been put off. -/
theorem conjoin_eq_none_comm (hd : document.Distinct) (hs : Reachable document naming s)
    (hx : x < s.arena.next) (hy : y < s.arena.next) (htx : s.arena.Tapers x)
    (hty : s.arena.Tapers y) (hxy : (conjoin calls x y).run s = (.ok r, s'))
    (hlater : Later document naming s' t) (hyx : (conjoin calls' y x).run t = (.ok r', t'))
    (hp : t'.arena.Prompt) : r = none ↔ r' = none := by
  have hL := Arena.upheld_exclusion
  have hlawful := hs.lawful hL hereditary_distinct hd
  have hwf := hlawful.arena.toWellFormed
  obtain ⟨⟨hlawful₁, hfollows₁⟩, hjoined⟩ := (keeps_conjoin hL hlawful calls hx hy).of_ok hxy
  obtain ⟨hlawful₂, hgrows₂⟩ := lawful_of_later hL hereditary_distinct hd hlawful₁ hlater
  have hst := hfollows₁.arena.trans hgrows₂
  have hlt : ∀ {z}, z < s.arena.next → z < t.arena.next := fun h => Nat.lt_of_lt_of_le h hst.next
  obtain ⟨⟨hlawful₃, hfollows₃⟩, hjoined'⟩ :=
    (keeps_conjoin hL hlawful₂ calls' (hlt hy) (hlt hx)).of_ok hyx
  -- both answers are told of the last arena
  have hst' := hst.trans hfollows₃.arena
  rw [← Arena.tapers_iff hwf hst' hx] at htx
  rw [← Arena.tapers_iff hwf hst' hy] at hty
  refine Arena.Joined.eq_none_comm hlawful₃.arena hp htx hty ?_ hjoined'
  exact hjoined.mono hlawful₁.arena.toWellFormed hlawful₃.arena.toWellFormed
    (hgrows₂.trans hfollows₃.arena)

/-- Two kinds of objects, with a text and with an integer for the same property. -/
def oppositeObjects : Json :=
  .obj [("texts", .obj [("type", .str "object"),
      ("properties", .obj [("x", .obj [("type", .str "string")])])]),
    ("integers", .obj [("type", .str "object"),
      ("properties", .obj [("x", .obj [("type", .str "integer")])])])]

def textsLoaded : Session :=
  ((answer oppositeObjects .marked 1 (.load (Pointer.root.push "texts"))).run .empty).2

/-- The session that has loaded both. -/
def oppositesLoaded : Session :=
  ((answer oppositeObjects .marked 1 (.load (Pointer.root.push "integers"))).run textsLoaded).2

theorem reachable_oppositesLoaded : Reachable oppositeObjects .marked oppositesLoaded :=
  .tail (.single (step_ask (.load (Pointer.root.push "texts")) 1 (by simp [Request.ids])))
    (step_ask (.load (Pointer.root.push "integers")) 1 (by simp [Request.ids]))

/-- Texts and integers have no conjunction, so the other way round there is none either. -/
theorem eq_none_of_opposites
    (hrun : (conjoin calls 2 0).run ((conjoin 4 0 2).run oppositesLoaded).2 = (.ok r, t))
    (hp : t.arena.Prompt) : r = none := by
  have hloaded : oppositesLoaded.loaded.get? (Pointer.root.push "texts") = some 0 ∧
      oppositesLoaded.loaded.get? (Pointer.root.push "integers") = some 2 := by decide +kernel
  have hfirst : (conjoin 4 0 2).run oppositesLoaded =
      (.ok none, ((conjoin 4 0 2).run oppositesLoaded).2) :=
    Work.run_eq_of_toOption (by decide +kernel)
  have hlt : 0 < oppositesLoaded.arena.next ∧ 2 < oppositesLoaded.arena.next := by decide +kernel
  exact (conjoin_eq_none_comm (by simp [oppositeObjects]) reachable_oppositesLoaded hlt.1 hlt.2
    (tapers_of_loaded reachable_oppositesLoaded hloaded.1)
    (tapers_of_loaded reachable_oppositesLoaded hloaded.2) hfirst .refl hrun hp).1 rfl

end Session

end ApiModel
