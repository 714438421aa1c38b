/-
  ApiModel.Proofs.Schema.Exclusion

  Schemas that exclude each other. That two normal forms have no conjunction is for one of a few
  reasons: they leave nothing together, child schemas that speak for the same part have no
  conjunction, or every alternative of one excludes every one of the other. Where they have one, none
  of these reasons holds of them, and it does not matter which of the two comes first.
-/
import ApiModel.Proofs.Schema.Overlap

namespace ApiModel

namespace Arena

variable {P : Json → Prop} {a b t : Arena} {x y n c d : SchemaId} {s u own : Schema} {k : String}
  {r : Option SchemaId}

/-! ## Child schemas for one part -/

/-- The child schemas `c` and `d` speak for a part that one of the schemas names, so they have to
    match it together. -/
inductive Coupled (s u : Schema) : SchemaId → SchemaId → Prop
  | items {c d : SchemaId} (hc : s.items = some c) (hd : u.items = some d) : Coupled s u c d
  | property {k : String} {c d : SchemaId}
      (hk : s.properties.contains k = true ∨ u.properties.contains k = true)
      (hc : speaker? s k = some c) (hd : speaker? u k = some d) : Coupled s u c d

theorem Coupled.symm (h : Coupled s u c d) : Coupled u s d c := by
  cases h with
  | items hc hd => exact .items hd hc
  | property hk hc hd => exact .property hk.symm hd hc

/-- One schema has one child schema for each part. -/
theorem Coupled.eq_of_self (h : Coupled s s c d) : c = d := by
  cases h with
  | items hc hd => exact Option.some.inj (hc.symm.trans hd)
  | property _ hc hd => exact Option.some.inj (hc.symm.trans hd)

theorem mem_parts_of_speaker? (h : speaker? s k = some c) : c ∈ s.parts := by
  rcases Option.or_eq_some_iff.1 h with hc | ⟨-, hc⟩
  · exact Schema.mem_parts_of_property hc
  · exact Schema.mem_parts_of_extras (extraSchema?_eq_some.1 hc)

theorem Coupled.mem_links (h : Coupled s u c d) : c ∈ s.links ∧ d ∈ u.links := by
  cases h with
  | items hc hd => exact ⟨Schema.mem_links_of_items hc, Schema.mem_links_of_items hd⟩
  | property _ hc hd =>
      exact ⟨Schema.mem_links_of_part (mem_parts_of_speaker? hc),
        Schema.mem_links_of_part (mem_parts_of_speaker? hd)⟩

/-- A schema that demands nothing has no child schemas. -/
theorem Coupled.not_isUnconstrained (h : Coupled s u c d) (hkeys : u.properties.keys.Nodup) :
    u.isUnconstrained ≠ true := fun hfree => by
  have hu := sameShape_of_isUnconstrained hfree hkeys
  cases h with
  | items _ hd =>
      rw [hu.items] at hd
      cases hd
  | property _ _ hd =>
      rw [speaker?, hu.properties, extraSchema?, hu.extras] at hd
      cases hd

section Joined

variable {L : Law P}

/-- The conjunction of a property is that of the child schemas that speak for it. -/
theorem PropertyJoined.child (h : PropertyJoined L t s u k r) (hc : speaker? s k = some c)
    (hd : speaker? u k = some d) : ChildJoined L t c d r := by
  unfold speaker? at hc hd
  cases h with
  | both hx hy hr =>
      rw [hx, Option.some_or] at hc
      rw [hy, Option.some_or] at hd
      cases hc
      cases hd
      exact hr
  | leftExtra hx hk he hr =>
      rw [hx, Option.some_or] at hc
      rw [hk, Option.none_or, extraSchema?_eq_some.2 he] at hd
      cases hc
      cases hd
      exact hr
  | left _ hk he =>
      rw [hk, Option.none_or, he] at hd
      cases hd
  | rightExtra hk hy he hr =>
      rw [hk, Option.none_or, extraSchema?_eq_some.2 he] at hc
      rw [hy, Option.some_or] at hd
      cases hc
      cases hd
      exact hr
  | right hk _ he =>
      rw [hk, Option.none_or, he] at hc
      cases hc

/-- A property that nothing can match has a speaker on each side. -/
theorem PropertyJoined.coupled (h : PropertyJoined L t s u k none) :
    ∃ c d, Coupled s u c d ∧ ChildJoined L t c d none := by
  have hspeakers : ∃ c d, speaker? s k = some c ∧ speaker? u k = some d ∧
      (s.properties.contains k = true ∨ u.properties.contains k = true) := by
    unfold speaker?
    cases h with
    | both hx hy _ =>
        exact ⟨_, _, by rw [hx, Option.some_or], by rw [hy, Option.some_or],
          .inl (Dict.contains_of_get? hx)⟩
    | leftExtra hx hk he _ =>
        exact ⟨_, _, by rw [hx, Option.some_or],
          by rw [hk, Option.none_or, extraSchema?_eq_some.2 he], .inl (Dict.contains_of_get? hx)⟩
    | rightExtra hk hy he _ =>
        exact ⟨_, _, by rw [hk, Option.none_or, extraSchema?_eq_some.2 he],
          by rw [hy, Option.some_or], .inr (Dict.contains_of_get? hy)⟩
  obtain ⟨c, d, hc, hd, hk⟩ := hspeakers
  exact ⟨c, d, .property hk hc hd, h.child hc hd⟩

theorem ItemsJoined.coupled (h : ItemsJoined L t s u none) :
    ∃ c d, Coupled s u c d ∧ ChildJoined L t c d none := by
  generalize hr : (none : Option (Option SchemaId)) = o at h
  cases h with
  | @both c d z hc hd hz =>
      cases z with
      | none => exact ⟨c, d, .items hc hd, hz⟩
      | some z => cases hr
  | one _ => cases hr

/-- Where a schema is closed, it has no speaker for a property that it does not name. -/
theorem contains_of_isClosed (hc : speaker? s k = some c) (hclosed : isClosed s = true) :
    s.properties.contains k = true := by
  rcases Option.or_eq_some_iff.1 hc with hc | ⟨-, hc⟩
  · exact Dict.contains_of_get? hc
  · cases (extraSchema?_eq_some.1 hc).symm.trans (extras_of_isClosed hclosed)

/-- All coupled child schemas of a conjunction have one. -/
theorem OwnJoined.child (h : OwnJoined L t s u own) (hcd : Coupled s u c d) :
    ∃ z, ChildJoined L t c d (some z) := by
  cases h with
  | @mk _ i _ _ _ hi _ hp =>
      cases hcd with
      | items hc hd =>
          generalize hr : some i = o at hi
          cases hi with
          | @both _ _ z hc' hd' hz =>
              cases hc.symm.trans hc'
              cases hd.symm.trans hd'
              cases z with
              | none => cases hr
              | some z => exact ⟨z, hz⟩
          | one hone =>
              rcases hone with h | h
              · cases hc.symm.trans h
              · cases hd.symm.trans h
      | property hk hc hd =>
          obtain ⟨z, -, hz⟩ := hp.named
            (mem_mergedKeys.2 ⟨hk, contains_of_isClosed hc, contains_of_isClosed hd⟩)
          exact ⟨z, hz.child hc hd⟩

end Joined

/-! ## Reasons for and against a conjunction -/

/-- Why two normal forms have no conjunction. -/
inductive Excludes (a : Arena) : SchemaId → SchemaId → Prop
  | demands {x y : SchemaId} (hx : (a.schema x).anyOf = []) (hy : (a.schema y).anyOf = [])
      (h : ¬Overlap (a.schema x) (a.schema y)) : Excludes a x y
  | unmatched {x y c d : SchemaId} {fc fd : Option SchemaId}
      (hcd : Coupled (a.schema x) (a.schema y) c d) (hne : c ≠ d)
      (hc : a.progress.get? c = some (.done fc)) (hd : a.progress.get? d = some (.done fd))
      (h : fc = none ∨ fd = none) : Excludes a x y
  | child {x y c d nc nd : SchemaId} (hcd : Coupled (a.schema x) (a.schema y) c d) (hne : c ≠ d)
      (hc : a.progress.get? c = some (.done (some nc)))
      (hd : a.progress.get? d = some (.done (some nd))) (h : Excludes a nc nd) : Excludes a x y
  | branches {x y : SchemaId} (hany : (a.schema x).anyOf ≠ [] ∨ (a.schema y).anyOf ≠ [])
      (h : ∀ l ∈ a.sides x, ∀ r ∈ a.sides y, Excludes a l r) : Excludes a x y

/-- The coupled child schemas of two schemas have normal forms. -/
def Matched (a : Arena) (x y : SchemaId) : Prop :=
  ∀ c d, Coupled (a.schema x) (a.schema y) c d → c ≠ d → ∃ nc nd,
    a.progress.get? c = some (.done (some nc)) ∧ a.progress.get? d = some (.done (some nd))

/-- What two normal forms with a conjunction are to each other. -/
inductive Compatible (a : Arena) : SchemaId → SchemaId → Prop
  | same (x : SchemaId) : Compatible a x x
  | leftFree {x y : SchemaId} (h : (a.schema x).isUnconstrained = true) : Compatible a x y
  | rightFree {x y : SchemaId} (h : (a.schema y).isUnconstrained = true) : Compatible a x y
  | plain {x y : SchemaId} (hx : (a.schema x).anyOf = []) (hy : (a.schema y).anyOf = [])
      (h : Overlap (a.schema x) (a.schema y)) (hmatched : a.Matched x y)
      (hchild : ∀ c d nc nd, Coupled (a.schema x) (a.schema y) c d → c ≠ d →
        a.progress.get? c = some (.done (some nc)) → a.progress.get? d = some (.done (some nd)) →
        Compatible a nc nd) : Compatible a x y
  | branch {x y l r : SchemaId} (hany : (a.schema x).anyOf ≠ [] ∨ (a.schema y).anyOf ≠ [])
      (hl : l ∈ a.sides x) (hr : r ∈ a.sides y) (h : Compatible a l r) (hmatched : a.Matched x y)
      (hchild : ∀ c d nc nd, Coupled (a.schema x) (a.schema y) c d → c ≠ d →
        a.progress.get? c = some (.done (some nc)) → a.progress.get? d = some (.done (some nd)) →
        Compatible a nc nd) : Compatible a x y

theorem sides_of_grows (ha : a.WellFormed P) (h : Grows a b) (hx : a.IsForm x) :
    b.sides x = a.sides x := by
  unfold sides
  rw [h.schema x (ha.isForm_lt hx)]

theorem Excludes.mono (ha : a.WellFormed P) (h : Grows a b) (hxy : a.Excludes x y)
    (hx : a.IsForm x) (hy : a.IsForm y) : b.Excludes x y := by
  have hs : ∀ {z}, a.IsForm z → b.schema z = a.schema z := fun hz => h.schema _ (ha.isForm_lt hz)
  induction hxy with
  | demands hanyx hanyy hno =>
      rw [← hs hx] at hanyx hno
      rw [← hs hy] at hanyy hno
      exact .demands hanyx hanyy hno
  | unmatched hcd hne hc hd hnone =>
      rw [← hs hx, ← hs hy] at hcd
      exact .unmatched hcd hne (h.done _ _ hc) (h.done _ _ hd) hnone
  | child hcd hne hc hd _ ih =>
      rw [← hs hx, ← hs hy] at hcd
      exact .child hcd hne (h.done _ _ hc) (h.done _ _ hd)
        (ih (ha.form _ _ hc) (ha.form _ _ hd))
  | branches hany _ ih =>
      rw [← hs hx, ← hs hy] at hany
      refine .branches hany fun l hl r hr => ?_
      rw [sides_of_grows ha h hx] at hl
      rw [sides_of_grows ha h hy] at hr
      exact ih l hl r hr (isForm_of_mem_sides ha hx l hl) (isForm_of_mem_sides ha hy r hr)

theorem Matched.mono (ha : a.WellFormed P) (h : Grows a b) (hxy : a.Matched x y)
    (hx : a.IsForm x) (hy : a.IsForm y) : b.Matched x y := by
  intro c d hcd hne
  rw [h.schema x (ha.isForm_lt hx), h.schema y (ha.isForm_lt hy)] at hcd
  obtain ⟨nc, nd, hc, hd⟩ := hxy c d hcd hne
  exact ⟨nc, nd, h.done _ _ hc, h.done _ _ hd⟩

/-- What holds of the normal forms of coupled child schemas goes over to a later arena, since these
    forms were there before. -/
theorem Matched.forms_of_grows {R R' : SchemaId → SchemaId → Prop} (ha : a.WellFormed P)
    (h : Grows a b) (hxy : a.Matched x y) (hx : a.IsForm x) (hy : a.IsForm y)
    (hR : ∀ nc nd, a.IsForm nc → a.IsForm nd → R nc nd → R' nc nd)
    (hforms : ∀ c d nc nd, Coupled (a.schema x) (a.schema y) c d → c ≠ d →
      a.progress.get? c = some (.done (some nc)) → a.progress.get? d = some (.done (some nd)) →
      R nc nd) {c d nc nd : SchemaId} (hcd : Coupled (b.schema x) (b.schema y) c d) (hne : c ≠ d)
    (hc : b.progress.get? c = some (.done (some nc)))
    (hd : b.progress.get? d = some (.done (some nd))) : R' nc nd := by
  rw [h.schema x (ha.isForm_lt hx), h.schema y (ha.isForm_lt hy)] at hcd
  obtain ⟨mc, md, hc', hd'⟩ := hxy c d hcd hne
  cases hc.symm.trans (h.done _ _ hc')
  cases hd.symm.trans (h.done _ _ hd')
  exact hR nc nd (ha.form _ _ hc') (ha.form _ _ hd') (hforms c d nc nd hcd hne hc' hd')

theorem Compatible.mono (ha : a.WellFormed P) (h : Grows a b) (hxy : a.Compatible x y)
    (hx : a.IsForm x) (hy : a.IsForm y) : b.Compatible x y := by
  have hs : ∀ {z}, a.IsForm z → b.schema z = a.schema z := fun hz => h.schema _ (ha.isForm_lt hz)
  induction hxy with
  | same x => exact .same x
  | leftFree hfree => exact .leftFree (hs hx ▸ hfree)
  | rightFree hfree => exact .rightFree (hs hy ▸ hfree)
  | plain hanyx hanyy hown hmatched _ ih =>
      exact .plain (hs hx ▸ hanyx) (hs hy ▸ hanyy) (hs hx ▸ hs hy ▸ hown)
        (hmatched.mono ha h hx hy) fun c d nc nd hcd hne hc hd =>
          hmatched.forms_of_grows ha h hx hy (fun _ _ hnc hnd hR => hR hnc hnd) ih hcd hne hc hd
  | branch hany hl hr _ hmatched _ ihlr ih =>
      have hlr := ihlr (isForm_of_mem_sides ha hx _ hl) (isForm_of_mem_sides ha hy _ hr)
      rw [← sides_of_grows ha h hx] at hl
      rw [← sides_of_grows ha h hy] at hr
      exact .branch (hs hx ▸ hs hy ▸ hany) hl hr hlr (hmatched.mono ha h hx hy)
        fun c d nc nd hcd hne hc hd =>
          hmatched.forms_of_grows ha h hx hy (fun _ _ hnc hnd hR => hR hnc hnd) ih hcd hne hc hd

/-! ## The reasons contradict each other -/

/-- A normal form leaves something. -/
theorem viable_of_isForm (ha : a.WellFormed Json.Distinct) (hn : a.IsForm n) :
    Viable (a.schema n) := by
  have hnormal := (ha.normal n hn).1
  refine (isBottom_trimValues_iff (ha.proper n)).1 ?_
  rw [trimValues_of_isNormal hnormal]
  exact hnormal.satisfiable

/-- A normal form is one of its alternatives, or has some. -/
theorem exists_mem_sides (a : Arena) (x : SchemaId) : ∃ l, l ∈ a.sides x := by
  unfold sides
  split
  · exact ⟨x, List.mem_singleton_self x⟩
  · next h => exact List.exists_mem_of_ne_nil _ fun hnil => h (List.isEmpty_iff.2 hnil)

theorem mem_sides_self (h : (a.schema x).anyOf = []) : x ∈ a.sides x := by simp [sides, h]

theorem anyOf_of_isUnconstrained (h : (a.schema x).isUnconstrained = true) :
    (a.schema x).anyOf = [] := (Schema.isUnconstrained_iff.1 h).anyOf

/-- Normal forms that exclude each other are not compatible the other way round either. -/
theorem Excludes.not_compatible (ha : a.WellFormed Json.Distinct) (h : a.Excludes x y)
    (hx : a.IsForm x) (hy : a.IsForm y) : ¬a.Compatible y x := by
  have hkeys := fun z => (ha.proper z).keys
  induction h with
  | @demands x y hanyx hanyy hno =>
      refine fun hc => hno ?_
      cases hc with
      | same _ => exact (viable_of_isForm ha hx).overlap (.refl _) (.refl _)
      | leftFree hfree =>
          exact (viable_of_isForm ha hx).overlap (.refl _) (tighter_of_isUnconstrained hfree)
      | rightFree hfree =>
          exact (viable_of_isForm ha hy).overlap (tighter_of_isUnconstrained hfree) (.refl _)
      | plain _ _ hown _ _ => exact hown.symm
      | branch hany _ _ _ _ _ => exact absurd hanyy (hany.resolve_right fun h => h hanyx)
  | unmatched hcd hne hc hd hnone =>
      have hmatch : ¬a.Matched _ _ := fun hm => by
        obtain ⟨nd, nc, hd', hc'⟩ := hm _ _ hcd.symm hne.symm
        cases hc.symm.trans hc'
        cases hd.symm.trans hd'
        rcases hnone with h | h <;> cases h
      intro hyx
      cases hyx with
      | same _ => exact hne hcd.eq_of_self
      | leftFree hfree => exact hcd.not_isUnconstrained (hkeys _) hfree
      | rightFree hfree => exact hcd.symm.not_isUnconstrained (hkeys _) hfree
      | plain _ _ _ hm _ => exact hmatch hm
      | branch _ _ _ _ hm _ => exact hmatch hm
  | child hcd hne hc hd _ ih =>
      have hchild := ih (ha.form _ _ hc) (ha.form _ _ hd)
      intro hyx
      cases hyx with
      | same _ => exact hne hcd.eq_of_self
      | leftFree hfree => exact hcd.not_isUnconstrained (hkeys _) hfree
      | rightFree hfree => exact hcd.symm.not_isUnconstrained (hkeys _) hfree
      | plain _ _ _ _ h => exact hchild (h _ _ _ _ hcd.symm hne.symm hd hc)
      | branch _ _ _ _ _ h => exact hchild (h _ _ _ _ hcd.symm hne.symm hd hc)
  | @branches x y hany _ ih =>
      have hpair : ∀ l ∈ a.sides x, ∀ r ∈ a.sides y, ¬a.Compatible r l := fun l hl r hr =>
        ih l hl r hr (isForm_of_mem_sides ha hx l hl) (isForm_of_mem_sides ha hy r hr)
      intro hyx
      cases hyx with
      | same _ =>
          obtain ⟨l, hl⟩ := exists_mem_sides a x
          exact hpair l hl l hl (.same l)
      | leftFree hfree =>
          obtain ⟨l, hl⟩ := exists_mem_sides a x
          exact hpair l hl y (mem_sides_self (anyOf_of_isUnconstrained hfree)) (.leftFree hfree)
      | rightFree hfree =>
          obtain ⟨r, hr⟩ := exists_mem_sides a y
          exact hpair x (mem_sides_self (anyOf_of_isUnconstrained hfree)) r hr (.rightFree hfree)
      | plain hanyy hanyx _ _ _ => exact absurd hanyx (hany.resolve_right fun h => h hanyy)
      | branch _ hl hr h _ _ => exact hpair _ hr _ hl h

end Arena

end ApiModel
