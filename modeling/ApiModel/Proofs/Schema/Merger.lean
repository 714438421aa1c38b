/-
  ApiModel.Proofs.Schema.Merger

  Conjunctions without alternatives. Where a schema leads to no alternatives and to no demands on
  unnamed properties, its normal form makes the demands of all that it combines, and names for each
  part what the child schemas there are merged into; so it can be put together again from the forms
  of what it combines, wherever these are met. What schemas lead to is a trait, so answers lead to no
  more than questions.
-/
import ApiModel.Proofs.Schema.Refutation
import ApiModel.Proofs.Schema.Trait

namespace ApiModel.Arena

open Relation (ReflTransGen)

variable {P : Json → Prop} {D : Demand} {a b t : Arena} {R : Set SchemaId}
  {x y z n m c d w i j k l id : SchemaId} {f : Facet} {s own : Schema} {ms : List SchemaId}

/-! ## What schemas lead to -/

/-- The schema leads to one that makes such a demand, or to one of the document that is not
    in `R`. -/
def Exhibits (D : Demand) (R : Set SchemaId) (a : Arena) (x : SchemaId) : Prop :=
  ∃ y, ReflTransGen a.Link x y ∧ (D.Holds (a.schema y) ∨ a.Raw y ∧ y ∉ R)

theorem Exhibits.head (hxy : a.Link x y) (h : Exhibits D R a y) : Exhibits D R a x := by
  obtain ⟨z, hyz, hz⟩ := h
  exact ⟨z, .head hxy hyz, hz⟩

theorem exhibits_iff (ha : a.WellFormed P) (h : Grows a b) (hx : x < a.next) :
    Exhibits D R b x ↔ Exhibits D R a x := by
  unfold Exhibits
  refine exists_congr fun y => ?_
  rw [reach_iff ha h.schema hx]
  refine and_congr_right fun hxy => ?_
  have hy := ha.reach_lt hx hxy
  rw [h.schema y hy, h.raw_iff hy]

/-- What was made leads to a demand because it makes it, or by what it refers to. -/
theorem exhibits_cases (hraw : ¬a.Raw n) (h : Exhibits D R a n) : D.Holds (a.schema n) ∨
    (∃ c, a.Nests n c ∧ Exhibits D R a c) ∨ ∃ m, a.Member n m ∧ Exhibits D R a m := by
  obtain ⟨y, hny, hy⟩ := h
  rcases ReflTransGen.cases_head hny with rfl | ⟨c, hnc, hcy⟩
  · exact .inl (hy.resolve_right fun h => hraw h.1)
  · exact .inr ((link_iff.1 hnc).imp (fun h => ⟨c, h, y, hcy, hy⟩) fun h => ⟨c, h, y, hcy, hy⟩)

/-- To lead to a demand. -/
def exhibiting (D : Demand) : Trait P where
  Index := Set SchemaId
  below R := R
  own _ := D
  Has := Exhibits D
  has_iff := exhibits_iff
  of_own h := ⟨_, .refl, .inl h⟩
  of_part hc h := h.head hc.link
  of_member hm h := h.head hm.link
  source _ := .inr fun _ => exhibits_cases

theorem inherited_exhibiting (D : Demand) (R : Set SchemaId) :
    (exhibiting (P := P) D).Inherited R :=
  fun _ => exhibits_cases

/-- To restrict unnamed properties is what a conjunction does only when a side does. -/
def confining : Demand where
  Holds s := ¬Unrestricted s.extras
  joined h hown := by
    rw [← not_and_or]
    exact fun hboth => hown (h.unrestricted hboth.1 hboth.2)
  trimmed {s} h := by
    obtain ⟨vs, hvs, -⟩ := trimValues_eq s
    rwa [hvs] at h
  base h := h
  branches _ h := .inl h
  kinds _ h := absurd (.inl rfl) h
  conjunction _ _ h := h (.inl rfl)

/-- Alternatives come of alternatives. -/
def alternating : Demand where
  Holds s := s.anyOf ≠ [] ∨ s.oneOf ≠ []
  joined h hown := by
    have hmembers := h.members
    simp only [Schema.members, List.append_eq_nil_iff] at hmembers
    exact absurd hown (not_or.2 ⟨not_not.2 hmembers.1.2, not_not.2 hmembers.2⟩)
  trimmed {s} h := by
    obtain ⟨vs, hvs, -⟩ := trimValues_eq s
    rwa [hvs] at h
  base h := absurd h (by simp [baseOf, Schema.withoutCombinators])
  branches hu _ := .inr hu
  kinds _ h := absurd h (by simp [kindsAlone, Schema.blank])
  conjunction _ _ := by simp [Schema.conjunction, Schema.blank]

/-- All that the schema leads to leaves unnamed properties alone, and is in `R` if it is of the
    document. -/
def Enclosed (R : Set SchemaId) (a : Arena) (x : SchemaId) : Prop := ¬Exhibits confining R a x

/-- Nothing that the schema leads to has alternatives. -/
def Unbranched (a : Arena) (x : SchemaId) : Prop :=
  ∀ y, ReflTransGen a.Link x y → (a.schema y).anyOf = [] ∧ (a.schema y).oneOf = []

/-- The schema is enclosed, and leads to no alternatives. -/
def Straight (R : Set SchemaId) (a : Arena) (x : SchemaId) : Prop :=
  ¬Exhibits (confining.or alternating) R a x

theorem Enclosed.straight (h : Enclosed R a x) (hx : a.Unbranched x) : Straight R a x := by
  rintro ⟨y, hxy, (hy | hy) | hy⟩
  · exact h ⟨y, hxy, .inl hy⟩
  · exact hy.elim (absurd (hx y hxy).1) (absurd (hx y hxy).2)
  · exact h ⟨y, hxy, .inr hy⟩

section Paths

variable (ha : a.WellFormed P)

theorem Enclosed.link (h : Enclosed R a x) (hxy : a.Link x y) : Enclosed R a y :=
  fun hy => h (hy.head hxy)

theorem Enclosed.unrestricted (h : Enclosed R a x) : Unrestricted (a.schema x).extras := by
  by_contra hno
  exact h ⟨x, .refl, .inl hno⟩

theorem Enclosed.mem (h : Enclosed R a x) (hx : a.Raw x) : x ∈ R := by
  by_contra hno
  exact h ⟨x, .refl, .inr ⟨hx, hno⟩⟩

theorem Straight.link (h : Straight R a x) (hxy : a.Link x y) : Straight R a y :=
  fun hy => h (hy.head hxy)

theorem Straight.enclosed (h : Straight R a x) : Enclosed R a x :=
  fun ⟨y, hxy, hy⟩ => h ⟨y, hxy, hy.imp_left .inl⟩

theorem Straight.anyOf (h : Straight R a x) : (a.schema x).anyOf = [] := by
  by_contra hne
  exact h ⟨x, .refl, .inl (.inr (.inl hne))⟩

include ha

theorem enclosed_iff (h : Grows a b) (hx : x < a.next) : Enclosed R b x ↔ Enclosed R a x :=
  not_congr (exhibits_iff ha h hx)

theorem straight_iff (h : Grows a b) (hx : x < a.next) : Straight R b x ↔ Straight R a x :=
  not_congr (exhibits_iff ha h hx)

/-- A conjunction that was put off is enclosed where its operands are. -/
theorem enclosed_of_operands {os : SortedSet SchemaId} (hops : a.operands.get? x = some os)
    (h : ∀ o ∈ os.elements, Enclosed R a o) : Enclosed R a x := by
  obtain ⟨-, p, hp⟩ := ha.operands x os hops
  rintro ⟨y, hxy, hy⟩
  rcases ReflTransGen.cases_head hxy with rfl | ⟨c, hxc, hcy⟩
  · rcases hy with hy | ⟨hraw, -⟩
    · exact hy (hp ▸ .inl rfl)
    · cases hraw.2.symm.trans hops
  · rw [Link, hp, Schema.links_conjunction] at hxc
    exact h c hxc ⟨y, hcy, hy⟩

theorem Enclosed.operand (h : Enclosed R a x) (hc : c ∈ (a.operandsOf x).elements) :
    Enclosed R a c := fun hexhibits =>
  h (Trait.of_mem_operandsOf (T := exhibiting confining) ha hc hexhibits)

end Paths

/-! ## Merging -/

/-- `w` asks for no more than `c` and `d` together, going by how it came about: it stands for some of
    what the two stand for, or its form is made of theirs. -/
inductive Merged (a : Arena) : SchemaId → SchemaId → SchemaId → Prop
  | union {c d w : SchemaId} (hc : c < a.next) (hd : d < a.next) (hw : w < a.next)
      (h : ∀ o ∈ (a.operandsOf w).elements,
        o ∈ (a.operandsOf c).elements ∨ o ∈ (a.operandsOf d).elements) : Merged a c d w
  | form {c d w i j n : SchemaId} (hc : a.progress.get? c = some (.done (some i)))
      (hd : a.progress.get? d = some (.done (some j)))
      (hw : a.progress.get? w = some (.done (some n))) (hi : (a.schema i).anyOf = [])
      (hj : (a.schema j).anyOf = [])
      (htight : ∀ s, Tighter s (a.schema i) → Tighter s (a.schema j) → Tighter s (a.schema n))
      (hleft : ∀ f u, (a.schema n).childFor f = some u → (a.schema j).childFor f = none →
        (a.schema i).childFor f = some u)
      (hright : ∀ f u, (a.schema n).childFor f = some u → (a.schema i).childFor f = none →
        (a.schema j).childFor f = some u)
      (hboth : ∀ f c d u, (a.schema i).childFor f = some c → (a.schema j).childFor f = some d →
        (a.schema n).childFor f = some u → Merged a c d u) : Merged a c d w

theorem Merged.lt (ha : a.WellFormed P) (h : Merged a c d w) : w < a.next := by
  cases h with
  | union _ _ hw _ => exact hw
  | form _ _ hw _ _ _ _ _ _ => exact ha.known _ _ hw

theorem merged_left (hc : c < a.next) (hd : d < a.next) : Merged a c d c :=
  .union hc hd hc fun _ ho => .inl ho

theorem merged_right (hc : c < a.next) (hd : d < a.next) : Merged a c d d :=
  .union hc hd hd fun _ ho => .inr ho

theorem Merged.mono (ha : a.WellFormed P) (h : Grows a b) (hm : Merged a c d w) :
    Merged b c d w := by
  induction hm with
  | union hc hd hw hops =>
      refine .union (Nat.lt_of_lt_of_le hc h.next) (Nat.lt_of_lt_of_le hd h.next)
        (Nat.lt_of_lt_of_le hw h.next) ?_
      rwa [operandsOf_of_grows h hw, operandsOf_of_grows h hc, operandsOf_of_grows h hd]
  | form hx hy hw hi hj htight hleft hright _ ih =>
      have hs : ∀ {x i}, a.progress.get? x = some (.done (some i)) →
          b.schema i = a.schema i := fun hx => h.schema _ (ha.isForm_lt (ha.form _ _ hx))
      refine .form (h.done _ _ hx) (h.done _ _ hy) (h.done _ _ hw) ?_ ?_ ?_ ?_ ?_ ?_
      all_goals simp only [hs hx, hs hy, hs hw]
      · exact hi
      · exact hj
      · exact htight
      · exact hleft
      · exact hright
      · exact ih

/-- What the forms of two schemas are merged into, the schemas are. -/
theorem Merged.of_forms (ha : a.WellFormed P) (h : Merged a x y n) (hn : a.IsForm n)
    (hc : a.progress.get? c = some (.done (some x)))
    (hd : a.progress.get? d = some (.done (some y))) (hnx : n ≠ x) (hny : n ≠ y) :
    Merged a c d n := by
  have hself : ∀ {z}, a.IsForm z → (a.operandsOf z).elements = [z] := fun hz =>
    mem_operandsOf_self (operands_of_isForm ha hz)
  have hx := ha.form _ _ hc
  have hy := ha.form _ _ hd
  cases h with
  | union _ _ _ hops =>
      rw [hself hn, hself hx, hself hy] at hops
      simp [hnx, hny] at hops
  | form hx' hy' hw hi hj htight hleft hright hboth =>
      cases hx.symm.trans hx'
      cases hy.symm.trans hy'
      exact .form hc hd hw hi hj htight hleft hright hboth

/-- The form `n` is made of `own` and the forms of the schemas `ms`, one after the other. -/
inductive Composed (R : Set SchemaId) (a : Arena) : SchemaId → List SchemaId → SchemaId → Prop
  | nil {own : SchemaId} : Composed R a own [] own
  | cons {own m j k n : SchemaId} {ms : List SchemaId}
      (hm : a.progress.get? m = some (.done (some j))) (h : Merged a own j k) (hk : a.IsForm k)
      (hs : Straight R a k) (hr : Composed R a k ms n) : Composed R a own (m :: ms) n

theorem Composed.mono {own : SchemaId} (ha : a.WellFormed P) (h : Grows a b)
    (hc : Composed R a own ms n) : Composed R b own ms n := by
  induction hc with
  | nil => exact .nil
  | cons hm hmerged hk hs _ ih =>
      exact .cons (h.done _ _ hm) (hmerged.mono ha h) (h.form hk)
        ((straight_iff ha h (ha.isForm_lt hk)).2 hs) ih

/-! ## The law -/

/-- The conjunction of straight schemas merges them, one after the other if it was put off. -/
def merging (R : Set SchemaId) : Law Json.Distinct where
  form a id r := (exhibiting (confining.or alternating)).law.form a id r ∧
    ∀ n os, r = some n → a.operands.get? id = some os → (a.schema id).soleChild? = none →
      Straight R a id → ∃ base, a.IsForm base ∧ (a.schema base).isUnconstrained = true ∧
        Composed R a base os.elements n
  both a x y r := (exhibiting (confining.or alternating)).law.both a x y r ∧
    ∀ n, r = some n → Straight R a x → Straight R a y → Merged a x y n
  form_mono ha hb h hid hr hlaw := by
    refine ⟨(exhibiting _).law.form_mono ha hb h hid hr hlaw.1, fun n os hn hos hsole hs => ?_⟩
    rw [h.operands _ hid] at hos
    rw [h.schema _ hid] at hsole
    rw [straight_iff ha h hid] at hs
    obtain ⟨base, hbase, hfree, hcomposed⟩ := hlaw.2 n os hn hos hsole hs
    exact ⟨base, h.form hbase, by rwa [h.schema _ (ha.isForm_lt hbase)],
      hcomposed.mono ha h⟩
  both_mono ha hb h hx hy hr hlaw := by
    refine ⟨(exhibiting _).law.both_mono ha hb h hx hy hr hlaw.1, fun n hn hsx hsy => ?_⟩
    rw [straight_iff ha h (ha.isForm_lt hx)] at hsx
    rw [straight_iff ha h (ha.isForm_lt hy)] at hsy
    exact (hlaw.2 n hn hsx hsy).mono ha h
  form_self ha hn := by
    refine ⟨(exhibiting _).law.form_self ha hn, fun _ _ _ hos => ?_⟩
    cases (operands_of_isForm ha hn).symm.trans hos
  both_self ha hn := by
    refine ⟨(exhibiting _).law.both_self ha hn, fun m hm _ _ => ?_⟩
    cases hm
    exact merged_left (ha.isForm_lt hn) (ha.isForm_lt hn)

theorem entails_merging (R : Set SchemaId) :
    (merging R).Entails (exhibiting (confining.or alternating)).law :=
  ⟨fun h => h.1, fun h => h.1⟩

section Law

variable (ht : t.Lawful (merging R))
include ht

theorem lawful_exhibiting :
    t.Lawful (exhibiting (P := Json.Distinct) (confining.or alternating)).law :=
  ht.imp (entails_merging R)

theorem straight_of_done (hx : t.progress.get? x = some (.done (some n))) (h : Straight R t x) :
    Straight R t n := fun hn =>
  h (Trait.has_of_done (T := exhibiting _) (lawful_exhibiting ht) hx hn)

theorem Joined.straight (hj : Joined (merging R) t x y (some n)) (hx : Straight R t x)
    (hy : Straight R t y) : Straight R t n := fun hn =>
  (Trait.of_joined (T := exhibiting _) (lawful_exhibiting ht) (hj.imp (entails_merging R)) hn).elim
    hx hy

/-- What two straight child schemas come to merges them. -/
theorem ChildJoined.merged (hj : ChildJoined (merging R) t c d (some z)) (hc : c < t.next)
    (hd : d < t.next) (hsc : Straight R t c) (hsd : Straight R t d) : Merged t c d z := by
  have hwf := ht.toWellFormed
  generalize hr : some z = r at hj
  cases hj with
  | same _ =>
      cases hr
      exact merged_left hc hd
  | single hz =>
      cases hr
      have hmem : z ∈ (t.operandsOf c).elements ∨ z ∈ (t.operandsOf d).elements :=
        SortedSet.mem_union.1 (by simp [hz])
      have hops : t.operands.get? z = none :=
        hmem.elim (operands_of_mem_operandsOf hwf) (operands_of_mem_operandsOf hwf)
      refine .union hc hd (hmem.elim (operandsOf_lt hwf hc z) (operandsOf_lt hwf hd z)) fun o ho => ?_
      rw [mem_operandsOf_self hops, List.mem_singleton] at ho
      exact ho ▸ hmem
  | putOff hz =>
      cases hr
      refine .union hc hd (hwf.operands z _ hz).1 fun o ho => ?_
      rw [operandsOf, hz, Option.getD_some] at ho
      exact SortedSet.mem_union.1 ho
  | unmatched _ _ _ _ => cases hr
  | joined _ hnc hnd hjoined =>
      obtain ⟨n, rfl, hn⟩ := Option.map_eq_some_iff.1 hr.symm
      -- where the result is the form of one of the two, that one stands for it
      split at hn
      · exact hn ▸ merged_left hc hd
      · next hne =>
          split at hn
          · exact hn ▸ merged_right hc hd
          · next hne' =>
              have hmerged := (hjoined.both_of_isForm (hwf.form _ _ hnc) (hwf.form _ _ hnd)).2 n
                rfl (straight_of_done ht hnc hsc) (straight_of_done ht hnd hsd)
              exact hn ▸ hmerged.of_forms hwf hjoined.isForm hnc hnd hne hne'

theorem merged_of_bothJoined (hj : BothJoined (merging R) t x y (some n)) (hfx : t.IsForm x)
    (hfy : t.IsForm y) (hx : Straight R t x) (hy : Straight R t y) : Merged t x y n := by
  have hwf := ht.toWellFormed
  have hlx := hwf.isForm_lt hfx
  have hly := hwf.isForm_lt hfy
  have hnone : ¬((t.schema x).anyOf ≠ [] ∨ (t.schema y).anyOf ≠ []) :=
    not_or.2 ⟨not_not.2 hx.anyOf, not_not.2 hy.anyOf⟩
  generalize hr : some n = r at hj
  -- neither has alternatives to cross, so their own demands are merged
  cases hj with
  | rightFree _ => cases hr; exact merged_left hlx hly
  | leftFree _ _ => cases hr; exact merged_right hlx hly
  | itemsClash _ _ => cases hr
  | propertyClash _ _ _ => cases hr
  | noBranch _ _ _ => cases hr
  | oneBranch hany _ _ _ => exact absurd hany hnone
  | branches hany _ _ _ _ _ => exact absurd hany hnone
  | plain hown _ _ hreused _ _ =>
      cases hreused with
      | left _ => cases hr; exact merged_left hlx hly
      | right _ _ => cases hr; exact merged_right hlx hly
      | stored hstored _ =>
          obtain ⟨hn, hs⟩ : t.IsForm n ∧ t.schema n = trimValues _ := by
            cases hr ▸ hstored with
            | stored _ hn hs => exact ⟨hn, hs⟩
          have hchild : ∀ {f u}, (t.schema n).childFor f = some u →
              FacetJoined (merging R) t (t.schema x) (t.schema y) f u := fun hu =>
            hown.facet hx.enclosed.unrestricted hy.enclosed.unrestricted
              (by rwa [hs, childFor_trimValues] at hu)
          refine .form hfx hfy hn hx.anyOf hy.anyOf (fun s hsx hsy => ?_) (fun f u hu hnone => ?_)
            (fun f u hu hnone => ?_) fun f c d u hc hd hu => ?_
          · rw [hs]
            exact ((hown.tighter_iff (ht.proper x) (ht.proper y)).2 ⟨hsx, hsy⟩).trans
              tighter_trimValues.2
          · cases hchild hu with
            | both _ hd _ => cases hnone.symm.trans hd
            | left hc _ => exact hc
            | right _ hd => cases hnone.symm.trans hd
          · cases hchild hu with
            | both hc _ _ => cases hnone.symm.trans hc
            | left hc _ => cases hnone.symm.trans hc
            | right _ hd => exact hd
          · have hlc := mem_links_of_childFor hc
            have hld := mem_links_of_childFor hd
            cases hchild hu with
            | both hc' hd' hz =>
                cases hc.symm.trans hc'
                cases hd.symm.trans hd'
                exact hz.merged ht ((ht.proper x).links _ hlc) ((ht.proper y).links _ hld)
                  (hx.link hlc) (hy.link hld)
            | left _ hnone => cases hnone.symm.trans hd
            | right hnone _ => cases hnone.symm.trans hc

theorem AllJoined.composed {own : SchemaId} (hj : AllJoined (merging R) t own ms (some n))
    (hform : t.IsForm own) (hown : Straight R t own) (hms : ∀ m ∈ ms, Straight R t m) :
    Composed R t own ms n := by
  have hwf := ht.toWellFormed
  generalize hr : some n = r at hj
  induction hj with
  | nil => cases hr; exact .nil
  | clash _ => cases hr
  | @cons own m k ms _ hm _ ih =>
      have hsm := hms m (by simp)
      have hk := hm.isForm
      have hsk := hm.straight ht hown hsm
      have hrest := ih hk hsk (fun m hm => hms m (by simp [hm])) hr
      cases hm with
      | forms hnx hny _ _ hlaw =>
          cases hform.symm.trans hnx
          exact .cons hny (hlaw.2 k rfl hown (straight_of_done ht hny hsm)) hk hsk hrest

end Law

theorem upheld_merging (R : Set SchemaId) : Upheld (merging R) where
  form {a id r} ha hlt hj := by
    have hwf := ha.toWellFormed
    refine ⟨(exhibiting _).upheld.form (lawful_exhibiting ha) hlt (hj.imp (entails_merging R)), ?_⟩
    rintro n os rfl hos hsole hs
    obtain ⟨-, p, hp⟩ := hwf.operands id os hos
    generalize hr : some n = r at hj
    cases hj with
    | bottom _ => cases hr
    | narrowed hc _ => cases hsole.symm.trans hc
    | noBase _ _ => cases hr
    | allClash _ _ _ => cases hr
    | @alternatives base own _ _ hstored hall halt =>
        have hbase : Straight R a base := fun hno => hs (Trait.Shows.has (Trait.shows_baseOf
          (Trait.of_stored (T := exhibiting _) (inherited_exhibiting _ R) hwf hstored hno)))
        have hfbase := hstored.isForm
        rw [hp] at hstored hall halt
        have hown : n = own := by
          cases halt with
          | neither _ _ => exact Option.some.inj hr
          | anyClash hany _ => exact absurd rfl hany
          | oneClash hone _ => exact absurd rfl hone
          | any hany _ _ _ => exact absurd rfl hany
          | one _ hone _ _ => exact absurd rfl hone
          | both hany _ _ _ _ _ => exact absurd rfl hany
        subst hown
        refine ⟨base, hfbase, ?_, hall.composed ha hfbase hbase fun m hm =>
          hs.link (Member.link (by rw [Member, hp]; simpa [Schema.members] using .inl hm))⟩
        cases hstored with
        | stored _ _ hschema => rw [hschema]; rfl
  both {a x y r} ha hfx hfy hne hj := by
    refine ⟨(exhibiting _).upheld.both (lawful_exhibiting ha) hfx hfy hne
      (hj.imp (entails_merging R)), ?_⟩
    rintro n rfl hx hy
    exact merged_of_bothJoined ha hj hfx hfy hx hy

end ApiModel.Arena
