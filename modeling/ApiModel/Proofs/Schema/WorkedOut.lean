/-
  ApiModel.Proofs.Schema.WorkedOut

  Conjunctions that were put off and have been worked out since. When those that a schema leads to
  have normal forms, or are parts of such that have, nothing that was put off hides a contradiction:
  a schema of the document with a normal form belongs to a bundle that cannot be refuted. The ends of
  normal forms show this: each answers a bundle, and for a disputed part of that bundle there is
  another end, which covers all that is named for the part. What is part of something bigger may have
  a normal form of its own; an end of the bigger one heeds it because it is merged of what the end
  heeds, which alternatives would break, as some may have been dropped in the one form only.
-/
import ApiModel.Proofs.Schema.Attestation
import ApiModel.Proofs.Schema.Sharing

namespace ApiModel.Arena

variable {P : Json → Prop} {κ : Contents} {ℓ : SchemaId → SchemaId} {a : Arena}
  {R W : Set SchemaId} {x y z c d w i j l n id : SchemaId}

/-- The schema has been found to have a normal form. -/
def HasForm (a : Arena) (x : SchemaId) : Prop := ∃ n, a.progress.get? x = some (.done (some n))

/-- The conjunctions put off within `R` have been worked out: each is part of one that has a
    normal form, and one that has a normal form and leads to alternatives is not part of another
    one. -/
structure WorkedOut (R : Set SchemaId) (a : Arena) : Prop where
  formed : ∀ x, a.operands.get? x ≠ none → Enclosed R a x →
    ∃ y, a.PartOf x y ∧ Enclosed R a y ∧ a.HasForm y
  whole : ∀ x y, a.operands.get? x ≠ none → a.HasForm x → Enclosed R a y → a.PartOf x y →
    x = y ∨ a.Unbranched x

/-- A conjunction that was put off stands for several schemas. -/
theorem several_of_shares (h : a.Shares) : a.Several := by
  intro x os hos
  have hdeferred := h.mirrored os x hos
  have hasc := h.ascending os x hdeferred
  have hsize := h.several os x hdeferred
  unfold SortedSet.size at hsize
  match hlist : os.elements with
  | [] => rw [hlist] at hsize; cases hsize
  | [_] => rw [hlist] at hsize; simp at hsize
  | c :: d :: _ =>
      refine ⟨c, by simp, d, by simp, Nat.ne_of_lt ?_⟩
      unfold SortedSet.Ascending at hasc
      rw [hlist] at hasc
      exact List.rel_of_pairwise_cons hasc (by simp)

/-- A conjunction that was put off is part of another schema only if that was put off as well. -/
theorem eq_of_partOf (hseveral : a.Several) (hx : a.operands.get? x ≠ none)
    (h : ∀ z, a.operands.get? z ≠ none → a.PartOf x z → x = z) (hpart : a.PartOf x y) : x = y := by
  by_contra hne
  have hself := mem_operandsOf_self (not_not.1 fun hy => hne (h y hy hpart))
  obtain ⟨os, hos⟩ := Option.ne_none_iff_exists'.1 hx
  obtain ⟨c, hc, d, hd, hcd⟩ := hseveral x os hos
  rw [PartOf, hself, operandsOf, hos, Option.getD_some] at hpart
  exact hcd ((List.mem_singleton.1 (hpart c hc)).trans (List.mem_singleton.1 (hpart d hd)).symm)

theorem workedOut_of_single (hseveral : a.Several) (h : ∀ z, a.operands.get? z ≠ none → z = x)
    (hx : a.HasForm x) : a.WorkedOut R where
  formed z hz henclosed := ⟨z, fun _ ho => ho, henclosed, h z hz ▸ hx⟩
  whole z _ hz _ _ hpart :=
    .inl (eq_of_partOf hseveral hz (fun w hw _ => (h z hz).trans (h w hw).symm) hpart)

/-! ## Merged forms -/

/-- What refines two forms refines the one that makes the demands of both. -/
theorem Refines.merge (hi : Refines R a l (a.schema i)) (hj : Refines R a l (a.schema j))
    (hn : Straight R a n)
    (htight : ∀ s, Tighter s (a.schema i) → Tighter s (a.schema j) → Tighter s (a.schema n))
    (hleft : ∀ f u, (a.schema n).childFor f = some u → (a.schema j).childFor f = none →
      (a.schema i).childFor f = some u)
    (hright : ∀ f u, (a.schema n).childFor f = some u → (a.schema i).childFor f = none →
      (a.schema j).childFor f = some u)
    (hboth : ∀ f c d u, (a.schema i).childFor f = some c → (a.schema j).childFor f = some d →
      (a.schema n).childFor f = some u → Merged a c d u) : Refines R a l (a.schema n) where
  tighter := htight _ hi.tighter hj.tighter
  child f u hu := by
    cases hc : (a.schema i).childFor f with
    | none => exact hj.child f u (hright f u hu hc)
    | some c =>
        cases hd : (a.schema j).childFor f with
        | none => exact hi.child f u (hleft f u hu hd)
        | some d =>
            obtain ⟨z, hz, hzc⟩ := hi.child f c hc
            obtain ⟨z', hz', hzd⟩ := hj.child f d hd
            cases hz.symm.trans hz'
            exact ⟨z, hz, .merged hzc hzd (hboth f c d u hc hd hu)
              (hn.link (mem_links_of_childFor hu))⟩

theorem Merged.refines (ha : a.WellFormed P) (h : Merged a x y n) (hx : a.IsForm x)
    (hy : a.IsForm y) (hn : a.IsForm n) (hs : Straight R a n) (hlx : Refines R a l (a.schema x))
    (hly : Refines R a l (a.schema y)) : Refines R a l (a.schema n) := by
  have hself : ∀ {z}, a.IsForm z → (a.operandsOf z).elements = [z] := fun hz =>
    mem_operandsOf_self (operands_of_isForm ha hz)
  cases h with
  | union _ _ _ hops =>
      rw [hself hn, hself hx, hself hy] at hops
      rcases hops n (by simp) with h | h <;> rw [List.mem_singleton] at h <;> subst h
      · exact hlx
      · exact hly
  | form hx' hy' hn' _ _ htight hleft hright hboth =>
      cases hx.symm.trans hx'
      cases hy.symm.trans hy'
      cases hn.symm.trans hn'
      exact hlx.merge hly hs htight hleft hright hboth

theorem Composed.refines {own : SchemaId} {ms : List SchemaId} (ha : a.WellFormed P)
    (h : Composed R a own ms n) (hform : a.IsForm own) (hown : Refines R a l (a.schema own))
    (hms : ∀ m ∈ ms, ∀ j, a.progress.get? m = some (.done (some j)) →
      Refines R a l (a.schema j)) : Refines R a l (a.schema n) := by
  induction h with
  | nil => exact hown
  | cons hm hmerged hk hs _ ih =>
      exact ih hk (hmerged.refines ha hform (ha.form _ _ hm) hk hs hown (hms _ (by simp) _ hm))
        fun m hm => hms m (by simp [hm])

theorem Composed.hasForm {own m : SchemaId} {ms : List SchemaId} (h : Composed R a own ms n)
    (hm : m ∈ ms) : a.HasForm m := by
  induction h with
  | nil => cases hm
  | cons hm' _ _ _ _ ih =>
      rcases List.mem_cons.1 hm with rfl | hm
      · exact ⟨_, hm'⟩
      · exact ih hm

/-- What stands for several schemas is not told by one of them. -/
theorem soleChild?_of_several (ha : a.WellFormed P) (hseveral : a.Several)
    {os : SortedSet SchemaId} (hos : a.operands.get? x = some os) :
    (a.schema x).soleChild? = none := by
  obtain ⟨-, p, hp⟩ := ha.operands x os hos
  obtain ⟨c, hc, d, hd, hcd⟩ := hseveral x os hos
  refine Option.eq_none_iff_forall_ne_some.2 fun m hm => ?_
  rw [hp] at hm
  rcases (Schema.soleChild?_spec hm).2 with ⟨hall, -, -⟩ | ⟨-, hany, -⟩ | ⟨-, -, hone⟩
  · rw [show os.elements = [m] from hall] at hc hd
    exact hcd ((List.mem_singleton.1 hc).trans (List.mem_singleton.1 hd).symm)
  · cases hany
  · cases hone

/-- An end that heeds what a straight conjunction stands for heeds the conjunction. -/
theorem heeds_of_operands (hm : a.Lawful (merging R)) (hseveral : a.Several)
    {os : SortedSet SchemaId} (hos : a.operands.get? c = some os) (hform : a.HasForm c)
    (hs : Straight R a c) (h : ∀ o ∈ os.elements, a.HasForm o → Heeds R a l o) :
    Heeds R a l c := by
  have hwf := hm.toWellFormed
  obtain ⟨n, hn⟩ := hform
  obtain ⟨base, hbase, hfree, hcomposed⟩ :=
    (hm.forms c _ hn).2 n os rfl hos (soleChild?_of_several hwf hseveral hos) hs
  refine ⟨n, hn, n, .own (straight_of_done hm hn hs).anyOf, hcomposed.refines hwf hbase
    (refines_of_isUnconstrained hfree (hm.proper base).keys) fun o ho j hj => ?_⟩
  obtain ⟨j', hj', e, he, href⟩ := h o ho (hcomposed.hasForm ho)
  cases hj.symm.trans hj'
  obtain ⟨-, p, hp⟩ := hwf.operands c os hos
  have hlink : a.Link c o := by rwa [Link, hp, Schema.links_conjunction]
  cases end_of_plain (straight_of_done hm hj (hs.link hlink)).anyOf he
  exact href

/-! ## Covering -/

/-- The end `l` answers or heeds all that `z` stands for, and `z` itself if it has a normal form. -/
structure Covers (R : Set SchemaId) (a : Arena) (l z : SchemaId) : Prop where
  document : ∀ o ∈ (a.operandsOf z).elements, a.Raw o → Answers R a l o
  formed : ∀ o ∈ (a.operandsOf z).elements, a.HasForm o → Heeds R a l o
  self : a.HasForm z → Heeds R a l z

section Covers

variable (ha : a.Lawful (attestation R)) (hm : a.Lawful (merging R)) (hseveral : a.Several)
include ha

/-- An end that heeds a schema heeds all that the schema stands for. -/
theorem Heeds.covers (h : Heeds R a l z) (hz : Enclosed R a z) : Covers R a l z := by
  have hraw : ∀ {o}, o ∈ (a.operandsOf z).elements → Heeds R a l o → a.Raw o → Answers R a l o :=
    fun ho hlo hraw => hlo.answers ha hraw (hz.operand ha.toWellFormed ho)
  suffices hall : ∀ o ∈ (a.operandsOf z).elements, Heeds R a l o from
    ⟨fun o ho => hraw ho (hall o ho), fun o ho _ => hall o ho, fun _ => h⟩
  intro o ho
  unfold operandsOf at ho
  cases hops : a.operands.get? z with
  | none =>
      simp only [hops, Option.getD_none, SortedSet.singleton, List.mem_singleton] at ho
      exact ho ▸ h
  | some os =>
      simp only [hops, Option.getD_some] at ho
      obtain ⟨n, hn, e, he, href⟩ := h
      exact (((ha.forms z _ hn).2 n rfl hz e he).putOff os hops o ho).of_refines href

theorem enclosed_of_partOf (hz : Enclosed R a z) (hpart : a.PartOf c z) : Enclosed R a c := by
  have hwf := ha.toWellFormed
  cases hops : a.operands.get? c with
  | none => exact hz.operand hwf (hpart c (by simp [mem_operandsOf_self hops]))
  | some os =>
      refine enclosed_of_operands hwf hops fun o ho => hz.operand hwf (hpart o ?_)
      unfold operandsOf
      rwa [hops, Option.getD_some]

include hm hseveral

omit ha in
/-- What answers and heeds all that a schema stands for covers it, if the schema is straight, or is
    heeded where it was put off and has a normal form. -/
theorem covers_of_operands (hdocument : ∀ o ∈ (a.operandsOf c).elements, a.Raw o → Answers R a l o)
    (hformed : ∀ o ∈ (a.operandsOf c).elements, a.HasForm o → Heeds R a l o)
    (h : a.operands.get? c ≠ none → a.HasForm c → Straight R a c ∨ Heeds R a l c) :
    Covers R a l c where
  document := hdocument
  formed := hformed
  self hform := by
    cases hops : a.operands.get? c with
    | none => exact hformed c (by simp [mem_operandsOf_self hops]) hform
    | some os =>
        refine (h (by simp [hops]) hform).elim (fun hs => ?_) id
        refine heeds_of_operands hm hseveral hops hform hs fun o ho => hformed o ?_
        rwa [operandsOf, hops, Option.getD_some]

/-- What covers a schema covers the parts of it, too. -/
theorem Covers.part (h : Covers R a l z) (hworked : WorkedOut R a) (hz : Enclosed R a z)
    (hpart : a.PartOf c z) : Covers R a l c := by
  refine covers_of_operands hm hseveral (fun o ho => h.document o (hpart o ho))
    (fun o ho => h.formed o (hpart o ho)) fun hops hform => ?_
  rcases hworked.whole c z hops hform hz hpart with rfl | hunbranched
  · exact .inr (h.self hform)
  · exact .inl ((enclosed_of_partOf ha hz hpart).straight hunbranched)

/-- What covers two schemas covers the straight schema that they are merged into. -/
theorem Covers.merged (hc : Covers R a l c) (hd : Covers R a l d) (h : Merged a c d w)
    (hw : Straight R a w) : Covers R a l w := by
  cases h with
  | union _ _ _ hops =>
      exact covers_of_operands hm hseveral
        (fun o ho hraw => (hops o ho).elim (hc.document o · hraw) (hd.document o · hraw))
        (fun o ho hform => (hops o ho).elim (hc.formed o · hform) (hd.formed o · hform))
        fun _ _ => .inl hw
  | form hci hdj hwn hi hj htight hleft hright hboth =>
      obtain ⟨i, hci', e, he, href⟩ := hc.self ⟨_, hci⟩
      obtain ⟨j, hdj', e', he', href'⟩ := hd.self ⟨_, hdj⟩
      cases hci.symm.trans hci'
      cases hdj.symm.trans hdj'
      cases end_of_plain hi he
      cases end_of_plain hj he'
      have hn := straight_of_done hm hwn hw
      have hheeds : Heeds R a l w :=
        ⟨_, hwn, _, .own hn.anyOf, href.merge href' hn htight hleft hright hboth⟩
      exact hheeds.covers ha hw.enclosed

/-- What covers a schema covers whatever the schema subsumes. -/
theorem Subsumes.covers (h : Subsumes R a z c) (hworked : WorkedOut R a) (hz : Enclosed R a z)
    (hl : Covers R a l z) : Enclosed R a c ∧ Covers R a l c := by
  induction h with
  | refl => exact ⟨hz, hl⟩
  | part _ _ hpart =>
      exact ⟨enclosed_of_partOf ha hz hpart, hl.part ha hm hseveral hworked hz hpart⟩
  | @form z c n i hn hi henclosed e hend htight hnamed hchild _ =>
      obtain ⟨n', hn', m, hm, href⟩ := hl.self ⟨n, hn⟩
      cases hn.symm.trans hn'
      -- the end of the form of `c` that goes with the one of `z`
      have hrefm : Refines R a m (a.schema (e m)) := by
        refine ⟨htight m hm, fun f d hd => ?_⟩
        obtain ⟨y, hy⟩ := Option.ne_none_iff_exists'.1 (hnamed m f hm (by simp [hd]))
        exact ⟨y, hy, hchild m f d y hm hd hy⟩
      have hheeds : Heeds R a l c := ⟨i, hi, e m, hend m hm, href.trans hrefm⟩
      exact ⟨henclosed, hheeds.covers ha henclosed⟩
  | merged _ _ hmerged hw ih ih' =>
      exact ⟨hw.enclosed, (ih hz hl).2.merged ha hm hseveral (ih' hz hl).2 hmerged hw⟩
  | trans _ _ ih ih' =>
      obtain ⟨hy, hly⟩ := ih hz hl
      exact ih' hy hly

omit ha hm in
/-- What a schema subsumes that was not put off and has no normal form is the schema itself. -/
theorem Subsumes.eq_self (h : Subsumes R a z c) (hops : a.operands.get? z = none)
    (hform : ¬a.HasForm z) : c = z := by
  have hself := mem_operandsOf_self hops
  -- only the schema itself stands for it alone
  have hsole : ∀ {c}, (∀ o ∈ (a.operandsOf c).elements, o = z) → c = z := by
    intro c hc
    cases hopsc : a.operands.get? c with
    | none => exact hc c (by simp [mem_operandsOf_self hopsc])
    | some os =>
        obtain ⟨o, ho, o', ho', hne⟩ := hseveral c os hopsc
        rw [operandsOf, hopsc, Option.getD_some] at hc
        exact absurd ((hc o ho).trans (hc o' ho').symm) hne
  induction h with
  | refl => rfl
  | part _ _ hpart => exact hsole fun o ho => by simpa [hself] using hpart o ho
  | form hn _ _ _ _ _ _ _ _ => exact absurd ⟨_, hn⟩ hform
  | merged _ _ hmerged _ ih ih' =>
      obtain rfl := ih hops hform hself hsole
      obtain rfl := ih' hops hform hself hsole
      cases hmerged with
      | union _ _ _ h => exact hsole fun o ho => by simpa [hself] using h o ho
      | form hn _ _ _ _ _ _ _ _ => exact absurd ⟨_, hn⟩ hform
  | trans _ _ ih ih' =>
      obtain rfl := ih hops hform hself hsole
      exact ih' hops hform hself hsole

/-- Some end covers the schema, or there is no other one that the schema subsumes. -/
theorem exists_covers (hworked : WorkedOut R a) (hz : Enclosed R a z) :
    (∃ l, a.IsForm l ∧ (a.schema l).anyOf = [] ∧ Enclosed R a l ∧ Covers R a l z) ∨
      ∀ c, Subsumes R a z c → c = z := by
  have hwf := ha.toWellFormed
  have hcovers : ∀ {y}, Enclosed R a y → a.HasForm y →
      ∃ l, a.IsForm l ∧ (a.schema l).anyOf = [] ∧ Enclosed R a l ∧ Covers R a l y := by
    rintro y hy ⟨n, hn⟩
    have hform := hwf.form _ _ hn
    obtain ⟨l, hl⟩ := exists_end hwf hform
    exact ⟨l, hl.isForm hwf hform, hl.anyOf, hl.enclosed (enclosed_of_done ha hn hy),
      (heeds_of_done hn hl).covers ha hy⟩
  by_cases hform : a.HasForm z
  · exact .inl (hcovers hz hform)
  cases hops : a.operands.get? z with
  | some os =>
      obtain ⟨y, hpart, hy, hyform⟩ := hworked.formed z (by simp [hops]) hz
      obtain ⟨l, hl, hany, henclosed, hcovers⟩ := hcovers hy hyform
      exact .inl ⟨l, hl, hany, henclosed, hcovers.part ha hm hseveral hworked hy hpart⟩
  | none => exact .inr fun c hc => hc.eq_self hseveral hops hform

end Covers

/-! ## Bundles that cannot be refuted -/

/-- The names of the schemas of the document that the end `l` answers. -/
def answered (R : Set SchemaId) (ℓ : SchemaId → SchemaId) (a : Arena) (l : SchemaId) :
    Set SchemaId :=
  {w | ∃ x, ℓ x = w ∧ Enclosed R a x ∧ Answers R a l x}

section Bundles

variable (hcontent : ∀ x ∈ R, κ (ℓ x) = (a.schema x).rename ℓ)
include hcontent

/-- With a schema its members are answered, and one of each group of alternatives. -/
theorem bundle_answered (l : SchemaId) : Bundle κ (answered R ℓ a l) := by
  have hmem : ∀ {x : SchemaId}, Enclosed R a x → Answers R a l x →
      κ (ℓ x) = (a.schema x).rename ℓ := fun hx ⟨W, _, hxW, hall⟩ =>
    hcontent _ (hx.mem (hall _ hxW).2.1)
  have hlink : ∀ {x m}, Enclosed R a x → m ∈ (a.schema x).members → Enclosed R a m := fun hx hm =>
    hx.link (Member.link hm)
  constructor
  · rintro _ ⟨x, rfl, hx, hlx⟩
    rw [hmem hx hlx, unrestricted_rename]
    exact hx.unrestricted
  · rintro _ ⟨x, rfl, hx, hlx⟩ m hm
    rw [hmem hx hlx] at hm
    obtain ⟨m, hm', rfl⟩ := List.mem_map.1 hm
    obtain ⟨W, hW, hxW, hall⟩ := hlx
    exact ⟨m, rfl, hlink hx (by simp [Schema.members, hm']), W, hW, hW.allOf x hxW m hm', hall⟩
  · rintro _ ⟨x, rfl, hx, hlx⟩ hany
    rw [hmem hx hlx] at hany ⊢
    obtain ⟨W, hW, hxW, hall⟩ := hlx
    obtain ⟨m, hm, hmW⟩ := hW.anyOf x hxW (by simpa [Schema.rename] using hany)
    exact ⟨ℓ m, List.mem_map.2 ⟨m, hm, rfl⟩, m, rfl,
      hlink hx (by simp [Schema.members, hm]), W, hW, hmW, hall⟩
  · rintro _ ⟨x, rfl, hx, hlx⟩ hone
    rw [hmem hx hlx] at hone ⊢
    obtain ⟨W, hW, hxW, hall⟩ := hlx
    obtain ⟨m, hm, hmW⟩ := hW.oneOf x hxW (by simpa [Schema.rename] using hone)
    exact ⟨ℓ m, List.mem_map.2 ⟨m, hm, rfl⟩, m, rfl,
      hlink hx (by simp [Schema.members, hm]), W, hW, hmW, hall⟩

omit hcontent in
/-- What leaves something, and only what the schemas of the bundle leave, shows that they can be
    matched together. -/
theorem possible_of_tighter {s : Schema} (hs : Viable s) (h : ∀ w ∈ W, Tighter s (κ w)) :
    Possible κ W where
  value := by
    obtain ⟨v, hv, hsv⟩ := hs.value
    exact ⟨v, hv, fun w hw => (h w hw).selects v hv hsv⟩
  number hk := by
    have hsub : ∀ k, (s.kinds.getD .full).contains k = true → k = .number ∨ k = .integer :=
      fun k hsk => hk k fun w hw => (h w hw).kinds k hsk
    obtain ⟨v, -, hv⟩ := hs.value
    have hkinds : (s.kinds.getD .full).isEmpty = false := by
      cases hks : s.kinds with
      | none => decide
      | some ks => exact KindSet.isEmpty_of_accepts (hv.kinds ks hks)
    obtain ⟨q, hq⟩ := hs.number
      (KindSet.isNumeric_iff.2 ⟨KindSet.exists_contains hkinds, hsub⟩)
    exact ⟨q, fun w hw => (h w hw).within q hq⟩

/-- Where conjunctions have been worked out, no end refines all schemas of a refuted bundle. -/
theorem not_refines_of_refuted (ha : a.Lawful (attestation R)) (hm : a.Lawful (merging R))
    (hseveral : a.Several) (hworked : WorkedOut R a) (h : Refuted κ W) (hl : a.IsForm l)
    (hany : (a.schema l).anyOf = []) (henclosed : Enclosed R a l) :
    ¬∀ w ∈ W, ∃ x ∈ R, a.Raw x ∧ ℓ x = w ∧ Refines R a l (a.schema x) := by
  induction h generalizing l with
  | demands hno =>
      intro hall
      refine hno (possible_of_tighter (viable_of_isForm ha.toWellFormed hl) fun w hw => ?_)
      obtain ⟨x, hx, -, rfl, href⟩ := hall w hw
      rw [hcontent x hx]
      exact ⟨href.tighter.kinds, fun v hv hsv => ⟨(href.tighter.selects v hv hsv).kinds,
        (href.tighter.selects v hv hsv).values⟩, fun q hq => ⟨(href.tighter.within q hq).gt,
        (href.tighter.within q hq).ge, (href.tighter.within q hq).lt,
        (href.tighter.within q hq).le⟩⟩
  | @part W f hf _ ih =>
      intro hall
      -- what is named for the part is subsumed by what the end names for it
      have hvoiced : ∀ d, Voices κ W f d → ∃ z c, (a.schema l).childFor f = some z ∧ ℓ c = d ∧
          Subsumes R a z c ∧ a.Raw c := by
        rintro d ⟨w, hw, hd⟩
        obtain ⟨x, hx, hraw, rfl, href⟩ := hall w hw
        rw [hcontent x hx, childFor_rename] at hd
        obtain ⟨c, hc, rfl⟩ := Option.map_eq_some_iff.1 hd
        obtain ⟨z, hz, hsub⟩ := href.child f c hc
        exact ⟨z, c, hz, rfl, hsub, ha.raw x c hraw (mem_links_of_childFor hc)⟩
      obtain ⟨d, d', hd, hd', hne⟩ := hf
      obtain ⟨z, c, hz, rfl, hsub, -⟩ := hvoiced d hd
      obtain ⟨_, c', hz', rfl, hsub', -⟩ := hvoiced d' hd'
      cases hz.symm.trans hz'
      have henclosedz : Enclosed R a z := henclosed.link (mem_links_of_childFor hz)
      rcases exists_covers ha hm hseveral hworked henclosedz with
        ⟨l', hl', hany', henclosed', hcovers⟩ | hsole
      · refine ih (answered R ℓ a l') (bundle_answered hcontent l') (fun d hd => ?_) hl' hany'
          henclosed' fun w hw => ?_
        · obtain ⟨_, c, hz', rfl, hsub, hraw⟩ := hvoiced d hd
          cases hz.symm.trans hz'
          obtain ⟨hc, hlc⟩ := hsub.covers ha hm hseveral hworked henclosedz hcovers
          exact ⟨c, rfl, hc, hlc.document c (by simp [mem_operandsOf_self hraw.2]) hraw⟩
        · obtain ⟨x, rfl, hx, W, -, hxW, hall⟩ := hw
          obtain ⟨-, hraw, href⟩ := hall x hxW
          exact ⟨x, hx.mem hraw, hraw, rfl, href⟩
      · exact hne (by rw [hsole c hsub, hsole c' hsub'])

/-- Where conjunctions have been worked out, a schema of the document with a normal form belongs to a
    bundle that cannot be refuted. -/
theorem exists_tenable (ha : a.Lawful (attestation R)) (hm : a.Lawful (merging R))
    (hseveral : a.Several) (hworked : WorkedOut R a) (hraw : a.Raw id) (hid : Enclosed R a id)
    (hform : a.HasForm id) :
    ∃ W, Tenable κ W ∧ ℓ id ∈ W := by
  obtain ⟨n, hn⟩ := hform
  have hwf := ha.toWellFormed
  have hnform := hwf.form _ _ hn
  obtain ⟨l, hl⟩ := exists_end hwf hnform
  have hanswers := (heeds_of_done hn hl : Heeds R a l id).answers ha hraw hid
  refine ⟨answered R ℓ a l, ⟨bundle_answered hcontent l, fun hrefuted => ?_⟩, id, rfl, hid, hanswers⟩
  refine not_refines_of_refuted hcontent ha hm hseveral hworked hrefuted (hl.isForm hwf hnform)
    hl.anyOf (hl.enclosed (enclosed_of_done ha hn hid)) ?_
  rintro _ ⟨x, rfl, hx, W, -, hxW, hall⟩
  obtain ⟨-, hraw, href⟩ := hall x hxW
  exact ⟨x, hx.mem hraw, hraw, rfl, href⟩

end Bundles

end ApiModel.Arena
