/-
  ApiModel.Proofs.Schema.Solver

  The closed recursion is sound. A step of the recursion is sound when the solver that it hands its
  tasks to is, so every supply of nested calls makes a sound solver. What a particular law has to
  bring along is `Upheld`: that it follows, in one lawful arena, from what an answer came of.
-/
import ApiModel.Proofs.Schema.Conjunction

namespace ApiModel.Arena

variable {P : Json → Prop} {L : Law P} {solve : Solver} {a t : Arena} {Q : Pointer → Prop}

/-- A law that follows from what answers come of. -/
structure Upheld (L : Law P) : Prop where
  form : ∀ {a : Arena} {id : SchemaId} {r : Option SchemaId}, a.Lawful L → id < a.next →
    FormJoined L a (a.schema id) r → L.form a id r
  both : ∀ {a : Arena} {x y : SchemaId} {r : Option SchemaId}, a.Lawful L → a.IsForm x →
    a.IsForm y → x ≠ y → BothJoined L a x y r → L.both a x y r

/-! ## Conjunctions by way of the memo -/

theorem Stored.isForm {s : Schema} {n : SchemaId} (h : Stored t s (some n)) : t.IsForm n := by
  cases h with
  | stored _ hn _ => exact hn

theorem Reused.isForm {x y n : SchemaId} {out : Schema} (hx : t.IsForm x) (hy : t.IsForm y)
    (h : Reused t x y out (some n)) : t.IsForm n := by
  generalize hr : some n = r at h
  cases h with
  | left _ => cases hr; exact hx
  | right _ => cases hr; exact hy
  | stored hs => exact (hr ▸ hs).isForm

/-- A conjunction of normal forms is a normal form. -/
theorem BothJoined.isForm {x y n : SchemaId} (hx : t.IsForm x) (hy : t.IsForm y)
    (h : BothJoined L t x y (some n)) : t.IsForm n := by
  generalize hr : some n = r at h
  cases h with
  | rightFree _ => cases hr; exact hx
  | leftFree _ => cases hr; exact hy
  | itemsClash _ => cases hr
  | propertyClash _ _ => cases hr
  | plain _ _ _ hreused => exact (hr ▸ hreused).isForm hx hy
  | noBranch _ _ => cases hr
  | oneBranch _ hbs => cases hr; exact hbs.isForm n (by simp)
  | branches _ _ _ _ hreused => exact (hr ▸ hreused).isForm hx hy

/-- The forms are there; what is left is their conjunction, remembered or worked out now. -/
theorem runs_conjoinRemembered (hL : Upheld L) (hsolve : Sound L solve) (ha : a.Lawful L)
    {x y nx ny : SchemaId} {place : Pointer} (hx : a.progress.get? x = some (.done (some nx)))
    (hy : a.progress.get? y = some (.done (some ny))) (hne : nx ≠ ny)
    (hQ : ∀ q, (a.Bare nx → a.Bare ny → place.Covers q) → Q q) :
    Runs L Q (do
      match ← Work.view fun s => s.conjunctions.get? (nx, ny, place) with
      | some known => return known
      | none =>
        let result ← conjoinForms solve nx ny place
        Work.modify fun s =>
          { s with conjunctions := s.conjunctions.insert (nx, ny, place) result }
        return result) a fun r t => Joined L t x y r := by
  have hnx := ha.form _ _ hx
  have hny := ha.form _ _ hy
  refine .view_bind ?_
  split
  · next known hknown =>
      have hforms := (ha.memo _ _ _ _ hknown).2.2
      exact .pure ha (.forms hx hy hforms (fun hr _ _ => ⟨hne, place, hr ▸ hknown⟩)
        (ha.boths _ _ _ _ hknown))
  next hnone =>
  -- the work itself stays below the place, so the place is still free when it is done
  have hwork : Runs L (fun q => a.Bare nx → a.Bare ny → place.Above q)
      (conjoinForms solve nx ny place) a fun r t => BothJoined L t nx ny r ∧
        (t.Bare nx → t.Bare ny → t.conjunctions.get? (nx, ny, place) = none) := by
    refine (runs_conjoinForms hsolve ha hnx hny fun _ hq => hq).mono fun r t _ hat hr => ?_
    refine ⟨hr, fun hbx hby => ?_⟩
    have hbx := (bare_iff ha.toWellFormed hat.schema (ha.isForm_lt hnx)).1 hbx
    have hby := (bare_iff ha.toWellFormed hat.schema (ha.isForm_lt hny)).1 hby
    rw [hat.conjunctions _ fun habove => place.not_above_self (habove hbx hby)]
    exact hnone
  refine (hwork.widen fun q hq => hQ q fun hbx hby => (hq hbx hby).covers).bind ?_
  rintro r b hb hab ⟨hjoined, hnew⟩
  have hnx' := hab.form hnx
  have hny' := hab.form hny
  have hforms : ∀ n, r = some n → b.IsForm n := fun n hn => (hn ▸ hjoined).isForm hnx' hny'
  have hlaw := hL.both hb hnx' hny' hne hjoined
  obtain ⟨hlawful, hadv⟩ : (b.remember nx ny place r).Lawful L ∧
      Advances b (b.remember nx ny place r) := lawful_remember hb hnx' hny' hforms hnew hlaw
  have hrecord : (b.remember nx ny place r).conjunctions.get? (nx, ny, place) = some r := by
    rw [conjunctions_remember, if_pos rfl]
  -- the entry is at the place itself, which is within the scope
  have hconf : Confined Q b (b.remember nx ny place r) := by
    refine { hadv with conjunctions := fun k hk => ?_ }
    rw [conjunctions_remember, if_neg]
    rintro rfl
    exact hk (hQ place fun _ _ => .refl place)
  have hanswer : Joined L (b.remember nx ny place r) x y r :=
    .forms (hab.done _ _ hx) (hab.done _ _ hy) hforms (fun hr _ _ => ⟨hne, place, hr ▸ hrecord⟩)
      (L.both_mono hb.toWellFormed hlawful.toWellFormed hadv.toGrows hnx' hny' hforms hlaw)
  exact .modify_bind hlawful hconf (.pure hlawful hanswer)

theorem runs_conjoin (hL : Upheld L) (hsolve : Sound L solve) (ha : a.Lawful L) {x y : SchemaId}
    {place : Pointer} (hx : x < a.next) (hy : y < a.next) :
    Runs L (a.Scope (.conjoin x y place)) (conjoin solve x y place) a
      fun r t => Joined L t x y r := by
  unfold conjoin
  refine .bind (hsolve.normalize ha hx ?_) fun fx b hb hab hfx => ?_
  · intro hm q hbare
    exact absurd hbare.members hm
  cases fx with
  | none => exact .pure hb (.left hfx)
  | some nx =>
  have hy' : y < b.next := Nat.lt_of_lt_of_le hy hab.next
  refine .bind (hsolve.normalize hb hy' ?_) fun fy c hc hbc hfy => ?_
  · intro hm q _ hbare
    rw [hab.schema y hy] at hm
    exact absurd hbare.members hm
  have hfx' := hbc.done _ _ hfx
  cases fy with
  | none => exact .pure hc (.right hfx' hfy)
  | some ny =>
  have hac := hab.toGrows.trans hbc.toGrows
  -- equal forms are their own conjunction
  dsimp only
  split
  · next heq =>
      subst heq
      have hnx := hc.form _ _ hfx'
      refine .pure hc (.forms hfx' hfy ?_ (by simp) (L.both_self hc.toWellFormed hnx))
      rintro n ⟨⟩
      exact hnx
  · next hne =>
      refine runs_conjoinRemembered hL hsolve hc hfx' hfy hne fun q hq hbx hby => hq ?_ ?_
      · exact hc.bare_form (hac.bare x hx hbx) hfx'
      · exact hc.bare_form (hac.bare y hy hby) hfy

/-! ## Normal forms -/

theorem runs_conjoinAll (hsolve : Sound L solve) (ha : a.Lawful L) {own : SchemaId}
    (hown : a.IsForm own) (place : Pointer) {ms : List SchemaId} (hms : ∀ m ∈ ms, m < a.next)
    (hQ : ms ≠ [] → ∀ q, Q q) :
    Runs L Q (conjoinAll solve place own ms) a fun r t => AllJoined L t own ms r := by
  induction ms generalizing own a with
  | nil => exact .pure ha .nil
  | cons m ms ih =>
      have hQ := hQ (by simp)
      unfold conjoinAll
      refine .bind (hsolve.conjoin ha (ha.isForm_lt hown) (hms m (by simp)) fun q _ => hQ q)
        fun o b hb hab ho => ?_
      cases o with
      | none => exact .pure hb (.clash ho)
      | some n =>
          have hms' : ∀ m ∈ ms, m < b.next :=
            fun m' hm' => Nat.lt_of_lt_of_le (hms m' (by simp [hm'])) hab.next
          refine (ih hb ho.isForm hms' fun _ => hQ).mono fun r t ht hbt hr => ?_
          exact .cons (ho.mono hb.toWellFormed ht.toWellFormed hbt.toGrows) hr

/-- Normal forms come of normal forms. -/
theorem AllJoined.isForm {own n : SchemaId} {ms : List SchemaId} (hown : t.IsForm own)
    (h : AllJoined L t own ms (some n)) : t.IsForm n := by
  generalize hr : some n = r at h
  induction h with
  | nil => cases hr; exact hown
  | clash _ => cases hr
  | cons h _ ih => exact ih h.isForm hr

theorem storable_kindsAlone (p : Pointer) {ks : KindSet}
    (hks : ks.number = true → ks.integer = true) : Storable P a (kindsAlone p ks) where
  proper := { Schema.proper_blank P a.next p with
    kinds := by rintro _ ⟨⟩; exact hks }
  allOf := rfl
  oneOf := rfl
  kinds := by simp [kindsAlone]
  anyOf := by simp [kindsAlone, Schema.blank]
  forms := by simp [kindsAlone, Schema.blank]

theorem mem_links_of_baseOf {s : Schema} {c : SchemaId} (h : c ∈ (baseOf s).links) :
    c ∈ s.links := by
  simp only [Schema.links, Schema.members, baseOf, Schema.withoutCombinators, extraSchema?,
    List.append_nil] at h
  exact List.mem_append_left _ h

theorem storable_baseOf {s : Schema} (h : s.Proper P a.next) : Storable P a (baseOf s) where
  proper := by
    refine { keys := h.keys, links := fun c hc => h.links c (mem_links_of_baseOf hc), kinds := ?_,
             values := h.values, required := h.required }
    rintro _ ⟨⟩
    exact h.kinds_getD
  allOf := rfl
  oneOf := rfl
  kinds := by simp [baseOf]
  anyOf := by simp [baseOf, Schema.withoutCombinators]
  forms := by simp [baseOf, Schema.withoutCombinators]

theorem runs_narrowed (hsolve : Sound L solve) (ha : a.Lawful L) {s : Schema} {c : SchemaId}
    (hs : s.Proper P a.next) (hc : c < a.next) (hQ : ∀ q, Q q) :
    Runs L Q (narrowed solve s c) a fun r t => Narrowed L t s c r := by
  unfold narrowed
  refine .bind (hsolve.normalize ha hc fun _ => hQ) fun fc b hb hab hfc => ?_
  cases fc with
  | none => exact .pure hb (.unmatched hfc)
  | some n =>
  dsimp only
  split
  · next hk => exact .pure hb (.anyKind hfc hk)
  next ks hk =>
  refine .bind (runs_store hb (storable_kindsAlone s.pointer (hs.kinds ks hk)))
    fun m d hd hbd hm => ?_
  have hfc' := hbd.done _ _ hfc
  cases m with
  | none => exact .pure hd (.noKind hfc' hk hm)
  | some m =>
  have hn := hd.form _ _ hfc'
  refine (hsolve.conjoin hd (hd.isForm_lt hn) (hd.isForm_lt hm.isForm) fun q _ => hQ q).mono
    fun r t ht hdt hr => ?_
  exact .kinds (hdt.done _ _ hfc') hk (hm.mono hd.toWellFormed hdt.toGrows) hr

/-! ## Alternatives -/

/-- The demands of a normal form, with other alternatives. -/
theorem storable_branches (h : a.WellFormed P) {own : SchemaId} (hown : a.IsForm own)
    {bs : List SchemaId} (hbs : ∀ c ∈ bs, a.IsForm c) (hlen : bs.length ≠ 1) (p : Pointer) :
    Storable P a { a.schema own with pointer := p, anyOf := bs } where
  proper := by
    have hproper := h.proper own
    refine { hproper with links := fun c hc => ?_ }
    simp only [Schema.links, Schema.members, List.mem_append] at hc
    rcases hc with hc | (hc | hc) | hc
    · refine hproper.links c ?_
      simp only [Schema.links, List.mem_append]
      exact .inl hc
    · rw [(h.normal own hown).1.allOf] at hc
      cases hc
    · exact h.isForm_lt (hbs c hc)
    · rw [(h.normal own hown).1.oneOf] at hc
      cases hc
  allOf := (h.normal own hown).1.allOf
  oneOf := (h.normal own hown).1.oneOf
  kinds := (h.normal own hown).1.kinds
  anyOf := hlen
  forms := hbs

/-- What the last part of a normalization makes of the branches that are left. -/
theorem runs_gather (ha : a.Lawful L) {s : Schema} {own : SchemaId} (hown : a.IsForm own)
    {bs : List SchemaId} (hbs : ∀ c ∈ bs, a.IsForm c) (hsome : s.anyOf ≠ [] ∨ s.oneOf ≠ []) :
    Runs L Q (match bs with
      | [] => return if s.anyOf.isEmpty && s.oneOf.isEmpty then some own else none
      | [only] => return some only
      | branches => do
        let demands ← Work.view (·.schema own)
        store { demands with pointer := s.pointer, anyOf := branches }) a
      fun r t => Gathered t s own bs r := by
  split
  · rw [if_neg]
    · exact .pure ha (.none rfl)
    · simp only [Bool.and_eq_true, List.isEmpty_iff, not_and_or]
      exact hsome
  · exact .pure ha (.one rfl)
  next hnil hone =>
  have hlen : 2 ≤ bs.length := by
    match bs, hnil, hone with
    | [], hnil, _ => exact absurd rfl hnil
    | [c], _, hone => exact absurd rfl (hone c)
    | _ :: _ :: _, _, _ => simp
  have hstorable := storable_branches ha.toWellFormed hown hbs (Nat.ne_of_gt hlen) s.pointer
  refine .view_bind ((runs_store ha hstorable).mono fun r t _ hat hr => ?_)
  refine .many hlen ?_
  rw [hat.schema own (ha.isForm_lt hown)]
  exact hr

/-- No alternatives leave no branches. -/
theorem Crossed.eq_nil {right bs : List SchemaId} (h : Crossed L t [] right bs) : bs = [] := by
  refine List.eq_nil_iff_forall_not_mem.2 fun c hc => ?_
  obtain ⟨l, hl, -⟩ := h.sound c hc
  cases hl

theorem runs_withAlternatives (hsolve : Sound L solve) (ha : a.Lawful L) {s : Schema}
    {own : SchemaId} (hs : s.Proper P a.next) (hown : a.IsForm own)
    (hQ : s.members ≠ [] → ∀ q, Q q) :
    Runs L Q (withAlternatives solve s own) a fun r t => AlternativesJoined L t s own r := by
  have hQany : s.anyOf ≠ [] → ∀ q, Q q := fun h => hQ (by simp [Schema.members, h])
  have hQone : s.oneOf ≠ [] → ∀ q, Q q := fun h => hQ (by simp [Schema.members, h])
  have hltAny : ∀ m ∈ s.anyOf, m < a.next := fun m hm =>
    hs.links m (Schema.mem_links_of_member (by simp [Schema.members, hm]))
  have hltOne : ∀ m ∈ s.oneOf, m < a.next := fun m hm =>
    hs.links m (Schema.mem_links_of_member (by simp [Schema.members, hm]))
  unfold withAlternatives
  refine .bind (runs_survivors hsolve ha (ha.isForm_lt hown) _ 0 hltAny hQany)
    fun as b hb hab has => ?_
  -- a group none of whose members agrees with `own` leaves nothing
  split
  · next hclash =>
      simp only [Bool.and_eq_true, Bool.not_eq_true', List.isEmpty_eq_false_iff,
        List.isEmpty_iff] at hclash
      exact .pure hb (.anyClash hclash.1 (hclash.2 ▸ has))
  next hany =>
  have hownb := hab.form hown
  refine .bind (runs_survivors hsolve hb (hb.isForm_lt hownb) _ 0
    (fun m hm => Nat.lt_of_lt_of_le (hltOne m hm) hab.next) hQone) fun os c hc hbc hos => ?_
  split
  · next hclash =>
      simp only [Bool.and_eq_true, Bool.not_eq_true', List.isEmpty_eq_false_iff,
        List.isEmpty_iff] at hclash
      exact .pure hc (.oneClash hclash.1 (hclash.2 ▸ hos))
  next hone =>
  have hownc := hbc.form hownb
  have has' := has.mono hb.toWellFormed hc.toWellFormed hbc.toGrows
  simp only [Bool.and_eq_true, Bool.not_eq_true', List.isEmpty_eq_false_iff,
    List.isEmpty_iff, not_and] at hany hone
  by_cases hany0 : s.anyOf = []
  · -- without the first group the branches are those of the second
    rw [hany0] at has'
    obtain rfl := has'.eq_nil
    simp only [List.isEmpty_nil, if_true]
    refine Work.Yields.bind (.pure (Q := fun bs t => bs = os ∧ t = c) hc ⟨rfl, rfl⟩) ?_
    rintro bs t ht hct ⟨rfl, rfl⟩
    by_cases hone0 : s.oneOf = []
    · rw [hone0] at hos
      obtain rfl := hos.eq_nil
      simp only [hany0, hone0, List.isEmpty_nil, Bool.and_self, if_true]
      exact .pure hc (.neither hany0 hone0)
    · refine (runs_gather hc hownc hos.isForm (.inr hone0)).mono fun r t ht hct hr => ?_
      exact .one hany0 hone0 (hos.mono hc.toWellFormed ht.toWellFormed hct.toGrows) hr
  · have has0 : as.isEmpty = false := List.isEmpty_eq_false_iff.2 (hany hany0)
    simp only [has0, Bool.false_eq_true, if_false]
    by_cases hone0 : s.oneOf = []
    · rw [hone0] at hos
      obtain rfl := hos.eq_nil
      simp only [List.isEmpty_nil, if_true]
      refine Work.Yields.bind (.pure (Q := fun bs t => bs = as ∧ t = c) hc ⟨rfl, rfl⟩) ?_
      rintro bs t ht hct ⟨rfl, rfl⟩
      refine (runs_gather hc hownc has'.isForm (.inl hany0)).mono fun r t ht hct hr => ?_
      exact .any hany0 hone0 (has'.mono hc.toWellFormed ht.toWellFormed hct.toGrows) hr
    · have hos0 : os.isEmpty = false := List.isEmpty_eq_false_iff.2 (hone hone0)
      simp only [hos0, Bool.false_eq_true, if_false]
      -- both groups are there, and their survivors are conjoined in pairs
      refine .bind (runs_cross hsolve hc (fun l hl => hc.isForm_lt (has'.isForm l hl))
        (fun r hr => hc.isForm_lt (hos.isForm r hr)) _ (hQany hany0)) fun bs d hd hcd hbs => ?_
      refine (runs_gather hd (hcd.form hownc) hbs.isForm (.inl hany0)).mono
        fun r t ht hdt hr => ?_
      have hct := hcd.toGrows.trans hdt.toGrows
      exact .both hany0 hone0 (has'.mono hc.toWellFormed ht.toWellFormed hct)
        (hos.mono hc.toWellFormed ht.toWellFormed hct)
        (hbs.mono hd.toWellFormed ht.toWellFormed hdt.toGrows) hr

/-! ## The memo of normal forms -/

theorem runs_normalForm (hsolve : Sound L solve) (ha : a.Lawful L) {id : SchemaId}
    (hQ : (a.schema id).members ≠ [] → ∀ q, Q q) :
    Runs L Q (normalForm solve id) a fun r t => FormJoined L t (a.schema id) r := by
  have hs := ha.proper id
  unfold normalForm
  refine .view_bind ?_
  split
  · next hbottom => exact .pure ha (.bottom hbottom)
  split
  · next c hc =>
      have hmem := Schema.mem_members_of_soleChild? hc
      have hlt := hs.links c (Schema.mem_links_of_member hmem)
      refine (runs_narrowed hsolve ha hs hlt (hQ (List.ne_nil_of_mem hmem))).mono
        fun r t _ _ hr => .narrowed hc hr
  next hc =>
  -- no sole child: base, members of `allOf` and alternatives, in this order
  refine .bind (runs_store ha (storable_baseOf hs)) fun base b hb hab hbase => ?_
  cases base with
  | none => exact .pure hb (.noBase hc hbase)
  | some base =>
  have hall : ∀ m ∈ (a.schema id).allOf, m < b.next := fun m hm =>
    Nat.lt_of_lt_of_le (hs.links m (Schema.mem_links_of_member (by simp [Schema.members, hm])))
      hab.next
  refine .bind (runs_conjoinAll hsolve hb hbase.isForm _ hall
    fun h => hQ (by simp [Schema.members, h])) fun own c hc' hbc hown => ?_
  have hbasec := hbase.mono hb.toWellFormed hbc.toGrows
  cases own with
  | none => exact .pure hc' (.allClash hc hbasec hown)
  | some own =>
  have hac := hab.toGrows.trans hbc.toGrows
  have hownForm := hown.isForm hbasec.isForm
  refine (runs_withAlternatives hsolve hc' (hs.mono hac.next) hownForm hQ).mono
    fun r t ht hct hr => ?_
  exact .alternatives hc (hbasec.mono hc'.toWellFormed hct.toGrows)
    (hown.mono hc'.toWellFormed ht.toWellFormed hct.toGrows) hr

theorem Gathered.isForm {s : Schema} {own n : SchemaId} {bs : List SchemaId}
    (hbs : ∀ c ∈ bs, t.IsForm c) (h : Gathered t s own bs (some n)) : t.IsForm n := by
  generalize hr : some n = r at h
  cases h with
  | none _ => cases hr
  | one h => cases hr; exact hbs n (by simp [h])
  | many _ hs => exact (hr ▸ hs).isForm

theorem AlternativesJoined.isForm {s : Schema} {own n : SchemaId} (hown : t.IsForm own)
    (h : AlternativesJoined L t s own (some n)) : t.IsForm n := by
  generalize hr : some n = r at h
  cases h with
  | neither _ _ => cases hr; exact hown
  | anyClash _ _ => cases hr
  | oneClash _ _ => cases hr
  | any _ _ hbs hg => exact (hr ▸ hg).isForm hbs.isForm
  | one _ _ hbs hg => exact (hr ▸ hg).isForm hbs.isForm
  | both _ _ _ _ hbs hg => exact (hr ▸ hg).isForm hbs.isForm

/-- The normal form of a schema is one. -/
theorem FormJoined.isForm (ht : t.WellFormed P) {s : Schema} {n : SchemaId}
    (h : FormJoined L t s (some n)) : t.IsForm n := by
  generalize hr : some n = r at h
  cases h with
  | bottom _ => cases hr
  | narrowed _ hn =>
      cases hn with
      | unmatched _ => cases hr
      | anyKind h _ => cases hr; exact ht.form _ _ h
      | noKind _ _ _ => cases hr
      | kinds _ _ _ hj => exact (hr ▸ hj).isForm
  | noBase _ _ => cases hr
  | allClash _ _ _ => cases hr
  | alternatives _ hbase hall halt => exact (hr ▸ halt).isForm (hall.isForm hbase.isForm)

/-- The normal form of a schema without combinators is what comes of storing the schema. -/
theorem FormJoined.stored {s : Schema} {r : Option SchemaId} (h : FormJoined L t s r)
    (hm : s.members = []) : (s.isBottom = true ∧ r = none) ∨ Stored t (baseOf s) r := by
  have hempty := hm
  simp only [Schema.members, List.append_eq_nil_iff] at hempty
  obtain ⟨⟨hall, hany⟩, hone⟩ := hempty
  -- without combinators each case comes down to the base
  cases h with
  | bottom h => exact .inl ⟨h, rfl⟩
  | narrowed hc _ =>
      have hmem := Schema.mem_members_of_soleChild? hc
      rw [hm] at hmem
      cases hmem
  | noBase _ hbase => exact .inr hbase
  | allClash _ _ hjoin =>
      rw [hall] at hjoin
      cases hjoin
  | alternatives _ hbase hjoin halt =>
      rw [hall] at hjoin
      cases hjoin with
      | nil =>
          cases halt with
          | neither _ _ => exact .inr hbase
          | anyClash h _ => exact absurd hany h
          | oneClash h _ => exact absurd hone h
          | any h _ _ _ => exact absurd hany h
          | one _ h _ _ => exact absurd hone h
          | both h _ _ _ _ _ => exact absurd hany h

theorem FormJoined.plain {s : Schema} {n : SchemaId} (h : FormJoined L t s (some n))
    (hm : s.members = []) : t.schema n = trimValues (baseOf s) := by
  rcases h.stored hm with ⟨-, hnone⟩ | hstored
  · cases hnone
  · cases hstored with
    | stored _ _ hs => exact hs

theorem links_baseOf {s : Schema} (hm : s.members = []) : (baseOf s).links = s.links := by
  simp only [Schema.links, hm]
  simp [baseOf, Schema.withoutCombinators, Schema.members, extraSchema?]

theorem runs_normalize (hL : Upheld L) (hsolve : Sound L solve) (ha : a.Lawful L)
    {id : SchemaId} (hid : id < a.next) :
    Runs L (a.Scope (.normalize id)) (normalize solve id) a
      fun r t => t.progress.get? id = some (.done r) := by
  unfold normalize
  refine .view_bind ?_
  split
  · next r hr => exact .pure ha hr
  · exact .view_bind (.fault ha)
  next hnone =>
  have henter := lawful_enter ha hid hnone
  have hgrows := grows_enter ha.toWellFormed hnone
  -- what is on the path is marked, so this schema is not
  have hnew : id ∉ a.pending := by
    intro hmem
    rw [← ha.pending id, hnone] at hmem
    cases hmem
  have hwork : Runs L (a.Scope (.normalize id)) (normalForm solve id) (a.enter id)
      fun r t => FormJoined L t (a.schema id) r :=
    runs_normalForm hsolve henter fun hm q => hm
  have hraw : ∀ {t o}, Confined (a.Scope (.normalize id)) (a.enter id) t →
      Grows t (settle id o t) → ∀ x, x < (settle id o t).next → (settle id o t).Raw x →
        x < a.next := by
    intro t o hat hset x hx hraw
    rw [next_settle] at hx
    exact hat.raw x hx ((hset.raw_iff hx).1 hraw)
  -- the path is restored and the mark replaced, whatever came of the work
  refine (Work.ends_thenAlways.2 (Work.Ends.mono hwork ?_ ?_) :)
  · rintro r t ⟨⟨ht, hat⟩, hr⟩
    have hpath : t.pending = a.pending ++ [id] := hat.pending
    have hschema : t.schema id = a.schema id := hat.schema id hid
    have hplain : ∀ n, r = some n → (t.schema id).members = [] →
        (t.schema n).members = [] ∧ (t.schema n).links = (t.schema id).links := by
      rintro n rfl hm
      rw [hschema] at hm ⊢
      rw [hr.plain hm, members_trimValues, links_trimValues, links_baseOf hm]
      exact ⟨rfl, rfl⟩
    have hlaw := hL.form ht (Nat.lt_of_lt_of_le hid hat.next) (hschema ▸ hr)
    obtain ⟨hlawful, hset, hdone⟩ := lawful_settle_ok ht hpath hnew
      (fun n hn => (hn ▸ hr).isForm ht.toWellFormed) hplain hlaw
    refine ⟨⟨hlawful, ?_⟩, hdone⟩
    refine { (hgrows.trans hat.toGrows).trans hset with
      pending := pending_settle hpath _, raw := hraw hat hset, conjunctions := fun k hk => ?_ }
    cases r <;> exact hat.conjunctions k hk
  · rintro e t ⟨ht, hat⟩
    have hpath : t.pending = a.pending ++ [id] := hat.pending
    obtain ⟨hlawful, hset⟩ := lawful_settle_error ht hpath hnew e
    refine ⟨hlawful, ?_⟩
    exact { (hgrows.trans hat.toGrows).trans hset with
      pending := pending_settle hpath _
      raw := hraw hat hset
      conjunctions := fun k hk => hat.conjunctions k hk }

/-! ## Steps that ask for nothing -/

section Alone

variable {bad : Failure → Prop} {x y : SchemaId}

theorem fails_store (s : Schema) (bad : Failure → Prop) : Work.Fails (store s) a bad := by
  unfold store
  dsimp only
  split
  · exact .pure
  · exact .view_bind (.modify_bind .pure)

theorem fails_reuseOrStore (s₁ s₂ out : Schema) (bad : Failure → Prop) :
    Work.Fails (reuseOrStore x y s₁ s₂ out) a bad := by
  unfold reuseOrStore
  split
  · exact .pure
  split
  · exact .pure
  · exact fails_store out bad

theorem fails_agreed {α : Type} [BEq α] (hbad : ∀ p text, bad (.fault (.unsupported p text)))
    (place : Pointer) (keyword : String) (text : α → String) (v w : Option α) :
    Work.Fails (agreed place keyword text v w) a bad := by
  unfold agreed
  split
  · split
    · exact .pure
    · exact hbad _ _
  · exact .pure

theorem fails_combineKeywords (hbad : ∀ p text, bad (.fault (.unsupported p text)))
    (s₁ s₂ : Schema) (place : Pointer) : Work.Fails (combineKeywords s₁ s₂ place) a bad := by
  unfold combineKeywords
  refine .bind_any (fails_agreed hbad _ _ _ _ _) fun _ _ => ?_
  refine .bind_any (fails_agreed hbad _ _ _ _ _) fun _ _ => ?_
  exact .bind_any (fails_agreed hbad _ _ _ _ _) fun _ _ => .pure

theorem fails_putOff (place : Pointer) (bad : Failure → Prop) :
    Work.Fails (putOff x y place) a bad := by
  unfold putOff
  refine .view_bind ?_
  split
  · exact .pure
  · refine .view_bind ?_
    split
    · exact .pure
    · exact .view_bind (.modify_bind .pure)

/-- What the last part of a normalization makes of the branches asks for nothing. -/
theorem fails_gather (s : Schema) (own : SchemaId) (bs : List SchemaId) (bad : Failure → Prop) :
    Work.Fails (match bs with
      | [] => return if s.anyOf.isEmpty && s.oneOf.isEmpty then some own else none
      | [only] => return some only
      | branches => do
        let demands ← Work.view (·.schema own)
        store { demands with pointer := s.pointer, anyOf := branches }) a bad := by
  split
  · exact .pure
  · exact .pure
  · exact .view_bind (fails_store _ _)

end Alone

/-! ## The closed recursion -/

theorem sound_step (hL : Upheld L) (hsolve : Sound L solve) : Sound L (step solve) := by
  intro task a ha hvalid
  cases task with
  | normalize id => exact runs_normalize hL hsolve ha hvalid
  | conjoin x y place => exact runs_conjoin hL hsolve ha hvalid.1 hvalid.2

/-- Every supply of nested calls makes a sound solver. -/
theorem sound_solve (hL : Upheld L) (calls : Nat) : Sound L (Arena.solve calls) := by
  induction calls with
  | zero => exact fun _ _ ha _ => .exhausted ha
  | succ calls ih => exact sound_step hL ih

end ApiModel.Arena
