/-
  ApiModel.Proofs.Schema.FixedPoint

  Normal forms worked out afresh. A normal form without alternatives is stored as it is, so a copy of
  it has a normal form with the same demands whatever the solver. With alternatives each of them is
  conjoined with the demands of the whole once more. Where a schema leads to alternatives only as its
  own, the branches of its normal form absorb the demands of the whole, so they all stay as they are
  and in their order, and the same schema comes of it again.
-/
import ApiModel.Proofs.Schema.Chaining
import ApiModel.Proofs.Schema.Plain
import ApiModel.Proofs.Schema.Settled

namespace ApiModel

/-- What a normal form demands itself. -/
def Schema.withoutAlternatives (s : Schema) : Schema := { s with anyOf := [] }

theorem Schema.withoutAlternatives_eq {s : Schema} (h : s.anyOf = []) :
    s.withoutAlternatives = s := by
  rw [withoutAlternatives, ← h]

namespace Arena

variable {P : Json → Prop} {a b t : Arena} {solve : Solver} {x y n own c : SchemaId} {s : Schema}
  {ms bs : List SchemaId} {r : Option SchemaId}

/-! ## The demands of a normal form -/

/-- Other alternatives, if it is not a single one, leave a normal form one. -/
theorem isNormal_branches (h : s.IsNormal) (p : Pointer) (hlen : bs.length ≠ 1) :
    ({ s with pointer := p, anyOf := bs } : Schema).IsNormal :=
  ⟨h.allOf, h.oneOf, h.kinds, h.satisfiable, h.values, hlen⟩

theorem isNormal_withoutAlternatives (h : s.IsNormal) : s.withoutAlternatives.IsNormal :=
  isNormal_branches h s.pointer (by simp)

theorem baseOf_of_isNormal (h : s.IsNormal) : baseOf s = s.withoutAlternatives := by
  obtain ⟨ks, hks⟩ := Option.ne_none_iff_exists'.1 h.kinds
  have hall := h.allOf
  have hone := h.oneOf
  cases s
  simp_all [baseOf, Schema.withoutCombinators, Schema.withoutAlternatives]

/-- A normal form is more than one combinator. -/
theorem soleChild?_of_isNormal (h : s.IsNormal) : s.soleChild? = none := by
  refine Option.eq_none_iff_forall_ne_some.2 fun c hc => ?_
  rcases (Schema.soleChild?_spec hc).2 with ⟨hall, -, -⟩ | ⟨-, hany, -⟩ | ⟨-, -, hone⟩
  · cases hall.symm.trans h.allOf
  · exact h.anyOf (by simp [hany])
  · cases hone.symm.trans h.oneOf

theorem run_store (h : s.IsNormal) : (store s).run a = (.ok (some a.next), a.addForm s) := by
  unfold store
  simp only [trimValues_of_isNormal h, h.satisfiable, Bool.false_eq_true, if_false]
  rfl

/-- The demands of a normal form are stored as they are; what is left are its alternatives. -/
theorem run_normalForm (h : (a.schema n).IsNormal) : (normalForm solve n).run a =
    (withAlternatives solve (a.schema n) a.next).run
      (a.addForm (a.schema n).withoutAlternatives) := by
  have hbase : ({ (a.schema n).withoutCombinators with
      kinds := some ((a.schema n).kinds.getD .full) } : Schema) =
        (a.schema n).withoutAlternatives := baseOf_of_isNormal h
  unfold normalForm
  rw [Work.run_bind, Work.run_view]
  simp only [h.satisfiable, Bool.false_eq_true, if_false, soleChild?_of_isNormal h, hbase, h.allOf]
  rw [Work.run_bind, run_store (isNormal_withoutAlternatives h)]
  rfl

theorem run_withAlternatives (hany : s.anyOf = []) (hone : s.oneOf = []) :
    (withAlternatives solve s own).run a = (.ok (some own), a) := by
  unfold withAlternatives
  simp only [hany, hone]
  rfl

/-- With alternatives of one kind only, the branches that survive decide: none or a single one is
    the answer, and more of them are stored with the demands of the whole. -/
theorem exists_survivors (hany : s.anyOf ≠ []) (hone : s.oneOf = [])
    (hrun : (withAlternatives solve s own).run a = (.ok r, b)) : ∃ bs c,
    (survivors solve own (s.pointer.push "anyOf") 0 s.anyOf).run a = (.ok bs, c) ∧
      (bs.length < 2 ∧ b = c ∨ 2 ≤ bs.length ∧
        (store { c.schema own with pointer := s.pointer, anyOf := bs }).run c = (.ok r, b)) := by
  obtain ⟨bs, c, hbs, hrest⟩ := Work.exists_of_run_bind hrun
  refine ⟨bs, c, hbs, ?_⟩
  obtain ⟨m, ms, hms⟩ := List.exists_cons_of_ne_nil hany
  rw [hms, hone] at hrest
  match bs with
  | [] => cases hrest; exact .inl ⟨by simp, rfl⟩
  | [_] => cases hrest; exact .inl ⟨by simp, rfl⟩
  | _ :: _ :: _ => exact .inr ⟨by simp, hrest⟩

/-- A schema that is new to the memo is normalized while it is on the path. -/
theorem run_normalize (h : a.progress.get? n = none) : (normalize solve n).run a =
    ((normalForm solve n).thenAlways (settle n)).run (a.enter n) := by
  unfold normalize
  rw [Work.run_bind, Work.run_view, h]
  rfl

/-- A copy of a normal form without alternatives, new to the memo, has a normal form, whatever the
    solver, and that is the same schema again. -/
theorem run_normalize_copy (ha : a.WellFormed P) (hn : a.IsForm n)
    (hany : (a.schema n).anyOf = []) (solve : Solver) :
    ∃ b, (normalize solve a.next).run (a.push (a.schema n)) = (.ok (some (a.next + 1)), b) ∧
      b.schema (a.next + 1) = a.schema n := by
  have hnormal := (ha.normal n hn).1
  have hnew : (a.push (a.schema n)).progress.get? a.next = none :=
    Option.eq_none_iff_forall_ne_some.2 fun p hp => absurd (ha.known _ p hp) (Nat.lt_irrefl _)
  have hcopy : ((a.push (a.schema n)).enter a.next).schema a.next = a.schema n :=
    (schema_push a _ _).trans (if_pos rfl)
  have hnext : ((a.push (a.schema n)).enter a.next).next = a.next + 1 := next_push a _
  have hrun : (normalForm solve a.next).run ((a.push (a.schema n)).enter a.next) =
      (.ok (some (a.next + 1)), ((a.push (a.schema n)).enter a.next).addForm (a.schema n)) := by
    rw [run_normalForm (by rwa [hcopy]), hcopy, Schema.withoutAlternatives_eq hany,
      run_withAlternatives hany hnormal.oneOf, hnext]
  refine ⟨settle a.next (.ok (some (a.next + 1)))
    (((a.push (a.schema n)).enter a.next).addForm (a.schema n)), ?_, ?_⟩
  · rw [run_normalize hnew, Work.run_thenAlways, hrun]
  · rw [settle_eq]
    exact (schema_addForm _ _ _).trans (if_pos hnext.symm)

/-! ## Branches that absorb the whole -/

/-- A schema of the document that leads to alternatives only as its own, and to none that spells out
    that further properties are allowed. -/
structure Branching (a : Arena) (x : SchemaId) : Prop where
  raw : a.Raw x
  extras : (a.schema x).extras ≠ some (.allowed true)
  links : ∀ c ∈ (a.schema x).links, a.Strict c

theorem branching_iff (ha : a.WellFormed P) (h : Grows a b) (hx : x < a.next) :
    b.Branching x ↔ a.Branching x := by
  have hlinks : (∀ c ∈ (a.schema x).links, b.Strict c) ↔ ∀ c ∈ (a.schema x).links, a.Strict c :=
    forall_congr' fun c => imp_congr_right fun hc => strict_iff ha h (ha.link_lt hc)
  constructor
  · rintro ⟨hraw, hextras, hstrict⟩
    rw [h.schema x hx] at hextras hstrict
    exact ⟨(h.raw_iff hx).1 hraw, hextras, hlinks.1 hstrict⟩
  · rintro ⟨hraw, hextras, hstrict⟩
    refine ⟨(h.raw_iff hx).2 hraw, ?_, ?_⟩ <;> rw [h.schema x hx]
    · exact hextras
    · exact hlinks.2 hstrict

/-- The normal form `n` demands itself what the strict one `own` does, and its alternatives absorb
    `own`. -/
structure Parted (a : Arena) (n own : SchemaId) : Prop where
  form : a.IsForm own
  strict : a.Strict own
  schema : ∃ p, (a.schema n).withoutAlternatives = { a.schema own with pointer := p }
  branches : ∀ c ∈ (a.schema n).anyOf, a.Absorbs c own

theorem parted_self (hn : a.IsForm n) (hstrict : a.Strict n) : a.Parted n n :=
  ⟨hn, hstrict, ⟨_, Schema.withoutAlternatives_eq hstrict.schema.anyOf⟩,
    by simp [hstrict.schema.anyOf]⟩

theorem Parted.mono (ha : a.WellFormed P) (h : Grows a b) (hn : a.IsForm n)
    (hparted : a.Parted n own) : b.Parted n own where
  form := h.form hparted.form
  strict := (strict_iff ha h (ha.isForm_lt hparted.form)).2 hparted.strict
  schema := by
    rw [h.schema _ (ha.isForm_lt hn), h.schema _ (ha.isForm_lt hparted.form)]
    exact hparted.schema
  branches c hc := by
    rw [h.schema _ (ha.isForm_lt hn)] at hc
    exact (hparted.branches c hc).mono ha h ((ha.normal n hn).2 c hc) hparted.form

/-- The alternatives absorb a copy of what the form demands itself. -/
theorem Parted.absorbs_copy (ha : a.WellFormed Json.Distinct) (hn : a.IsForm n)
    (hparted : a.Parted n own) (hb : b.WellFormed Json.Distinct) (h : Grows a b)
    (hx : b.schema x = (a.schema n).withoutAlternatives) :
    ∀ m ∈ (a.schema n).anyOf, b.IsForm m ∧ b.Absorbs m x := by
  intro m hm
  have hform := (ha.normal n hn).2 m hm
  have hown := h.schema own (ha.isForm_lt hparted.form)
  obtain ⟨p, hp⟩ := hparted.schema
  refine ⟨h.form hform, ?_⟩
  refine ((hparted.branches m hm).mono ha h hform hparted.form).relocate hb (h.form hparted.form)
    (p := p) ?_ ?_ <;> rw [hown]
  · exact hparted.strict.schema
  · exact hx.trans hp

/-- Besides absorption: the branches of the normal form of a branching schema absorb what the form
    demands itself. -/
def parting : Law Json.Distinct where
  form a id r := absorption.form a id r ∧
    (a.Prompt → a.Branching id → ∀ n, r = some n → ∃ own, a.Parted n own)
  both := absorption.both
  form_mono ha hb h hid hr hlaw := by
    refine ⟨absorption.form_mono ha hb h hid hr hlaw.1, fun hp hx n hn => ?_⟩
    rw [branching_iff ha h hid] at hx
    obtain ⟨own, hown⟩ := hlaw.2 (prompt_of_grows ha h hp) hx n hn
    exact ⟨own, hown.mono ha h (hr n hn)⟩
  both_mono := absorption.both_mono
  form_self ha hn := ⟨absorption.form_self ha hn, fun _ hx => absurd hn hx.raw.1⟩
  both_self := absorption.both_self

theorem entails_parting : parting.Entails absorption := ⟨fun h => h.1, fun h => h⟩

section Parting

variable {L : Law Json.Distinct} (hL : L.Entails absorption) (ht : t.Lawful L) (hp : t.Prompt)
include hL ht hp

/-- Branches conjoined with normal forms that absorb `own` do so too. -/
theorem Crossed.absorbs {left right : List SchemaId} (h : Crossed L t left right bs)
    (hown : t.IsForm own) (hl : ∀ l ∈ left, t.Strict l)
    (hr : ∀ r ∈ right, t.IsForm r ∧ t.Strict r ∧ t.Absorbs r own) :
    ∀ c ∈ bs, t.IsForm c ∧ t.Strict c ∧ t.Absorbs c own := by
  intro c hc
  obtain ⟨l, hlm, r, hrm, hj⟩ := h.sound c hc
  obtain ⟨hform, hstrict, habsorbs⟩ := hr r hrm
  refine ⟨hj.isForm, ?_⟩
  cases hj with
  | forms hnl hnr _ _ hlaw =>
      cases hform.symm.trans hnr
      -- the branch absorbs its right side, and that one absorbs `own`
      obtain ⟨hc, -, hcr⟩ := hL.both hlaw hp (strict_of_done hL ht hp (hl l hlm) hnl) hstrict c rfl
      exact ⟨hc, hcr.chain ht.toWellFormed hown habsorbs⟩

omit hL hp in
theorem parted_of_gathered (hown : t.IsForm own) (hstrict : t.Strict own)
    (hbs : ∀ c ∈ bs, t.IsForm c ∧ t.Strict c ∧ t.Absorbs c own)
    (h : Gathered t s own bs (some n)) : ∃ own, t.Parted n own := by
  generalize hn : some n = r at h
  cases h with
  | none _ => cases hn
  | one h =>
      cases hn
      obtain ⟨hform, hc, -⟩ := hbs n (by simp [h])
      exact ⟨n, parted_self hform hc⟩
  | many hlen hs =>
      subst hn
      have hwhole := isNormal_branches (ht.normal own hown).1 s.pointer (Nat.ne_of_gt hlen)
      cases hs with
      | stored _ _ hn =>
          -- the demands are those of a normal form, so their values are trimmed already
          rw [trimValues_of_isNormal hwhole] at hn
          refine ⟨own, hown, hstrict, ⟨s.pointer, ?_⟩, fun c hc => ?_⟩
          · rw [hn, Schema.withoutAlternatives, ← hstrict.schema.anyOf]
          · rw [hn] at hc
            exact (hbs c hc).2.2

theorem parted_of_alternativesJoined (hown : t.IsForm own) (hstrict : t.Strict own)
    (hms : ∀ m ∈ s.members, t.Strict m) (hj : AlternativesJoined L t s own (some n)) :
    ∃ own, t.Parted n own := by
  have hany : ∀ m ∈ s.anyOf, t.Strict m := fun m hm => hms m (by simp [Schema.members, hm])
  have hone : ∀ m ∈ s.oneOf, t.Strict m := fun m hm => hms m (by simp [Schema.members, hm])
  have hself : ∀ r ∈ [own], t.IsForm r ∧ t.Strict r ∧ t.Absorbs r own := by
    simpa using ⟨hown, hstrict, .same own⟩
  generalize hn : some n = r at hj
  cases hj with
  | neither _ _ => cases hn; exact ⟨_, parted_self hown hstrict⟩
  | anyClash _ _ => cases hn
  | oneClash _ _ => cases hn
  | any _ _ h hg =>
      exact parted_of_gathered ht hown hstrict (h.absorbs hL ht hp hown hany hself) (hn ▸ hg)
  | one _ _ h hg =>
      exact parted_of_gathered ht hown hstrict (h.absorbs hL ht hp hown hone hself) (hn ▸ hg)
  | both _ _ has hos h hg =>
      -- each group by itself first, then the pairs
      have hleft := has.absorbs hL ht hp hown hany hself
      have hright := hos.absorbs hL ht hp hown hone hself
      refine parted_of_gathered ht hown hstrict ?_ (hn ▸ hg)
      exact h.absorbs hL ht hp hown (fun l hl => (hleft l hl).2.1) hright

theorem parted_of_formJoined (hx : t.Branching x)
    (hj : FormJoined L t (t.schema x) (some n)) : ∃ own, t.Parted n own := by
  have hmember : ∀ {m}, m ∈ (t.schema x).members → t.Strict m := fun hm =>
    hx.links _ (Schema.mem_links_of_member hm)
  have hform := hj.isForm ht.toWellFormed
  generalize hn : some n = r at hj
  cases hj with
  | bottom _ => cases hn
  | narrowed hc h =>
      have hc := hmember (Schema.mem_members_of_soleChild? hc)
      refine ⟨n, parted_self hform ?_⟩
      cases h with
      | unmatched _ => cases hn
      | anyKind hdone _ => cases hn; exact strict_of_done hL ht hp hc hdone
      | noKind _ _ _ => cases hn
      | kinds hdone _ hs hj =>
          refine strict_of_joined hL ht hp (hn ▸ hj) (strict_of_done hL ht hp hc hdone) ?_
          exact strict_of_stored hs ⟨rfl, rfl, nofun⟩ (fun _ hc => nomatch hc)
  | noBase _ _ => cases hn
  | allClash _ _ _ => cases hn
  | alternatives _ hbase hall halt =>
      have hbase' := strict_of_stored hbase ⟨rfl, rfl, hx.extras⟩
        fun c hc => hx.links c (mem_links_of_baseOf hc)
      have hown := strict_of_allJoined hL ht hp hbase'
        (fun m hm => hmember (by simp [Schema.members, hm])) hall
      exact parted_of_alternativesJoined hL ht hp (hall.isForm hbase.isForm) hown
        (fun m hm => hmember hm) (hn ▸ halt)

end Parting

theorem upheld_parting : Upheld parting where
  form ht _ hj := by
    refine ⟨fun hp hx n hn => ?_, fun hp hx n hn => ?_⟩
    · exact strict_of_formJoined entails_parting ht hp hx (hn ▸ hj)
    · exact parted_of_formJoined entails_parting ht hp hx (hn ▸ hj)
  both ht _ _ _ hj hp hx hy _ hn :=
    absorbs_of_bothJoined entails_parting ht hp hx hy (hn ▸ hj)

/-! ## The same branches again -/

section Again

variable (hsolve : Sound repetition solve)
include hsolve

/-- Alternatives that absorb `own` all survive its demands, each as it is. -/
theorem eq_of_survivors (ha : a.Lawful repetition) (hown : a.IsForm own)
    (hms : ∀ m ∈ ms, a.IsForm m ∧ a.Absorbs m own) {group : Pointer} {i : ℕ}
    (hrun : (survivors solve own group i ms).run a = (.ok bs, b)) (hp : b.Prompt) : bs = ms := by
  induction ms generalizing i a bs with
  | nil => cases hrun; rfl
  | cons m ms ih =>
      obtain ⟨hm, habsorbs⟩ := hms m (by simp)
      have hlt : ∀ {c}, c ∈ m :: ms → c < a.next := fun hc => ha.isForm_lt (hms _ hc).1
      obtain ⟨o, c, hconjoin, hrun⟩ := Work.exists_of_run_bind hrun
      obtain ⟨rest, d, hrest, hrun⟩ := Work.exists_of_run_bind hrun
      cases hrun
      obtain ⟨⟨hc, hac⟩, ho⟩ := (hsolve.conjoin (Q := fun _ => True) ha (hlt (by simp))
        (ha.isForm_lt hown) fun _ _ => trivial).of_ok hconjoin
      have hgrows := hac.toGrows
      have hown' := hgrows.form hown
      obtain ⟨⟨-, hcb⟩, -⟩ := (runs_survivors (Q := fun _ => True) hsolve hc
        (hc.isForm_lt hown') group (i + 1)
        (fun k hk => Nat.lt_of_lt_of_le (hlt (List.mem_cons_of_mem m hk)) hgrows.next)
        fun _ _ => trivial).of_ok hrest
      -- the first one is its own conjunction, and the others stay as well
      have hfirst := ho.both_of_isForm (hgrows.form hm) hown' c hc.toWellFormed (.refl c)
        (prompt_of_grows hc.toWellFormed hcb.toGrows hp)
        (habsorbs.mono ha.toWellFormed hgrows hm hown)
      have hothers := ih hc hown' (fun k hk => by
        obtain ⟨hk, habsorbs⟩ := hms k (List.mem_cons_of_mem m hk)
        exact ⟨hgrows.form hk, habsorbs.mono ha.toWellFormed hgrows hk hown⟩) hrest
      rw [hfirst, hothers]
      rfl

/-- Where the alternatives of a normal form absorb its demands, the same schema comes of it. -/
theorem schema_of_normalForm (ha : a.Lawful repetition) (hn : a.IsForm n)
    (hparted : a.Parted n own) (hrun : (normalForm solve n).run a = (.ok r, b)) (hp : b.Prompt) :
    ∃ m, r = some m ∧ b.schema m = a.schema n := by
  have hnormal := (ha.normal n hn).1
  have hnext : (a.addForm (a.schema n).withoutAlternatives).schema a.next =
      (a.schema n).withoutAlternatives := (schema_addForm _ _ _).trans (if_pos rfl)
  rw [run_normalForm hnormal] at hrun
  by_cases hany : (a.schema n).anyOf = []
  · rw [run_withAlternatives hany hnormal.oneOf] at hrun
    cases hrun
    exact ⟨a.next, rfl, hnext.trans (Schema.withoutAlternatives_eq hany)⟩
  -- the demands of the whole are there once more
  have hproper : (a.schema n).withoutAlternatives.Proper Json.Distinct a.next :=
    baseOf_of_isNormal hnormal ▸ (storable_baseOf (ha.proper n)).proper
  have hadd := lawful_addForm ha hproper (isNormal_withoutAlternatives hnormal)
    (by simp [Schema.withoutAlternatives])
  have hgrows := (advances_addForm ha.toWellFormed (a.schema n).withoutAlternatives).toGrows
  generalize hstart : a.addForm (a.schema n).withoutAlternatives = start at *
  have hbase : start.IsForm a.next := hstart ▸ isForm_addForm a _
  have hms := hparted.absorbs_copy ha.toWellFormed hn hadd.toWellFormed hgrows hnext
  obtain ⟨bs, c, hsurvivors, hrest⟩ := exists_survivors hany hnormal.oneOf hrun
  obtain ⟨⟨hc, hac⟩, hcrossed⟩ := (runs_survivors (Q := fun _ => True) hsolve hadd
    (hadd.isForm_lt hbase) _ 0 (fun m hm => hadd.isForm_lt (hms m hm).1)
    fun _ _ => trivial).of_ok hsurvivors
  rcases hrest with ⟨hlen, rfl⟩ | ⟨hlen, hstore⟩
  -- all alternatives survive, and no normal form has a single one
  · rw [eq_of_survivors hsolve hadd hbase hms hsurvivors hp] at hlen
    have hpos := List.length_pos_of_ne_nil hany
    exact absurd (Nat.le_antisymm (Nat.le_of_lt_succ hlen) hpos) hnormal.anyOf
  · obtain ⟨⟨-, hcb⟩, -⟩ := (runs_store (Q := fun _ => True) hc (storable_branches hc.toWellFormed
      (hac.toGrows.form hbase) hcrossed.isForm (Nat.ne_of_gt hlen) _)).of_ok hstore
    have hpc := prompt_of_grows hc.toWellFormed hcb.toGrows hp
    have hwhole : ({ c.schema a.next with
        pointer := (a.schema n).pointer, anyOf := bs } : Schema) = a.schema n := by
      rw [eq_of_survivors hsolve hadd hbase hms hsurvivors hpc,
        hac.schema _ (hadd.isForm_lt hbase), hnext]
      rfl
    rw [hwhole, run_store hnormal] at hstore
    cases hstore
    exact ⟨c.next, rfl, (schema_addForm _ _ _).trans (if_pos rfl)⟩

end Again

end Arena

namespace Session

variable {document : Json} {naming : Naming} {s s' t : Session} {x n : SchemaId}
  {calls calls' : ℕ} {r : Option SchemaId} {b : Arena}

/-- The normal form of a branching schema is a fixed point: what comes of it when it is worked out
    afresh, at any later time, is the same schema again, unless a conjunction has been put off. -/
theorem normalForm_again (hd : document.Distinct) (hs : Reachable document naming s)
    (hx : x < s.arena.next) (hbranching : s.arena.Branching x)
    (hrun : (normalize calls x).run s = (.ok (some n), s'))
    (hlater : Later document naming s' t)
    (hagain : (Arena.normalForm (Arena.solve calls') n).run t.arena = (.ok r, b))
    (hp : b.Prompt) : ∃ m, r = some m ∧ b.schema m = b.schema n := by
  have hL := Arena.upheld_parting
  have hlawful := hs.lawful hL hereditary_distinct hd
  obtain ⟨⟨hlawful', hfollows⟩, hdone⟩ := (keeps_normalize hL hlawful calls hx).of_ok hrun
  obtain ⟨-, hgrows'⟩ := lawful_of_later hL hereditary_distinct hd hlawful' hlater
  have hwf' := hlawful'.arena.toWellFormed
  have hform := hwf'.form _ _ hdone
  have hform' := hgrows'.form hform
  -- the later session obeys the other law as well
  have hL' := Arena.upheld_repetition
  obtain ⟨⟨hagain₁, -⟩, -⟩ := (keeps_normalize hL' (hs.lawful hL' hereditary_distinct hd) calls
    hx).of_ok hrun
  have ht := (lawful_of_later hL' hereditary_distinct hd hagain₁ hlater).1.arena
  have hsolve := Arena.sound_solve hL' calls'
  obtain ⟨⟨-, htb⟩, -⟩ := (Arena.runs_normalForm (Q := fun _ => True) hsolve ht
    fun _ _ => trivial).of_ok hagain
  -- what is not put off at the end was not put off before
  have hpt := Arena.prompt_of_grows ht.toWellFormed htb.toGrows hp
  have hps := Arena.prompt_of_grows hwf' hgrows' hpt
  rw [← Arena.branching_iff hlawful.arena.toWellFormed hfollows.arena hx] at hbranching
  obtain ⟨own, hparted⟩ := (hlawful'.arena.forms x _ hdone).2 hps hbranching n rfl
  obtain ⟨m, hr, hm⟩ := Arena.schema_of_normalForm hsolve ht hform'
    (hparted.mono hwf' hgrows' hform) hagain hp
  exact ⟨m, hr, hm.trans (htb.schema n (ht.isForm_lt hform')).symm⟩

/-- Texts or nothing at all: the two alternatives come of themselves. -/
theorem normalForm_again_twoKinds : ∃ b m,
    (Arena.normalForm (Arena.solve 3) 6).run ((normalize 3 0).run twoKindsLoaded).2.arena =
      (.ok (some m), b) ∧ b.schema m = b.schema 6 := by
  have hlt : 0 < twoKindsLoaded.arena.next := by decide +kernel
  have hloaded : twoKindsLoaded.loaded.get? .root = some 0 := by decide +kernel
  have hlinks : (twoKindsLoaded.arena.schema 0).links = [1, 2] := by decide +kernel
  have hplain : ∀ c ∈ [1, 2], (twoKindsLoaded.arena.schema c).anyOf = [] ∧
      (twoKindsLoaded.arena.schema c).oneOf = [] ∧
      (twoKindsLoaded.arena.schema c).extras ≠ some (.allowed true) ∧
      (twoKindsLoaded.arena.schema c).links = [] := by decide +kernel
  have hbranching : twoKindsLoaded.arena.Branching 0 := by
    have hlawful := reachable_twoKinds.lawful Arena.upheld_free hereditary_true trivial
    refine ⟨(hlawful.loaded _ _ hloaded).2, by decide +kernel, fun c hc => ?_⟩
    rw [hlinks] at hc
    obtain ⟨hany, hone, hextras, hnone⟩ := hplain c hc
    exact Arena.strict_of_links ⟨hany, hone, hextras⟩ (by simp [hnone])
  have hagain : (Arena.normalForm (Arena.solve 3) 6).run
      ((normalize 3 0).run twoKindsLoaded).2.arena = (.ok (some 8), _) :=
    Work.run_eq_of_toOption (by decide +kernel)
  obtain ⟨m, hm, hschema⟩ := normalForm_again (by simp [twoKinds]) reachable_twoKinds hlt hbranching
    run_normalize_twoKinds .refl hagain (Arena.prompt_of_isEmpty (by decide +kernel))
  exact ⟨_, m, hm ▸ hagain, hschema⟩

end Session

end ApiModel
