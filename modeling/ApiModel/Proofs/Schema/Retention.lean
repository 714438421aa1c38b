/-
  ApiModel.Proofs.Schema.Retention

  Null that is allowed besides. A schema with combinators that allows null besides is split into
  itself and null, and null stays one of the alternatives whatever becomes of the others. A schema
  without combinators has null among its kinds; so its type admits null unless all kinds are left and
  a keyword speaks for some of them, which null is never one of.
-/
import ApiModel.Proofs.Schema.Nullable

namespace ApiModel

namespace Arena

variable {P : Json → Prop} {a b : Arena} {x y n c base : SchemaId} {s : Schema}
  {r : Option SchemaId} {bs : List SchemaId}

/-! ## Schemas that allow null -/

/-- An alternative of the normal form `x` admits null. -/
abbrev AdmitsNull (a : Arena) (x : SchemaId) : Prop :=
  SomeEnd (fun s => s.admitsNull = true) a x

/-- The schema `x` combines nothing and admits null, or null is the second one of its two
    alternatives. -/
inductive AllowsNull (a : Arena) (x : SchemaId) : Prop
  | own (hmembers : (a.schema x).members = [])
      (hkinds : ((a.schema x).kinds.getD .full).null = true)
      (h : (a.schema x).admitsNull = true)
  | split {inner null : SchemaId} {p q : Pointer}
      (hx : a.schema x = { Schema.blank p with anyOf := [inner, null] })
      (hnull : a.schema null = Session.nullAt q)

theorem allowsNull_of_grows (ha : a.WellFormed P) (h : Grows a b) (hx : x < a.next) :
    b.AllowsNull x ↔ a.AllowsNull x := by
  have hschema := h.schema x hx
  have hsame : ∀ {inner null : SchemaId} {p : Pointer},
      a.schema x = { Schema.blank p with anyOf := [inner, null] } →
      b.schema null = a.schema null := fun hsplit =>
    h.schema _ (ha.anyOf_lt (x := x) (by simp [hsplit]))
  constructor <;> intro hallows
  · cases hallows with
    | own hmembers hkinds hown =>
        rw [hschema] at hmembers hkinds hown
        exact .own hmembers hkinds hown
    | split hsplit hnull =>
        rw [hschema] at hsplit
        exact .split hsplit ((hsame hsplit).symm.trans hnull)
  · cases hallows with
    | own hmembers hkinds hown =>
        rw [← hschema] at hmembers hkinds hown
        exact .own hmembers hkinds hown
    | split hsplit hnull => exact .split (hschema.trans hsplit) ((hsame hsplit).trans hnull)

theorem allowsNull_of_nullAt {q : Pointer} (h : a.schema x = Session.nullAt q) :
    a.AllowsNull x := by
  refine .own ?_ ?_ ?_ <;> rw [h] <;> rfl

/-- A normal form that allows null has an alternative that admits it. -/
theorem AllowsNull.admitsNull (h : a.AllowsNull x) : a.AdmitsNull x := by
  cases h with
  | own hmembers _ hown =>
      simp only [Schema.members, List.append_eq_nil_iff] at hmembers
      exact .own hmembers.1.2 hown
  | @split inner null p q hsplit hnull =>
      refine .branch (c := null) (by simp [hsplit]) (.own ?_ ?_) <;> rw [hnull] <;> rfl

/-! ## The law -/

/-- The normal form of a schema that allows null has an alternative that admits it, and null has a
    normal form. A conjunction with what demands nothing is the other side. -/
def retaining (P : Json → Prop) : Law P where
  form a x r := (∀ n, r = some n → a.AllowsNull x → a.AdmitsNull n) ∧
    ∀ q, a.schema x = Session.nullAt q → r ≠ none
  both a x y r := (a.schema y).isUnconstrained = true → r = some x
  form_mono ha _ h hx hr hlaw := by
    refine ⟨fun n hn hallows => ?_, fun q hq => hlaw.2 q ((h.schema _ hx).symm.trans hq)⟩
    exact (someEnd_of_grows ha h (ha.isForm_lt (hr n hn))).2
      (hlaw.1 n hn ((allowsNull_of_grows ha h hx).1 hallows))
  both_mono ha _ h _ hy _ hlaw hfree := hlaw (h.schema _ (ha.isForm_lt hy) ▸ hfree)
  form_self ha hn := by
    refine ⟨fun m hm hallows => ?_, fun q _ => nofun⟩
    cases hm
    exact hallows.admitsNull
  both_self _ _ _ := rfl

/-- Nothing is looked at where the right side demands nothing. -/
theorem eq_left_of_bothJoined {L : Law P} (hj : BothJoined L a x y r)
    (hfree : (a.schema y).isUnconstrained = true) : r = some x := by
  cases hj with
  | rightFree _ => rfl
  | leftFree _ h => cases hfree.symm.trans h
  | itemsClash _ h => cases hfree.symm.trans h
  | propertyClash _ _ h => cases hfree.symm.trans h
  | plain _ _ _ _ h _ => cases hfree.symm.trans h
  | noBranch _ _ h => cases hfree.symm.trans h
  | oneBranch _ _ h => cases hfree.symm.trans h
  | branches _ _ _ _ _ h => cases hfree.symm.trans h

/-! ## Normal forms -/

/-- The demands that a schema makes itself admit null as it does, if null is among its kinds. -/
theorem admitsNull_of_baseOf (hkinds : (s.kinds.getD .full).null = true)
    (h : s.admitsNull = true) : (trimValues (baseOf s)).admitsNull = true := by
  rw [Schema.admitsNull, Bool.or_eq_true, Bool.or_eq_true] at h ⊢
  rcases h with (hfree | hnull) | hvalues
  · have hfree := Schema.isUnconstrained_iff.1 hfree
    have hvalues : trimValues (baseOf s) = baseOf s := by
      unfold trimValues
      split
      · next hs _ => cases hfree.values.symm.trans hs
      · rfl
    refine .inl (.inl (Schema.isUnconstrained_iff.2 ?_))
    rw [hvalues]
    refine { hfree.withoutCombinators with kinds := ?_ }
    rintro _ ⟨⟩
    cases hks : s.kinds with
    | none => rfl
    | some ks => exact hfree.kinds ks hks
  · obtain ⟨vs, hvs, -⟩ := trimValues_eq (baseOf s)
    rw [hvs]
    exact .inl (.inr hnull)
  · rw [Option.any_eq_true] at hvalues
    obtain ⟨vs, hvs, hnull⟩ := hvalues
    obtain ⟨v, hv, hnull⟩ := List.any_eq_true.1 hnull
    have htrim : (trimValues (baseOf s)).values = some (vs.filter (s.kinds.getD .full).accepts) := by
      unfold trimValues
      have hbase : (baseOf s).values = some vs := hvs
      rw [hbase]
      rfl
    refine .inr ?_
    rw [htrim, Option.any_some, List.any_eq_true]
    refine ⟨v, List.mem_filter.2 ⟨hv, ?_⟩, hnull⟩
    cases v with
    | null => exact hkinds
    | _ => cases hnull

/-- Conjoined with what demands nothing, null stays one of the alternatives. -/
theorem exists_admitsNull_of_crossed (ha : a.Lawful (retaining P)) {left bs : List SchemaId}
    {q : Pointer} (hbs : Crossed (retaining P) a left [y] bs) (hy : a.IsForm y)
    (hfree : (a.schema y).isUnconstrained = true) (hc : c ∈ left)
    (hnull : a.schema c = Session.nullAt q) : ∃ m ∈ bs, a.AdmitsNull m := by
  obtain ⟨o, ho, hmem⟩ := hbs.complete c hc y (List.mem_singleton_self y)
  cases ho with
  | left hnone => exact absurd rfl ((ha.forms c none hnone).2 q hnull)
  | right _ hnone => cases hy.symm.trans hnone
  | @forms m _ _ hm hy' _ _ hlaw =>
      cases hy.symm.trans hy'
      exact ⟨m, hmem m (hlaw hfree), (ha.forms c _ hm).1 m rfl (allowsNull_of_nullAt hnull)⟩

theorem Gathered.admitsNull {bs : List SchemaId} (hj : Gathered a s y bs (some n))
    (h : ∃ m ∈ bs, a.AdmitsNull m) : a.AdmitsNull n := by
  obtain ⟨m, hm, hadmits⟩ := h
  generalize hr : some n = r at hj
  cases hj with
  | none _ => cases hr
  | one hsingle =>
      cases hr
      rw [hsingle, List.mem_singleton] at hm
      exact hm ▸ hadmits
  | many _ hstored =>
      cases hstored with
      | bottom _ => cases hr
      | stored _ _ hschema =>
          cases hr
          obtain ⟨vs, hvs, -⟩ := trimValues_eq { a.schema y with pointer := s.pointer, anyOf := bs }
          refine .branch (c := m) ?_ hadmits
          rw [hschema, hvs]
          exact hm

/-- Of the two alternatives of a schema that demands nothing else null is one that stays. -/
theorem admitsNull_of_split (ha : a.Lawful (retaining P)) {inner null : SchemaId} {p q : Pointer}
    (hj : FormJoined (retaining P) a { Schema.blank p with anyOf := [inner, null] } (some n))
    (hnull : a.schema null = Session.nullAt q) : a.AdmitsNull n := by
  generalize hr : some n = r at hj
  cases hj with
  | bottom _ => cases hr
  | narrowed hc _ => cases hc
  | noBase _ _ => cases hr
  | allClash _ _ _ => cases hr
  | @alternatives base _ _ _ hbase hall halt =>
      -- there are no members to conjoin with, so what demands nothing is left as it is
      cases hall
      have hown := hbase.isForm
      have hfree : (a.schema base).isUnconstrained = true := by
        cases hbase with
        | stored _ _ hschema =>
            rw [hschema]
            rfl
      cases halt with
      | neither hany _ => cases hany
      | anyClash _ _ => cases hr
      | oneClash _ _ => cases hr
      | any _ _ hbs hgathered =>
          exact (hr ▸ hgathered).admitsNull (exists_admitsNull_of_crossed ha hbs hown hfree
            (List.mem_cons_of_mem _ (List.mem_singleton_self _)) hnull)
      | one hany _ _ _ => cases hany
      | both _ hone _ _ _ _ => exact absurd rfl hone

/-- Null stays in the normal form of a schema that allows it. -/
theorem admitsNull_of_formJoined (ha : a.Lawful (retaining P))
    (hj : FormJoined (retaining P) a (a.schema x) (some n)) (h : a.AllowsNull x) :
    a.AdmitsNull n := by
  cases h with
  | own hmembers hkinds hown =>
      have hschema := hj.plain hmembers
      refine .own ?_ ?_
      · obtain ⟨vs, hvs, -⟩ := trimValues_eq (baseOf (a.schema x))
        rw [hschema, hvs]
        rfl
      · rw [hschema]
        exact admitsNull_of_baseOf hkinds hown
  | split hsplit hnull => exact admitsNull_of_split ha (hsplit ▸ hj) hnull

theorem ne_none_of_formJoined {L : Law P} {q : Pointer}
    (hj : FormJoined L a (Session.nullAt q) r) : r ≠ none := by
  rintro rfl
  rcases hj.stored rfl with ⟨hbottom, -⟩ | hstored
  · cases hbottom
  · cases hstored with
    | bottom hbottom => cases hbottom

theorem upheld_retaining : Upheld (retaining P) where
  form ha _ hj :=
    ⟨fun _ hn hallows => admitsNull_of_formJoined ha (hn ▸ hj) hallows,
      fun _ hq => ne_none_of_formJoined (hq ▸ hj)⟩
  both _ _ _ _ hj := eq_left_of_bothJoined hj

end Arena

/-! ## Types -/

/-- All kinds are left, and a keyword speaks for some of them. -/
structure Schema.SpeaksForKinds (m : Schema) : Prop where
  kinds : m.kinds.getD .full = .full
  implied : m.effectiveKinds ≠ .full

/-- With null among its kinds a schema admits it, unless keywords speak for other kinds. -/
theorem Schema.admitsNull_or_speaksForKinds {m : Schema}
    (hkinds : (m.kinds.getD .full).null = true) : m.admitsNull = true ∨ m.SpeaksForKinds := by
  rcases m.effectiveKinds_cases with ⟨heq, -⟩ | ⟨hfull, -, hnone⟩
  · rw [admitsNull, heq, hkinds]
    exact .inl (by simp)
  · refine .inr ⟨hfull, fun himplied => ?_⟩
    rw [himplied] at hnone
    cases hnone

namespace Session

open Document Work

variable {document : Json} {naming : Naming} {calls : Nat} {s t : Session} {p target : Pointer}
  {id : SchemaId} {fields : List (String × Json)} {u : TypeExpr} {m : Schema}

/-- Where no combinator lists anything, the schema that is read combines nothing. -/
theorem Copies.members_eq_nil (h : Copies s target fields m)
    (hvalues : ∀ combinator : Combinator, combinator.values (.obj fields) = []) :
    m.members = [] := by
  refine List.eq_nil_iff_forall_not_mem.2 fun c hc => ?_
  obtain ⟨combinator, i, hchild⟩ := exists_slot_of_mem_members hc
  have hleads := h.children (.member combinator i)
  rw [hchild, value?_member, hvalues] at hleads
  cases hleads

/-- A schema that is read of an object that allows null besides allows null, or keywords speak for
    other kinds, unless it both names kinds and combines others. -/
theorem Renders.allowsNull (h : Renders s target (.obj fields) (s.arena.schema id))
    (hnull : flag fields "nullable" = true) (hplain : fields.lookup "type" = none ∨
      ∀ combinator : Combinator, combinator.values (.obj fields) = []) :
    s.arena.AllowsNull id ∨ (s.arena.schema id).SpeaksForKinds := by
  have hown : (s.arena.schema id).members = [] → ((s.arena.schema id).kinds.getD .full).null = true →
      s.arena.AllowsNull id ∨ (s.arena.schema id).SpeaksForKinds := fun hmembers hkinds =>
    (Schema.admitsNull_or_speaksForKinds hkinds).imp_left (.own hmembers hkinds)
  generalize hm : s.arena.schema id = m at h hown
  cases h with
  | plain _ hnone => cases hnull.symm.trans hnone
  | @nullable _ k ks hk _ hks =>
      rcases hplain with htype | hvalues
      · obtain ⟨k', hread, heq⟩ := hk.keywords
        have hnone := (kinds_eq_none_iff hread).2 htype
        rw [heq] at hks
        cases hnone.symm.trans hks
      · refine hown (hk.members_eq_nil hvalues) ?_
        simp [KindSet.insert, KindSet.ofPred]
  | idle _ _ hks hcombines =>
      refine hown ?_ (by rw [hks]; rfl)
      simpa [Schema.hasCombinators, Schema.members, and_assoc] using hcombines
  | split _ _ _ _ hnullAt _ _ => exact .inl (.split hm hnullAt)

/-- Null that is allowed besides. The type of a schema that allows null besides, and does not both
    name kinds and combine others, admits null, unless all kinds are left and a keyword speaks for
    some of them. -/
theorem isOptional_or_speaksForKinds (hs : Reachable document naming s)
    (hp : s.loaded.get? p = some id) (hres : resolve document p = .ok (target, .obj fields))
    (hnull : flag fields "nullable" = true) (hplain : fields.lookup "type" = none ∨
      ∀ combinator : Combinator, combinator.values (.obj fields) = [])
    (hrun : (positionType calls naming id true).run s = (.ok (some u), t)) :
    u.isOptional = true ∨ (s.arena.schema id).SpeaksForKinds := by
  have htyped := hs.typed (L := Arena.retaining _) Arena.upheld_retaining hereditary_true trivial
  obtain ⟨hlt, target', v, hres', hschema⟩ := hs.faithful p id hp
  cases hres.symm.trans hres'
  have hallows : s.arena.AllowsNull id ∨ (s.arena.schema id).SpeaksForKinds := by
    rcases hschema with hblank | hrenders
    · refine .inl (.own ?_ ?_ ?_) <;> rw [hblank] <;> rfl
    · exact hrenders.allowsNull hnull hplain
  refine hallows.imp_left fun hallows => ?_
  obtain ⟨⟨ht, hst⟩, hpost⟩ := (types_positionType Arena.upheld_retaining htyped hlt true).of_ok hrun
  obtain ⟨form, hform, hsuits⟩ := hpost u rfl
  refine (hsuits rfl).null.2 ((ht.arena.forms id _ hform).1 form rfl ?_)
  exact (Arena.allowsNull_of_grows htyped.arena.toWellFormed hst.arena hlt).2 hallows

/-- A schema that only its properties make one of objects. -/
def named : Json :=
  .obj [("nullable", .bool true), ("properties", .obj [("name", .obj [("type", .str "string")])])]

/-- Its type does not admit null, though it allows null besides. -/
example : ((positionType 6 .marked 0 true).run ((load named .root).run .empty).2).1.toOption.join.map
    TypeExpr.isOptional = some false := by
  decide +kernel

end Session

end ApiModel
