/-
  ApiModel.Proofs.Schema.Nullable

  Null that is asked for. A schema asks for null when it names the null kind or lists null, and what
  combines others does when one of these does. A normal form and a conjunction ask for null only where
  the schemas that they are made of do, and what is loaded only where the document does; so a type
  that admits null though nothing asks for it comes of an alternative that leaves the kinds open.
-/
import ApiModel.Proofs.Schema.Faithful
import ApiModel.Proofs.Schema.Optional
import ApiModel.Proofs.Schema.Trait

namespace ApiModel

/-- The schema names the null kind, not with all others, or lists null. -/
def Schema.AsksNull (s : Schema) : Prop :=
  (∃ ks, s.kinds = some ks ∧ ks ≠ .full ∧ ks.null = true) ∨ ∃ vs, s.values = some vs ∧ .null ∈ vs

namespace Arena

variable {P : Json → Prop} {a b : Arena} {x y n : SchemaId} {s s₁ s₂ own : Schema}

/-! ## What a schema demands itself -/

/-- Kinds that null is one of, but not one of all. -/
theorem asksNull_of_getD (h : s.kinds.getD .full ≠ .full)
    (hnull : (s.kinds.getD .full).null = true) : s.AsksNull := by
  cases hks : s.kinds with
  | none => exact absurd (by rw [hks]; rfl) h
  | some ks =>
      rw [hks] at h hnull
      exact .inl ⟨ks, hks, h, hnull⟩

theorem asksNull_of_trimValues (h : (trimValues s).AsksNull) : s.AsksNull := by
  obtain ⟨ws, hws, hsub⟩ := trimValues_eq s
  rw [hws] at h
  refine h.imp_right ?_
  rintro ⟨vs, hvs, hnull⟩
  obtain ⟨us, hus, hmem⟩ := hsub vs hvs
  exact ⟨us, hus, hmem _ hnull⟩

/-- A conjunction asks for null only where one side does. -/
theorem asksNull_of_ownJoined {L : Law P} (h : OwnJoined L a s₁ s₂ own) (hasks : own.AsksNull) :
    s₁.AsksNull ∨ s₂.AsksNull := by
  rcases hasks with ⟨ks, hks, hne, hnull⟩ | ⟨vs, hvs, hnull⟩
  · rw [kinds_of_ownJoined h, Option.some.injEq] at hks
    subst hks
    have hboth : (s₁.kinds.getD .full).null = true ∧ (s₂.kinds.getD .full).null = true := by
      have hcontains := KindSet.contains_inter (s₁.kinds.getD .full) (s₂.kinds.getD .full) .null
      simpa [KindSet.contains, hnull] using hcontains
    -- if the one side has all kinds, the other one names null among fewer
    by_cases hfull : s₁.kinds.getD .full = .full
    · refine .inr (asksNull_of_getD (fun heq => hne ?_) hboth.2)
      rw [hfull, heq]
      rfl
    · exact .inl (asksNull_of_getD hfull hboth.1)
  · cases h with
    | mk hkeywords _ _ _ =>
        obtain ⟨place, m, p, f, rfl, -⟩ := hkeywords
        exact (commonValues_sub hvs hnull).imp .inr .inr

/-- Asking for null, as what a schema demands itself. -/
def Demand.null : Demand where
  Holds := Schema.AsksNull
  joined := asksNull_of_ownJoined
  trimmed := asksNull_of_trimValues
  base := by
    rintro s (⟨ks, hks, hne, hnull⟩ | hvalues)
    · cases hks
      exact asksNull_of_getD hne hnull
    · exact .inr hvalues
  branches _ h := .inl h
  kinds := by
    rintro s p ks hks (⟨_, hks', h⟩ | ⟨vs, hvs, -⟩)
    · cases hks'
      exact .inl ⟨ks, hks, h⟩
    · cases hvs
  conjunction := by
    rintro p ids (⟨ks, hks, -⟩ | ⟨vs, hvs, -⟩)
    · cases hks
    · cases hvs

/-! ## What a schema combines -/

/-- The schema `x`, or one that it combines, asks for null. -/
inductive AsksNull (a : Arena) : SchemaId → Prop
  | own {x : SchemaId} (h : (a.schema x).AsksNull) : AsksNull a x
  | member {x m : SchemaId} (hm : a.Member x m) (h : AsksNull a m) : AsksNull a x

theorem asksNull_of_grows (ha : a.WellFormed P) (h : Grows a b) (hx : x < a.next) :
    b.AsksNull x ↔ a.AsksNull x := by
  constructor
  · intro hb
    induction hb with
    | own hasks =>
        rw [h.schema _ hx] at hasks
        exact .own hasks
    | member hm _ ih =>
        rw [Member, h.schema _ hx] at hm
        exact .member hm (ih (ha.link_lt (Member.link hm)))
  · intro hasks
    induction hasks with
    | own hasks =>
        rw [← h.schema _ hx] at hasks
        exact .own hasks
    | member hm _ ih =>
        have hb := ih (ha.link_lt (Member.link hm))
        rw [Member, ← h.schema _ hx] at hm
        exact .member hm hb

/-- To ask for null. Parts do not count: what they ask for is asked below the value. -/
def nullness : Trait P where
  Index := Bool
  below _ := false
  own k := if k then .null else .none
  Has k a x := k = true ∧ a.AsksNull x
  has_iff ha h hx := and_congr_right fun _ => asksNull_of_grows ha h hx
  of_own := by
    rintro (_ | _) a x h
    · exact False.elim h
    · exact ⟨rfl, .own h⟩
  of_part _ h := nomatch h.1
  of_member hm h := ⟨h.1, .member hm h.2⟩
  source k := by
    right
    rintro a n - - ⟨rfl, hasks⟩
    cases hasks with
    | own h => exact .inl h
    | member hm h => exact .inr (.inr ⟨_, hm, rfl, h⟩)

/-- An answer asks for null only if the question does. -/
abbrev asking : Law P := nullness.law

theorem upheld_asking : Upheld (asking (P := P)) := nullness.upheld

theorem asksNull_of_done (ha : a.Lawful (asking (P := P)))
    (hn : a.progress.get? x = some (.done (some n))) (h : a.AsksNull n) : a.AsksNull x :=
  (Trait.has_of_done (T := nullness) (k := true) ha hn ⟨rfl, h⟩).2

end Arena

/-! ## What a document asks for -/

/-- Whether the value names null where a schema states which values it matches. -/
def Json.namesNull (v : Json) : Bool :=
  ((v.get? "nullable").bind Json.truth?).getD false ||
  (match v.get? "type" with
    | some (.str name) => name == "null"
    | some (.arr names) => (names.filterMap Json.text?).contains "null"
    | _ => false) ||
  (v.get? "const").any Json.isNull ||
  ((v.get? "enum").bind Json.items?).any (·.any Json.isNull)

namespace Session

open Document Work

variable {document v : Json} {naming : Naming} {calls : Nat} {s t : Session} {p q target : Pointer}
  {id x : SchemaId} {fields : List (String × Json)} {k m : Schema}

/-- Null is among the kinds of a list of words only if its name is among the words. -/
theorem null_mem_of_kindsOf {names : List String} {ks : KindSet}
    (h : kindsOf target names = .ok ks) (hnull : ks.null = true) : "null" ∈ names := by
  by_contra hnot
  unfold kindsOf at h
  have hinsert : ∀ {set : KindSet} {k : Kind}, set.null = false → k ≠ .null →
      (set.insert k).null = false := by
    intro set k hset hk
    show (set.null || Kind.null == k) = false
    simp [hset, hk.symm]
  have hkept : ks.null = false := by
    refine foldlM_keeps (I := fun set : KindSet => set.null = false) ?_ rfl h
    intro name hname set set' hset hstep
    split at hstep
    · cases hstep
      exact hinsert (hinsert hset nofun) nofun
    · next k _ hk =>
        cases hstep
        refine hinsert hset ?_
        rintro rfl
        have hname' := List.find?_some hk
        rw [beq_iff_eq] at hname'
        exact hnot (show Kind.null.name ∈ names from hname' ▸ hname)
    · cases hstep
  rw [hkept] at hnull
  cases hnull

/-- A schema asks for null itself only if the object that it has been read of names null. -/
theorem namesNull_of_readKeywords (hk : readKeywords target fields = .ok k) (h : k.AsksNull) :
    (Json.obj fields).namesNull = true := by
  obtain ⟨hkinds, hvalues, -, -⟩ := readKeywords_eq_ok hk
  have hget : ∀ key, (Json.obj fields).get? key = fields.lookup key := fun _ => rfl
  simp only [Json.namesNull, hget, Bool.or_eq_true]
  rcases h with ⟨ks, hks, -, hnull⟩ | ⟨vs, hvs, hnull⟩
  · rw [hks] at hkinds
    refine .inl (.inl (.inr ?_))
    obtain ⟨name, htype, hnames⟩ | ⟨names, htype, hnames⟩ := readKinds_eq_some hkinds
    · rw [htype]
      exact beq_iff_eq.2 (List.mem_singleton.1 (null_mem_of_kindsOf hnames hnull)).symm
    · rw [htype]
      exact List.contains_iff_mem.2 (null_mem_of_kindsOf hnames hnull)
  · rw [hvs, readValues] at hvalues
    split at hvalues
    · next c hconst =>
        rw [Option.some.inj hvalues, List.mem_singleton] at hnull
        rw [hconst, ← hnull]
        exact .inl (.inr rfl)
    · rw [← hvalues]
      exact .inr (List.any_eq_true.2 ⟨_, hnull, rfl⟩)

/-- The members that a value lists under a combinator. -/
def Combinator.values (v : Json) (combinator : Combinator) : List Json :=
  ((v.get? combinator.keyword).bind Json.items?).getD []

theorem value?_member (combinator : Combinator) (i : Nat) :
    (Slot.member combinator i).value? v = (combinator.values v)[i]? := by
  show ((v.get? combinator.keyword).bind fun w => w.items?.bind (·[i]?)) = _
  rw [← Option.bind_assoc, Combinator.values]
  cases (v.get? combinator.keyword).bind Json.items? <;> rfl

/-- The places of the members of what `p` leads to. -/
def combined (document : Json) (p : Pointer) : List Pointer :=
  match resolve document p with
  | .error _ => []
  | .ok (target, v) =>
      [.allOf, .anyOf, .oneOf].flatMap fun combinator : Combinator =>
        (List.range (combinator.values v).length).map fun i =>
          (Slot.member combinator i).place target

theorem mem_combined (hres : resolve document p = .ok (target, v)) {combinator : Combinator}
    {i : Nat} (hvalue : (Slot.member combinator i).value? v ≠ none) :
    (Slot.member combinator i).place target ∈ combined document p := by
  rw [value?_member, ne_eq, List.getElem?_eq_none_iff, Nat.not_le] at hvalue
  rw [combined, hres]
  refine List.mem_flatMap.2 ⟨combinator, by cases combinator <;> simp, ?_⟩
  exact List.mem_map.2 ⟨i, List.mem_range.2 hvalue, rfl⟩

/-- Whether what `p` leads to names null. -/
def namesNullAt (document : Json) (p : Pointer) : Bool :=
  (resolve document p).toOption.any fun found => found.2.namesNull

/-- What `p` leads to names null, or does something that it combines, however far down. -/
def ReachesNull (document : Json) (p : Pointer) : Prop :=
  ∃ q, Relation.ReflTransGen (fun p q => q ∈ combined document p) p q ∧
    namesNullAt document q = true

/-- Null is not reached from places that combine only each other and do not name it. -/
theorem not_reachesNull_of_closed (places : List Pointer)
    (hclosed : ∀ p ∈ places, ∀ q ∈ combined document p, q ∈ places)
    (hnames : ∀ p ∈ places, namesNullAt document p = false) (hp : p ∈ places) :
    ¬ReachesNull document p := by
  rintro ⟨q, hreach, hnull⟩
  refine Bool.false_ne_true ((hnames q ?_).symm.trans hnull)
  clear hnull
  induction hreach with
  | refl => exact hp
  | tail _ hstep ih => exact hclosed _ ih _ hstep

/-- What a schema combines fills a slot of a combinator. -/
theorem exists_slot_of_mem_members {c : SchemaId} (hc : c ∈ m.members) :
    ∃ combinator i, (Slot.member combinator i).child? m = some c := by
  rw [Schema.members, List.mem_append, List.mem_append] at hc
  rcases hc with (hc | hc) | hc <;> obtain ⟨i, hi⟩ := List.mem_iff_getElem?.1 hc
  · exact ⟨.allOf, i, hi⟩
  · exact ⟨.anyOf, i, hi⟩
  · exact ⟨.oneOf, i, hi⟩

theorem namesNull_of_flag (h : flag fields "nullable" = true) :
    (Json.obj fields).namesNull = true := by
  have hflag : (((Json.obj fields).get? "nullable").bind Json.truth?).getD false = true := h
  rw [Json.namesNull, hflag]
  rfl

/-- The schema of a value asks for null itself only if the value names null. -/
theorem Renders.namesNull (h : Renders s target v m) (hasks : m.AsksNull) : v.namesNull = true := by
  cases h with
  | anything => obtain ⟨_, ⟨⟩, -⟩ | ⟨_, ⟨⟩, -⟩ := hasks
  | nothing =>
      obtain ⟨_, ⟨⟩, -, hnull⟩ | ⟨_, ⟨⟩, -⟩ := hasks
      cases hnull
  | plain hm _ =>
      obtain ⟨k, hk, heq⟩ := hm.keywords
      refine namesNull_of_readKeywords hk ?_
      rw [heq] at hasks
      exact hasks
  | nullable _ hnull _ => exact namesNull_of_flag hnull
  | idle _ hnull _ _ => exact namesNull_of_flag hnull
  | split _ hnull _ _ _ _ _ => exact namesNull_of_flag hnull

/-- The schema of a value that does not name null combines those of places that the value
    combines. -/
theorem Renders.member (h : Renders s target v m) {c : SchemaId} (hc : c ∈ m.members) :
    v.namesNull = true ∨ ∃ combinator i, (Slot.member combinator i).value? v ≠ none ∧
      s.loaded.get? ((Slot.member combinator i).place target) = some c := by
  cases h with
  | anything => cases hc
  | nothing => cases hc
  | plain hm _ =>
      obtain ⟨combinator, i, hchild⟩ := exists_slot_of_mem_members hc
      have hleads := hm.children (.member combinator i)
      rw [hchild] at hleads
      generalize hvalue : (Slot.member combinator i).value? _ = o at hleads
      cases hleads with
      | some hloaded => exact .inr ⟨combinator, i, by rw [hvalue]; exact nofun, hloaded⟩
  | nullable _ hnull _ => exact .inl (namesNull_of_flag hnull)
  | idle _ hnull _ _ => exact .inl (namesNull_of_flag hnull)
  | split _ hnull _ _ _ _ _ => exact .inl (namesNull_of_flag hnull)

/-- Where a schema that has been loaded asks for null, null is reached from its pointers. -/
theorem reachesNull_of_asksNull (hs : Faithful document s) (h : s.arena.AsksNull x)
    (hp : s.loaded.get? p = some x) : ReachesNull document p := by
  -- by induction on how the schema comes to ask; the pointer that it was loaded for varies
  induction h generalizing p with
  | own hasks =>
      obtain ⟨-, target, v, hres, hblank | hrenders⟩ := hs p _ hp
      · rw [hblank] at hasks
        obtain ⟨_, ⟨⟩, -⟩ | ⟨_, ⟨⟩, -⟩ := hasks
      · exact ⟨p, .refl, by rw [namesNullAt, hres]; exact hrenders.namesNull hasks⟩
  | member hm _ ih =>
      obtain ⟨-, target, v, hres, hblank | hrenders⟩ := hs p _ hp
      · rw [Arena.Member, hblank] at hm
        cases hm
      rcases hrenders.member hm with hnull | ⟨combinator, i, hvalue, hc⟩
      · exact ⟨p, .refl, by rw [namesNullAt, hres]; exact hnull⟩
      obtain ⟨q, hreach, hq⟩ := ih hc
      exact ⟨q, .head (mem_combined hres hvalue) hreach, hq⟩

end Session

/-! ## Types -/

/-- The schema lists values, or says that elements are different, and leaves it open which kinds the
    values have. -/
structure Schema.LeavesOpen (m : Schema) : Prop where
  kinds : m.effectiveKinds = .full
  demands : m.values ≠ none ∨ m.uniqueItems = true

/-- A schema with all kinds that no keyword speaks for, and that neither lists values nor says that
    they are different, demands nothing. -/
theorem Schema.isUnconstrained_of_full {s : Schema} (h : s.effectiveKinds = .full)
    (hmembers : s.members = []) (hvalues : s.values = none) (hunique : s.uniqueItems = false) :
    s.isUnconstrained = true := by
  unfold effectiveKinds at h
  dsimp only at h
  split at h
  · next hdeclared => simp [h] at hdeclared
  next hdeclared =>
  have hfull : s.kinds.getD .full = .full := by simpa using hdeclared
  split at h
  · next himplied =>
      have hnone := eq_of_beq himplied
      simp only [KindSet.empty, KindSet.ofPred, KindSet.mk.injEq, Bool.or_eq_false_iff,
        Option.isSome_eq_false_iff, Option.isNone_iff_eq_none, Bool.not_eq_false', and_assoc,
        Dict.isEmpty, SortedSet.isEmpty, List.isEmpty_iff, and_true] at hnone
      simp only [Schema.members, List.append_eq_nil_iff, and_assoc] at hmembers
      obtain ⟨hproperties, hrequired, extras, minProperties, maxProperties, items, minItems,
        maxItems, minLength, maxLength, pattern, format, gt, ge, lt, le, multipleOf⟩ := hnone
      obtain ⟨allOf, anyOf, oneOf⟩ := hmembers
      rw [isUnconstrained_iff]
      constructor <;> try assumption
      · intro ks hks
        rw [hks] at hfull
        exact hfull
      · exact congrArg SortedSet.mk hrequired
  · cases congrArg KindSet.null h

/-- Without alternatives a schema that demands something admits null only if it asks for null, or
    leaves open which kinds there are. -/
theorem Schema.asksNull_or_leavesOpen {m : Schema} (h : m.admitsNull = true)
    (hmembers : m.members = []) :
    m.isUnconstrained = true ∨ m.AsksNull ∨ m.LeavesOpen := by
  rw [admitsNull, Bool.or_eq_true, Bool.or_eq_true] at h
  rcases h with (hfree | hkinds) | hvalues
  · exact .inl hfree
  · rcases m.effectiveKinds_cases with ⟨heq, hne | hfull⟩ | ⟨-, -, hnone⟩
    · exact .inr (.inl (Arena.asksNull_of_getD hne (heq ▸ hkinds)))
    · by_cases hdemands : m.values ≠ none ∨ m.uniqueItems = true
      · exact .inr (.inr ⟨hfull, hdemands⟩)
      · rw [not_or, not_not, Bool.not_eq_true] at hdemands
        exact .inl (isUnconstrained_of_full hfull hmembers hdemands.1 hdemands.2)
    · rw [hnone] at hkinds
      cases hkinds
  · rw [Option.any_eq_true] at hvalues
    obtain ⟨vs, hvs, hnull⟩ := hvalues
    obtain ⟨v, hv, hnull⟩ := List.any_eq_true.1 hnull
    refine .inr (.inl (.inr ⟨vs, hvs, ?_⟩))
    cases v with
    | null => exact hv
    | _ => cases hnull

namespace Arena

theorem asksNull_or_leavesOpen {L : Law P} (ha : a.Lawful L) (hx : a.IsForm x)
    (h : SomeEnd (fun s => s.admitsNull = true) a x) :
    SomeEnd (fun s => s.isUnconstrained = true) a x ∨ a.AsksNull x ∨
      SomeEnd Schema.LeavesOpen a x := by
  induction h with
  | own hany h =>
      have hmembers := (ha.normal _ hx).1.members_eq_nil hany
      rcases Schema.asksNull_or_leavesOpen h hmembers with hfree | hasks | hopen
      · exact .inl (.own hany hfree)
      · exact .inr (.inl (.own hasks))
      · exact .inr (.inr (.own hany hopen))
  | branch hc _ ih =>
      rcases ih ((ha.normal _ hx).2 _ hc) with hfree | hasks | hopen
      · exact .inl (.branch hc hfree)
      · exact .inr (.inl (.member (by simp [Member, Schema.members, hc]) hasks))
      · exact .inr (.inr (.branch hc hopen))

end Arena

namespace Session

open Document Work

variable {document v : Json} {naming : Naming} {calls : Nat} {s t : Session} {p target : Pointer}
  {id : SchemaId} {u : TypeExpr}

/-- Null that nothing asks for. Where a place does not reach null, the type of its schema is that of
    any value, or does not admit null, or an alternative of the normal form lists values or the like
    and leaves it open which kinds these have. -/
theorem not_optional_of_not_reachesNull (hs : Reachable document naming s)
    (hp : s.loaded.get? p = some id) (hnull : ¬ReachesNull document p)
    (hrun : (positionType calls naming id true).run s = (.ok (some u), t)) :
    ∃ form, t.arena.progress.get? id = some (.done (some form)) ∧
      (t.arena.SomeEnd Schema.LeavesOpen form ∨ u = .any ∨ u.isOptional = false) := by
  have htyped := hs.typed (L := Arena.asking) Arena.upheld_asking hereditary_true trivial
  have hlt : id < s.arena.next := (hs.faithful p id hp).1
  obtain ⟨⟨ht, hst⟩, hpost⟩ := (types_positionType Arena.upheld_asking htyped hlt true).of_ok hrun
  obtain ⟨form, hform, hsuits⟩ := hpost u rfl
  refine ⟨form, hform, ?_⟩
  have hsuits := hsuits rfl
  by_cases hoptional : u.isOptional = true
  · rcases Arena.asksNull_or_leavesOpen ht.arena (ht.arena.form id form hform)
      (hsuits.null.1 hoptional) with hfree | hasks | hopen
    · exact .inr (.inl (hsuits.any.2 hfree))
    · have hasks' := (Arena.asksNull_of_grows htyped.arena.toWellFormed hst.arena hlt).1
        (Arena.asksNull_of_done ht.arena hform hasks)
      exact absurd (reachesNull_of_asksNull hs.faithful hasks' hp) hnull
    · exact .inl hopen
  · exact .inr (.inr (Bool.eq_false_of_not_eq_true hoptional))

/-- A size is a name or a number, and units are listed without a kind. -/
def sizes : Json :=
  .obj [("Size", .obj [("anyOf", .arr [.obj [("$ref", .str "#/Name")],
      .obj [("type", .str "number")]])]),
    ("Name", .obj [("type", .str "string"), ("minLength", .num (.int 1))]),
    ("Unit", .obj [("enum", .arr [.str "cm"])])]

/-- The session that has loaded the schema of this name. -/
def sizesLoaded (name : String) : Session := ((load sizes (Pointer.root.push name)).run .empty).2

/-- Nothing there names null. -/
theorem not_reachesNull_sizes {p : Pointer}
    (h : p ∈ [Pointer.root.push "Size", Pointer.root.push "Unit"]) : ¬ReachesNull sizes p := by
  -- with the places of the two members of a size the places are closed
  refine not_reachesNull_of_closed [Pointer.root.push "Size", Pointer.root.push "Unit",
    ((Pointer.root.push "Size").push "anyOf").index 0,
    ((Pointer.root.push "Size").push "anyOf").index 1] ?_ ?_ ?_
  · decide +kernel
  · decide +kernel
  · simp only [List.mem_cons, List.not_mem_nil, or_false] at h ⊢
    exact h.elim .inl fun h => .inr (.inl h)

/-- A size is not null. -/
theorem type_of_size : ∃ u t, (positionType 6 .marked 0 true).run (sizesLoaded "Size") =
    (.ok (some u), t) ∧ ∃ form, t.arena.progress.get? 0 = some (.done (some form)) ∧
      (t.arena.SomeEnd Schema.LeavesOpen form ∨ u = .any ∨ u.isOptional = false) := by
  have hsome : ((positionType 6 .marked 0 true).run (sizesLoaded "Size")).1.toOption.join.isSome := by
    decide +kernel
  obtain ⟨u, hu⟩ := Option.isSome_iff_exists.1 hsome
  have hrun := run_eq_of_toOption (Option.join_eq_some_iff.1 hu)
  have hloaded : (sizesLoaded "Size").loaded.get? (Pointer.root.push "Size") = some 0 := by
    decide +kernel
  exact ⟨u, _, hrun, not_optional_of_not_reachesNull (.single (step_load _ _)) hloaded
    (not_reachesNull_sizes (by decide)) hrun⟩

/-- A unit may be null though nothing asks for it. -/
theorem optional_unit : ¬∀ (document : Json) (naming : Naming) (s t : Session) (calls : Nat)
    (p : Pointer) (id : SchemaId) (u : TypeExpr),
    Reachable document naming s → s.loaded.get? p = some id → ¬ReachesNull document p →
    (positionType calls naming id true).run s = (.ok (some u), t) →
    u = .any ∨ u.isOptional = false := by
  intro hclaim
  have hunit : ((positionType 6 .marked 0 true).run (sizesLoaded "Unit")).1.toOption.join.map
      (fun u => (u.isAny, u.isOptional)) = some (false, true) := by
    decide +kernel
  obtain ⟨u, hu, heq⟩ := Option.map_eq_some_iff.1 hunit
  have hrun := run_eq_of_toOption (Option.join_eq_some_iff.1 hu)
  obtain ⟨hany, hoptional⟩ := Prod.mk.inj heq
  have hloaded : (sizesLoaded "Unit").loaded.get? (Pointer.root.push "Unit") = some 0 := by
    decide +kernel
  rcases hclaim sizes .marked _ _ 6 _ 0 u (.single (step_load _ _)) hloaded
    (not_reachesNull_sizes (by decide)) hrun with rfl | hrequired
  · cases hany
  · cases hrequired.symm.trans hoptional

end Session

end ApiModel
