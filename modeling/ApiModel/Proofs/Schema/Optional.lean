/-
  ApiModel.Proofs.Schema.Optional

  Null in types. The type of a normal form admits null just where the schema of one of its
  alternatives does, and it is the type of any value just where one of these demands nothing. A type
  that has been worked out is remembered, and the memo keeps this of all its entries, whatever a
  session is asked.
-/
import ApiModel.Proofs.Schema.Offer
import ApiModel.Proofs.Schema.Unconstrained
import ApiModel.Proofs.Schema.Upkeep

namespace ApiModel

/-! ## Types with one way of being null -/

namespace TypeExpr

variable {t : TypeExpr} {ts : List TypeExpr}

/-- A type that cannot be opened and is not that of any value. -/
def Plain (t : TypeExpr) : Prop := t.IsLeaf ∧ t ≠ .any

theorem Plain.isOptional_iff (h : t.Plain) : t.isOptional = true ↔ t = .null := by
  refine ⟨fun hoptional => ?_, fun heq => heq ▸ rfl⟩
  cases t with
  | any => exact absurd rfl h.2
  | null => rfl
  | optional t => exact h.1.2 rfl
  | _ => cases hoptional

theorem plain_null : Plain .null := ⟨⟨rfl, fun _ => rfl⟩, by simp⟩

/-- A type that cannot be opened and that does not admit null. -/
theorem plain_of_required (hleaves : t.leaves = [t]) (hadmits : t.admitsNull = false)
    (hrequired : t.isOptional = false) : t.Plain ∧ t ≠ .null := by
  refine ⟨⟨⟨hleaves, fun h => absurd (h.symm.trans hadmits) (by simp)⟩, ?_⟩, ?_⟩ <;>
    · rintro rfl
      cases hrequired

/-- A union of some plain types is not that of any value, and it admits null where null is one of
    them. -/
theorem unionOf_of_plain (h : ∀ t ∈ ts, t.Plain) (hne : ts ≠ []) :
    unionOf ts ≠ .any ∧ ((unionOf ts).isOptional = true ↔ .null ∈ ts) := by
  have hflat : ∀ t ∈ ts, t.Flat := fun t ht => (h t ht).1.flat
  refine ⟨fun hany => (h _ ((unionOf_eq_any hflat).1 hany)).2 rfl, ?_⟩
  rw [isOptional_unionOf hflat hne]
  constructor
  · rintro ⟨t, ht, hoptional⟩
    exact (h t ht).isOptional_iff.1 hoptional ▸ ht
  · exact fun hnull => ⟨.null, hnull, rfl⟩

end TypeExpr

/-! ## Schemas that admit null -/

namespace KindSet

theorem mem_toList {ks : KindSet} {k : Kind} : k ∈ ks.toList ↔ ks.contains k = true := by
  unfold toList
  rw [List.mem_filter]
  exact and_iff_right (by cases k <;> decide)

end KindSet

namespace Schema

variable {s : Schema}

/-- Whether the type of a schema without alternatives admits null. -/
def admitsNull (s : Schema) : Bool :=
  s.isUnconstrained || s.effectiveKinds.null || s.values.any fun vs => vs.any Json.isNull

/-- The kinds that a type is derived from are those declared, or, where all are allowed, those that
    keywords speak for; null is never one that they speak for. -/
theorem effectiveKinds_cases (s : Schema) :
    (s.effectiveKinds = s.kinds.getD .full ∧
      (s.kinds.getD .full ≠ .full ∨ s.effectiveKinds = .full)) ∨
    (s.kinds.getD .full = .full ∧ s.effectiveKinds.isEmpty = false ∧
      s.effectiveKinds.null = false) := by
  unfold effectiveKinds
  dsimp only
  split
  · next hdeclared => exact .inl ⟨rfl, .inl (by simpa using hdeclared)⟩
  next hdeclared =>
  have hfull : s.kinds.getD .full = .full := by simpa using hdeclared
  split
  · exact .inl ⟨rfl, .inr hfull⟩
  · next himplied => exact .inr ⟨hfull, by simpa using himplied, rfl⟩

/-- A type is derived from some kinds. -/
theorem exists_effectiveKinds (h : s.kinds.any KindSet.isEmpty = false) :
    ∃ k, s.effectiveKinds.contains k = true := by
  refine KindSet.exists_contains ?_
  rcases s.effectiveKinds_cases with ⟨heq, -⟩ | ⟨-, hsome, -⟩
  · rw [heq]
    cases hks : s.kinds with
    | none => rfl
    | some ks =>
        rw [hks] at h
        exact h
  · exact hsome

end Schema

namespace Arena

variable {P : Json → Prop} {a b : Arena} {n : SchemaId} {u : TypeExpr} {us : List TypeExpr}

/-- The type `u` says of any value and of null what the alternatives of the normal form `n` do. -/
structure Suits (a : Arena) (n : SchemaId) (u : TypeExpr) : Prop where
  flat : u.Flat
  any : u = .any ↔ SomeEnd (fun s => s.isUnconstrained = true) a n
  null : u.isOptional = true ↔ SomeEnd (fun s => s.admitsNull = true) a n

theorem Suits.mono (ha : a.WellFormed P) (h : Grows a b) (hn : n < a.next) (hu : a.Suits n u) :
    b.Suits n u where
  flat := hu.flat
  any := hu.any.trans (someEnd_of_grows ha h hn).symm
  null := hu.null.trans (someEnd_of_grows ha h hn).symm

theorem suits_any (h : (a.schema n).isUnconstrained = true) : a.Suits n .any where
  flat := TypeExpr.flat_any
  any := iff_of_true rfl (.own (Schema.isUnconstrained_iff.1 h).anyOf h)
  null := iff_of_true rfl (.own (Schema.isUnconstrained_iff.1 h).anyOf (by
    rw [Schema.admitsNull, h]
    rfl))

/-- The union of the types of the alternatives. -/
theorem suits_of_branches (hne : (a.schema n).anyOf ≠ [])
    (hus : ∀ u ∈ us, ∃ c ∈ (a.schema n).anyOf, a.Suits c u)
    (hall : ∀ c ∈ (a.schema n).anyOf, ∃ u ∈ us, a.Suits c u) : a.Suits n (.unionOf us) where
  flat := TypeExpr.flat_unionOf us
  any := by
    have hflat : ∀ u ∈ us, u.Flat := fun u hu => (hus u hu).elim fun c h => h.2.flat
    rw [TypeExpr.unionOf_eq_any hflat, someEnd_of_branches hne]
    constructor
    · intro hu
      obtain ⟨c, hc, hsuits⟩ := hus _ hu
      exact ⟨c, hc, hsuits.any.1 rfl⟩
    · rintro ⟨c, hc, hend⟩
      obtain ⟨u, hu, hsuits⟩ := hall c hc
      exact hsuits.any.2 hend ▸ hu
  null := by
    have hflat : ∀ u ∈ us, u.Flat := fun u hu => (hus u hu).elim fun c h => h.2.flat
    obtain ⟨c, hc⟩ := List.exists_mem_of_ne_nil _ hne
    obtain ⟨u, hu, -⟩ := hall c hc
    rw [TypeExpr.isOptional_unionOf hflat (List.ne_nil_of_mem hu), someEnd_of_branches hne]
    constructor
    · rintro ⟨u, hu, hnull⟩
      obtain ⟨c, hc, hsuits⟩ := hus u hu
      exact ⟨c, hc, hsuits.null.1 hnull⟩
    · rintro ⟨c, hc, hend⟩
      obtain ⟨u, hu, hsuits⟩ := hall c hc
      exact ⟨u, hu, hsuits.null.2 hend⟩

/-- The union of the types that a schema without alternatives gives. -/
theorem suits_of_plain (hany : (a.schema n).anyOf = [])
    (hfree : (a.schema n).isUnconstrained = false) (hus : ∀ u ∈ us, u.Plain) (hne : us ≠ [])
    (hnull : .null ∈ us ↔ (a.schema n).admitsNull = true) : a.Suits n (.unionOf us) where
  flat := TypeExpr.flat_unionOf us
  any := by
    rw [someEnd_of_plain hany, hfree]
    exact iff_of_false (TypeExpr.unionOf_of_plain hus hne).1 Bool.false_ne_true
  null := by
    rw [someEnd_of_plain hany, (TypeExpr.unionOf_of_plain hus hne).2, hnull]

end Arena

namespace Session

open Work

variable {P : Json → Prop} {L : Arena.Law P} {R : Session → Session → Prop} {s t : Session}
  {naming : Naming} {typer : Typer} {calls : Nat} {id : SchemaId} {m : Schema}

/-! ## Lists of members -/

/-- Listed values give a literal, null, or both. -/
theorem suits_listedType {n : SchemaId} {vs : List Json} (hn : (s.arena.schema n).IsNormal)
    (hany : (s.arena.schema n).anyOf = []) (hfree : (s.arena.schema n).isUnconstrained = false)
    (hvs : (s.arena.schema n).values = some vs) :
    s.arena.Suits n (listedType (s.arena.schema n).effectiveKinds vs) := by
  have hvalues : vs ≠ [] := by
    rintro rfl
    have hsome := hn.satisfiable
    simp [Schema.isBottom, hvs] at hsome
  unfold listedType
  refine Arena.suits_of_plain hany hfree (fun u hu => ?_) ?_ ?_
  · rcases List.mem_append.1 hu with hu | hu
    · split at hu
      · cases hu
      · rw [List.mem_singleton.1 hu]
        exact (TypeExpr.plain_of_required rfl rfl rfl).1
    · split at hu
      · rw [List.mem_singleton.1 hu]
        exact TypeExpr.plain_null
      · cases hu
  · obtain ⟨v, hv⟩ := List.exists_mem_of_ne_nil vs hvalues
    by_cases hnull : v.isNull = true
    · have hlisted : vs.any Json.isNull = true := List.any_eq_true.2 ⟨v, hv, hnull⟩
      simp [hlisted]
    · have hliteral : (vs.filter fun v => !v.isNull).isEmpty = false := by
        rw [← Bool.not_eq_true, List.isEmpty_iff]
        exact List.ne_nil_of_mem (List.mem_filter.2 ⟨hv, by simpa using hnull⟩)
      simp [hliteral]
  · rw [Schema.admitsNull, hfree, hvs, Bool.false_or, Option.any_some, List.mem_append]
    constructor
    · rintro (hu | hu)
      · split at hu
        · cases hu
        · cases List.mem_singleton.1 hu
      · split at hu
        · next hnull => exact hnull
        · cases hu
    · intro hnull
      rw [if_pos hnull]
      exact .inr (List.mem_singleton_self _)

/-! ## The memo of types -/

/-- A lawful session in which every type that has been worked out suits its normal form. -/
structure Typed {P : Json → Prop} (L : Arena.Law P) (s : Session) : Prop extends Lawful L s where
  suited : ∀ id u, s.types.get? id = some u → s.arena.IsForm id ∧ s.arena.Suits id u

theorem Typed.mono (hs : s.Typed L) (ht : t.Lawful L) (hst : s.arena.Grows t.arena)
    (htypes : t.types = s.types) : t.Typed L where
  toLawful := ht
  suited id u hu := by
    obtain ⟨hid, hsuits⟩ := hs.suited id u (htypes ▸ hu)
    exact ⟨hst.done id _ hid, hsuits.mono hs.arena.toWellFormed hst (hs.arena.isForm_lt hid)⟩

/-- `x`, started in `s`, keeps the session lawful and its types suited, and only adds to it. -/
abbrev Types {α : Type} (L : Arena.Law P) (x : SessionWork α) (s : Session)
    (post : α → Session → Prop) : Prop :=
  Yields (Typed L) Follows x s post

/-- Where no type is worked out, all types stay suited. -/
theorem Typed.types {α : Type} {x : SessionWork α} {post : α → Session → Prop} (hs : s.Typed L)
    (hR : ∀ {t}, R s t → Follows s t) (h : Yields (Lawful L) R x s post) (hx : Obeys SameMemo x) :
    Types L x s post :=
  h.of_final fun ht hst => ⟨hs.mono ht (hR hst).arena (hx s).1, hR hst⟩

theorem types_normalize (hL : Arena.Upheld L) (hs : s.Typed L) (hid : id < s.arena.next) :
    Types L (normalize calls id) s fun r t => t.arena.progress.get? id = some (.done r) :=
  hs.types (fun h => h.toFollows) (keeps_normalize hL hs.toLawful calls hid)
    (obeys_normalize allowsSteps_sameMemo.toAllowsWork id)

theorem types_warn (hs : s.Typed L) (w : Warning) : Types L (warn w) s fun _ _ => True :=
  hs.types (fun h => h.toFollows) (keeps_warn hs.toLawful w)
    (obeys_warn allowsSteps_sameMemo.toAllowsWork w)

theorem types_className (hs : s.Typed L) (id : SchemaId) :
    Types L (className naming id) s fun _ _ => True :=
  hs.types (fun h => h.toFollows)
    (Yields.mono (keeps_className hs.toLawful id) fun _ _ _ _ _ => trivial)
    (obeys_className allowsSteps_sameMemo id)

/-! ## Types worked out -/

/-- A way of working out types that suit, with a memo of such types. -/
def Suiting (L : Arena.Law P) (typer : Typer) : Prop :=
  ∀ id s, s.Typed L → s.arena.IsForm id → Types L (typer id) s fun u t => t.arena.Suits id u

theorem types_formTypes (htyper : Suiting L typer) (hs : s.Typed L) {ids : List SchemaId}
    (hids : ∀ b ∈ ids, s.arena.IsForm b) :
    Types L (formTypes typer ids) s fun us t => (∀ u ∈ us, ∃ b ∈ ids, t.arena.Suits b u) ∧
      ∀ b ∈ ids, ∃ u ∈ us, t.arena.Suits b u := by
  induction ids generalizing s with
  | nil => exact .pure hs (by simp)
  | cons b ids ih =>
      unfold formTypes
      refine .bind (htyper b s hs (hids b (by simp))) fun u t ht hst hu => ?_
      have hrest : ∀ c ∈ ids, t.arena.IsForm c := fun c hc =>
        hst.arena.done c _ (hids c (List.mem_cons_of_mem b hc))
      have hb : t.arena.IsForm b := hst.arena.done b _ (hids b (by simp))
      refine .bind (ih ht hrest) fun us w hw htw hus => .pure hw ?_
      have hu' := hu.mono ht.arena.toWellFormed htw.arena (ht.arena.isForm_lt hb)
      simp only [List.forall_mem_cons, List.exists_mem_cons_iff]
      exact ⟨⟨.inl hu', fun v hv => .inr (hus.1 v hv)⟩, .inl hu', fun c hc => .inr (hus.2 c hc)⟩

/-- The types of objects and arrays have nothing to do with null. -/
theorem types_objectType (hL : Arena.Upheld L) (htyper : Suiting L typer) (hs : s.Typed L)
    (hm : ∀ c ∈ m.links, c < s.arena.next) :
    Types L (objectType calls naming typer id m) s fun u _ => u.Plain ∧ u ≠ .null := by
  unfold objectType
  split
  · exact .bind (types_className hs id) fun name t ht _ _ =>
      .pure ht (TypeExpr.plain_of_required rfl rfl rfl)
  split
  · next values hvalues =>
      refine .bind (types_normalize hL hs (hm _ (Schema.mem_links_of_extras hvalues)))
        fun r t ht _ hr => ?_
      cases r with
      | none => exact .pure ht (TypeExpr.plain_of_required rfl rfl rfl)
      | some form =>
          exact .bind (htyper form t ht (ht.arena.form _ form hr)) fun u w hw _ _ =>
            .pure hw (TypeExpr.plain_of_required rfl rfl rfl)
  · exact .pure hs (TypeExpr.plain_of_required rfl rfl rfl)

theorem types_arrayType (hL : Arena.Upheld L) (htyper : Suiting L typer) (hs : s.Typed L)
    (hm : ∀ c ∈ m.links, c < s.arena.next) :
    Types L (arrayType calls typer m) s fun u _ => u.Plain ∧ u ≠ .null := by
  unfold arrayType
  dsimp only
  split
  · exact .pure hs (TypeExpr.plain_of_required rfl rfl rfl)
  · next items hitems =>
      refine .bind (types_normalize hL hs (hm _ (Schema.mem_links_of_items hitems)))
        fun r t ht _ hr => ?_
      cases r with
      | none =>
          exact .view_bind (.bind (types_warn ht _) fun _ u hu _ _ =>
            .pure hu (TypeExpr.plain_of_required rfl rfl rfl))
      | some form =>
          exact .bind (htyper form t ht (ht.arena.form _ form hr)) fun u w hw _ _ =>
            .pure hw (TypeExpr.plain_of_required rfl rfl rfl)

/-- Every kind gives a plain type, which is null for the null kind alone; only integers give none,
    where there are numbers. -/
theorem types_kindType (hL : Arena.Upheld L) (htyper : Suiting L typer) (hs : s.Typed L)
    (hm : ∀ c ∈ m.links, c < s.arena.next) (kinds : KindSet) (k : Kind) :
    Types L (kindType calls naming typer id m kinds k) s fun r _ =>
      (∀ u ∈ r, u.Plain ∧ (u = .null ↔ k = .null)) ∧
        (r = none → k = .integer ∧ kinds.number = true) := by
  -- a type that is not that of null, of a kind that is not null
  have hother : ∀ {u : TypeExpr}, u.Plain ∧ u ≠ .null → k ≠ .null →
      u.Plain ∧ (u = .null ↔ k = .null) := fun hu hk => ⟨hu.1, iff_of_false hu.2 hk⟩
  cases k with
  | object =>
      refine .bind (types_objectType hL htyper hs hm) fun u t ht _ hu => .pure ht ⟨?_, by simp⟩
      rintro _ ⟨⟩
      exact hother hu (by simp)
  | array =>
      refine .bind (types_arrayType hL htyper hs hm) fun u t ht _ hu => .pure ht ⟨?_, by simp⟩
      rintro _ ⟨⟩
      exact hother hu (by simp)
  | integer =>
      refine .pure hs ⟨fun u hu => ?_, fun hnone => ⟨rfl, ?_⟩⟩
      · split at hu
        · cases hu
        · cases hu
          exact hother (TypeExpr.plain_of_required rfl rfl rfl) (by simp)
      · split at hnone
        · next hnumber => exact hnumber
        · cases hnone
  | null =>
      refine .pure hs ⟨?_, by simp⟩
      rintro _ ⟨⟩
      exact ⟨TypeExpr.plain_null, iff_of_true rfl rfl⟩
  | _ =>
      refine .pure hs ⟨?_, by simp⟩
      rintro _ ⟨⟩
      exact hother (TypeExpr.plain_of_required rfl rfl rfl) (by simp)

theorem types_kindTypes (hL : Arena.Upheld L) (htyper : Suiting L typer) (hs : s.Typed L)
    (hm : ∀ c ∈ m.links, c < s.arena.next) (kinds : KindSet) (ks : List Kind) :
    Types L (kindTypes calls naming typer id m kinds ks) s fun us _ =>
      (∀ u ∈ us, u.Plain) ∧ (.null ∈ us ↔ .null ∈ ks) ∧
        (us = [] → ∀ k ∈ ks, k = .integer ∧ kinds.number = true) := by
  induction ks generalizing s with
  | nil => exact .pure hs (by simp)
  | cons k ks ih =>
      unfold kindTypes
      refine .bind (types_kindType hL htyper hs hm kinds k) fun r t ht hst hr => ?_
      have hmt : ∀ c ∈ m.links, c < t.arena.next := fun c hc =>
        Nat.lt_of_lt_of_le (hm c hc) hst.arena.next
      refine .bind (ih ht hmt) fun us w hw _ hus => .pure hw ⟨fun u hu => ?_, ?_, fun hnil => ?_⟩
      · rcases List.mem_append.1 hu with hu | hu
        · exact (hr.1 u (Option.mem_toList.1 hu)).1
        · exact hus.1 u hu
      · rw [List.mem_append, List.mem_cons, hus.2.1, Option.mem_toList]
        refine or_congr_left ⟨fun hu => ((hr.1 _ hu).2.1 rfl).symm, fun hk => ?_⟩
        cases r with
        | none => cases hk.trans (hr.2 rfl).1
        | some u => exact congrArg some ((hr.1 u rfl).2.2 hk.symm)
      · obtain ⟨hnone, hnil⟩ := List.append_eq_nil_iff.1 hnil
        rw [Option.toList_eq_nil_iff] at hnone
        exact List.forall_mem_cons.2 ⟨hr.2 hnone, hus.2.2 hnil⟩

theorem types_freshType (hL : Arena.Upheld L) (htyper : Suiting L typer) (hs : s.Typed L)
    (hid : s.arena.IsForm id) :
    Types L (freshType calls naming typer id) s fun u t => t.arena.Suits id u := by
  obtain ⟨hnormal, hbranches⟩ := hs.arena.normal id hid
  have hlt : id < s.arena.next := hs.arena.isForm_lt hid
  unfold freshType
  refine .view_bind ?_
  split
  · next hfree => exact .pure hs (Arena.suits_any hfree)
  next hfree =>
  rw [Bool.not_eq_true] at hfree
  split
  · next hany =>
      have hne : (s.arena.schema id).anyOf ≠ [] := by simpa using hany
      refine .bind (types_formTypes htyper hs hbranches) fun us t ht hst hus => .pure ht ?_
      rw [← hst.arena.schema id hlt] at hne hus
      exact Arena.suits_of_branches hne hus.1 hus.2
  next hany =>
  have hany : (s.arena.schema id).anyOf = [] := by simpa using hany
  dsimp only
  split
  · next vs hvs => exact .pure hs (suits_listedType hnormal hany hfree hvs)
  next hvs =>
  have hm : ∀ c ∈ (s.arena.schema id).links, c < s.arena.next := (hs.arena.proper id).links
  refine .bind (types_kindTypes hL htyper hs hm _ _) fun us t ht hst hus => .pure ht ?_
  obtain ⟨hplain, hnull, hnil⟩ := hus
  have hschema := hst.arena.schema id hlt
  refine Arena.suits_of_plain (hschema ▸ hany) (hschema ▸ hfree) hplain (fun hus => ?_) ?_
  · have hsome := hnormal.satisfiable
    rw [Schema.isBottom, Bool.or_eq_false_iff, Bool.or_eq_false_iff] at hsome
    obtain ⟨k, hk⟩ := Schema.exists_effectiveKinds hsome.1.1
    -- where there are integers only because there are numbers, these have given a type
    obtain ⟨-, hnumber⟩ := hnil hus k (KindSet.mem_toList.2 hk)
    cases (hnil hus .number (KindSet.mem_toList.2 hnumber)).1
  · rw [hnull, KindSet.mem_toList, hschema, Schema.admitsNull, hfree, hvs]
    simp [KindSet.contains]

/-- A type that suits may be remembered. -/
theorem Typed.settleType (hs : s.Typed L) {r : Except Failure TypeExpr}
    (hlawful : (settleType id r s).Lawful L) (hid : s.arena.IsForm id)
    (hr : ∀ u, r = .ok u → s.arena.Suits id u) : (settleType id r s).Typed L := by
  refine ⟨hlawful, fun i v hv => ?_⟩
  cases r with
  | error e => exact hs.suited i v hv
  | ok u =>
      change (s.types.insert id u).get? i = some v at hv
      rw [Dict.get?_insert] at hv
      split at hv
      · next hi =>
          cases hv
          rw [hi]
          exact ⟨hid, hr _ rfl⟩
      · exact hs.suited i v hv

theorem suiting_formTypeWithin (hL : Arena.Upheld L) (n : Nat) :
    Suiting L (formTypeWithin calls naming n) := by
  induction n with
  | zero => exact fun _ _ hs _ => .exhausted hs
  | succ n ih =>
      intro id s hs hid
      unfold formTypeWithin formTypeStep
      refine .view_bind ?_
      split
      · next u hu => exact .pure hs (hs.suited id u hu).2
      refine .view_bind ?_
      split
      · exact .view_bind (.fault hs)
      obtain ⟨ht, hst⟩ := hs.toLawful.of_known (t := { s with typing := s.typing ++ [id] }) rfl
      have htyped := hs.mono ht hst.arena rfl
      refine .modify_bind htyped hst.toFollows ?_
      generalize ({ s with typing := s.typing ++ [id] } : Session) = t at ht hst htyped
      have hid : t.arena.IsForm id := hst.arena.done id _ hid
      -- what is remembered names only what it may name, besides being suited
      have hnames : Keeps L (freshType calls naming (formTypeWithin calls naming n) id) t
          fun u w => w.Covers id u :=
        keeps_freshType hL (keeper_formTypeWithin hL n) ht hid
      have hsuits : Types L (freshType calls naming (formTypeWithin calls naming n) id) t
          fun u w => w.arena.Suits id u :=
        types_freshType hL ih htyped hid
      refine ends_thenAlways.2 (Ends.mono (Ends.and hnames hsuits) ?_ ?_)
      · rintro u w ⟨⟨⟨hw, -⟩, hcovers⟩, ⟨htyped, htw⟩, hsuits⟩
        obtain ⟨hlawful, hstays⟩ := hw.settleType (r := .ok u) (by rintro _ ⟨⟩; exact hcovers)
        refine ⟨⟨htyped.settleType hlawful (htw.arena.done id _ hid) ?_,
          trans_of Follows htw hstays.toFollows⟩, hsuits⟩
        rintro _ ⟨⟩
        exact hsuits
      · rintro e w ⟨⟨hw, -⟩, htyped, htw⟩
        obtain ⟨hlawful, hstays⟩ := hw.of_known (t := settleType id (.error e) w) rfl
        exact ⟨htyped.settleType hlawful (htw.arena.done id _ hid) (by simp),
          trans_of Follows htw hstays.toFollows⟩

/-- The type at a required position suits the normal form there. -/
theorem types_positionType (hL : Arena.Upheld L) (hs : s.Typed L) (hid : id < s.arena.next)
    (required : Bool) :
    Types L (positionType calls naming id required) s fun r t => ∀ u ∈ r, ∃ form,
      t.arena.progress.get? id = some (.done (some form)) ∧
        (required = true → t.arena.Suits form u) := by
  unfold positionType
  refine .bind (types_normalize hL hs hid) fun r t ht _ hr => ?_
  cases r with
  | none => exact .pure ht (by rintro _ ⟨⟩)
  | some form =>
      refine .bind (suiting_formTypeWithin hL calls form t ht (ht.arena.form id form hr)) ?_
      intro u w hw htw hu
      refine .pure hw ?_
      rintro _ ⟨⟩
      refine ⟨form, htw.arena.done id _ hr, ?_⟩
      rintro rfl
      exact hu

/-! ## Requests -/

theorem keptUp_suits (hL : Arena.Upheld L) :
    KeptUp L fun s => ∀ id u, s.types.get? id = some u → s.arena.IsForm id ∧ s.arena.Suits id u where
  empty _ _ h := by simp [Session.empty] at h
  mono hs ht hst hsame := (Typed.mono ⟨hs.1, hs.2⟩ ht hst hsame.1).suited
  formType calls naming id hs hid := by
    have htypes : Types L (formTypeWithin calls naming calls id) _ fun u t => t.arena.Suits id u :=
      suiting_formTypeWithin hL calls id _ ⟨hs.1, hs.2⟩ hid
    exact Yields.of_final (htypes.mono fun _ _ _ _ _ => trivial) fun ht hst =>
      ⟨⟨ht.toLawful, ht.suited⟩, hst⟩

/-- In every session that is reached the types that have been worked out suit their normal forms. -/
theorem Reachable.typed {document : Json} (hL : Arena.Upheld L) (hP : Hereditary P)
    (hd : P document) (h : Reachable document naming s) : s.Typed L :=
  have hs := (keptUp_suits hL).of_reachable hL hP hd h
  ⟨hs.1, hs.2⟩

end Session

end ApiModel
