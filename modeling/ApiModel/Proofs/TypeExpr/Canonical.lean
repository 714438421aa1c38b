/-
  ApiModel.Proofs.TypeExpr.Canonical

  Unions are canonical and lose nothing. What is left of some types when the unions and optionals
  around them are opened decides their union: it is any value just where any value is among what is
  left; otherwise its members are what is left other than null, each once and by text, with one
  optional around them just where null may come up. The form of a union shows no trace of how its
  members were nested.
-/
import ApiModel.Proofs.TypeExpr
import ApiModel.Proofs.TypeExpr.Equality

namespace ApiModel.TypeExpr

variable {t u : TypeExpr} {ts us ms : List TypeExpr}

/-! ## Opening -/

/-- What is met when the unions and optionals around a type are opened, the type itself first. -/
inductive Opens : TypeExpr → TypeExpr → Prop
  | here (t : TypeExpr) : Opens t t
  | union {ts : List TypeExpr} {t u : TypeExpr} (ht : t ∈ ts) (h : Opens t u) :
      Opens (.union ts) u
  | optional {t u : TypeExpr} (h : Opens t u) : Opens (.optional t) u

/-- A type is left of some types when opening all unions and optionals around them comes to it. -/
def LeftOf (ts : List TypeExpr) (u : TypeExpr) : Prop :=
  u.isWrapper = false ∧ ∃ t ∈ ts, t.Opens u

/-- Opening some types meets an optional or ends in null. -/
def MeetsNull (ts : List TypeExpr) : Prop :=
  ∃ t ∈ ts, ∃ u, t.Opens u ∧ (u = .null ∨ ∃ v, u = .optional v)

theorem DistinctKeys.of_opens (h : t.DistinctKeys) (ho : t.Opens u) : u.DistinctKeys := by
  induction ho with
  | here => exact h
  | union ht _ ih =>
      cases h with
      | union h => exact ih (h _ ht)
  | optional _ ih =>
      cases h with
      | optional h => exact ih h

theorem LeftOf.distinctKeys (h : LeftOf ts u) (hkeys : ∀ t ∈ ts, t.DistinctKeys) :
    u.DistinctKeys := by
  obtain ⟨-, t, ht, ho⟩ := h
  exact (hkeys t ht).of_opens ho

theorem opens_union_iff (hu : u.isWrapper = false) :
    Opens (.union ts) u ↔ ∃ t ∈ ts, t.Opens u := by
  constructor
  · intro h
    cases h with
    | here => cases hu
    | union ht h => exact ⟨_, ht, h⟩
  · rintro ⟨t, ht, h⟩
    exact .union ht h

theorem opens_optional_iff (hu : u.isWrapper = false) : Opens (.optional t) u ↔ t.Opens u := by
  constructor
  · intro h
    cases h with
    | here => cases hu
    | optional h => exact h
  · exact .optional

theorem opens_iff_eq (ht : t.isWrapper = false) : t.Opens u ↔ u = t := by
  constructor
  · intro h
    cases h with
    | here => rfl
    | union _ _ => cases ht
    | optional _ => cases ht
  · rintro rfl
    exact .here u

mutual

theorem mem_leaves_iff (t : TypeExpr) (hu : u.isWrapper = false) : u ∈ t.leaves ↔ t.Opens u := by
  cases t with
  | union ts => rw [leaves, opens_union_iff hu, mem_leavesAll_iff_opens ts hu]
  | optional t => rw [leaves, opens_optional_iff hu, mem_leaves_iff t hu]
  | _ => rw [opens_iff_eq rfl]; exact List.mem_singleton

theorem mem_leavesAll_iff_opens (ts : List TypeExpr) (hu : u.isWrapper = false) :
    u ∈ leavesAll ts ↔ ∃ t ∈ ts, t.Opens u := by
  cases ts with
  | nil => simp [leavesAll]
  | cons t ts =>
      rw [leavesAll, List.mem_append, mem_leaves_iff t hu, mem_leavesAll_iff_opens ts hu]
      simp only [List.mem_cons, exists_eq_or_imp]

end

theorem mem_leavesAll_iff : u ∈ leavesAll ts ↔ LeftOf ts u := by
  constructor
  · intro h
    have hu := isWrapper_of_mem_leavesAll ts h
    exact ⟨hu, (mem_leavesAll_iff_opens ts hu).1 h⟩
  · rintro ⟨hu, h⟩
    exact (mem_leavesAll_iff_opens ts hu).2 h

mutual

theorem admitsNull_iff (t : TypeExpr) :
    t.admitsNull = true ↔ ∃ u, t.Opens u ∧ (u = .null ∨ ∃ v, u = .optional v) := by
  cases t with
  | union ts =>
      rw [admitsNull, admitsNullAny_iff_meetsNull ts]
      constructor
      · rintro ⟨t, ht, u, ho, hu⟩
        exact ⟨u, .union ht ho, hu⟩
      · rintro ⟨u, ho, hu⟩
        cases ho with
        | here => simp at hu
        | union ht ho => exact ⟨_, ht, u, ho, hu⟩
  | optional t => exact iff_of_true rfl ⟨.optional t, .here _, .inr ⟨t, rfl⟩⟩
  | null => exact iff_of_true rfl ⟨.null, .here _, .inl rfl⟩
  | _ =>
      refine iff_of_false nofun ?_
      rintro ⟨u, ho, hu⟩
      rw [opens_iff_eq rfl] at ho
      simp [ho] at hu

theorem admitsNullAny_iff_meetsNull (ts : List TypeExpr) :
    admitsNullAny ts = true ↔ MeetsNull ts := by
  cases ts with
  | nil => simp [admitsNullAny, MeetsNull]
  | cons t ts =>
      rw [admitsNullAny, Bool.or_eq_true, admitsNull_iff t, admitsNullAny_iff_meetsNull ts]
      simp only [MeetsNull, List.mem_cons, exists_eq_or_imp]

end

/-! ## What unions are made of -/

theorem leftOf_of_mem_core (h : u ∈ core ts) : LeftOf ts u ∧ u ≠ .null :=
  ⟨mem_leavesAll_iff.1 (mem_core h).1, (mem_core h).2⟩

theorem isWrapper_of_mem_core (h : u ∈ core ts) : u.isWrapper = false :=
  (leftOf_of_mem_core h).1.1

/-- What is left of some types, null aside. -/
def solid (ts : List TypeExpr) : List TypeExpr := (leavesAll ts).filter fun t => !t.isNull

theorem mem_solid : u ∈ solid ts ↔ LeftOf ts u ∧ u ≠ .null := by
  rw [solid, List.mem_filter, mem_leavesAll_iff, Bool.not_eq_true', Bool.eq_false_iff, Ne,
    isNull_iff]

theorem core_eq (ts : List TypeExpr) : core ts = sortByText (distinct (solid ts)) := rfl

/-- Nothing is lost: what is left, null aside, is among the members or equals one of them. -/
theorem exists_mem_core (hkeys : ∀ t ∈ ts, t.DistinctKeys) (hu : LeftOf ts u) (hnull : u ≠ .null) :
    ∃ m ∈ core ts, m.same u = true := by
  rcases mem_distinct_or_same (mem_solid.2 ⟨hu, hnull⟩) with h | ⟨m, hm, hmu⟩
  · exact ⟨u, mem_sortByText.2 h, (hu.distinctKeys hkeys).same_refl⟩
  · exact ⟨m, mem_sortByText.2 hm, hmu⟩

/-- Two types are different, whichever of them is asked. -/
def Unequal (t u : TypeExpr) : Prop := t.same u = false ∧ u.same t = false

instance : Std.Symm Unequal := ⟨fun _ _ h => ⟨h.2, h.1⟩⟩

/-- Types that are thinned out and put by text are pairwise unequal. -/
theorem pairwise_unequal (hkeys : ∀ t ∈ ts, t.DistinctKeys) :
    (sortByText (distinct ts)).Pairwise Unequal := by
  have hdistinct : (distinct ts).Pairwise Unequal := by
    apply List.Pairwise.imp_of_mem _ (pairwise_distinct ts)
    intro t u ht hu hne
    refine ⟨hne, ?_⟩
    rwa [same_comm (hkeys u (mem_of_mem_distinct hu)) (hkeys t (mem_of_mem_distinct ht))]
  exact hdistinct.perm (perm_sortByText _).symm fun h => ⟨h.2, h.1⟩

theorem pairwise_core (hkeys : ∀ t ∈ ts, t.DistinctKeys) : (core ts).Pairwise Unequal :=
  pairwise_unequal fun _ hu => (mem_solid.1 hu).1.distinctKeys hkeys

theorem core_eq_nil_iff : core ts = [] ↔ ∀ u, LeftOf ts u → u = .null := by
  constructor
  · intro h u hu
    exact core_eq_nil h u (mem_leavesAll_iff.2 hu)
  · intro h
    apply List.eq_nil_iff_forall_not_mem.2
    intro u hu
    exact (leftOf_of_mem_core hu).2 (h u (leftOf_of_mem_core hu).1)

theorem members_of_not_wrapper (h : t.isWrapper = false) : t.members = [t] := by
  cases t with
  | union => cases h
  | optional => cases h
  | _ => rfl

theorem members_join (hts : ts ≠ []) (h : ∀ u ∈ ts, u.isWrapper = false) :
    (join ts).members = ts := by
  unfold join
  split
  · exact members_of_not_wrapper (h _ List.mem_cons_self)
  · rfl

/-- Types side by side are a union only where there are several. -/
theorem join_eq_union (hts : ts ≠ []) (h : ∀ u ∈ ts, u.isWrapper = false)
    (hjoin : join ts = .union ms) : ms = ts ∧ 2 ≤ ts.length := by
  match ts with
  | [] => exact absurd rfl hts
  | [t] =>
      have ht : t.isWrapper = false := h t List.mem_cons_self
      rw [show t = .union ms from hjoin] at ht
      cases ht
  | t :: u :: ts =>
      cases hjoin
      exact ⟨rfl, by simp⟩

/-- Where any value is not among what is left, a union is null, its members side by side, or these
    with an optional around them. -/
theorem unionOf_of_not_any (hany : ¬ LeftOf ts .any) :
    unionOf ts =
      if core ts = [] then .null
      else if admitsNullAny ts then .optional (join (core ts)) else join (core ts) := by
  have hleaf : .any ∉ leavesAll ts := fun h => hany (mem_leavesAll_iff.1 h)
  obtain ⟨-, -, hoptional⟩ := join_core hleaf
  rw [unionOf_eq, if_neg (by simpa [isAny_iff] using hleaf), optionalOf_eq hoptional]
  simp only [List.isEmpty_iff]

/-! ## The canonical form -/

/-- The types `ms` are what is left of `ts` other than null: each once, and by text. -/
structure Lists (ms ts : List TypeExpr) : Prop where
  left : ∀ m ∈ ms, LeftOf ts m ∧ m ≠ .null
  complete : ∀ u, LeftOf ts u → u ≠ .null → ∃ m ∈ ms, m.same u = true
  unequal : ms.Pairwise Unequal
  ascending : Ascending ms

/-- The type `r` is the canonical union of `ts`. -/
structure Canonical (ts : List TypeExpr) (r : TypeExpr) : Prop where
  any : r = .any ↔ LeftOf ts .any
  null : ¬ LeftOf ts .any → (∀ u, LeftOf ts u → u = .null) → r = .null
  members : ¬ LeftOf ts .any → (∃ u, LeftOf ts u ∧ u ≠ .null) → Lists r.members ts
  optional : ¬ LeftOf ts .any →
    ((∃ t, r = .optional t) ↔ MeetsNull ts ∧ ∃ u, LeftOf ts u ∧ u ≠ .null)
  /-- A union has several members, none of which dissolves in it. -/
  several : ∀ ms, r = .union ms ∨ r = .optional (.union ms) →
    2 ≤ ms.length ∧ ∀ m ∈ ms, m.isWrapper = false ∧ m ≠ .null ∧ m ≠ .any
  /-- An optional is around something to which null is new. -/
  inner : ∀ t, r = .optional t → t ≠ .any ∧ t ≠ .null ∧ ∀ u, t ≠ .optional u

theorem lists_core (hkeys : ∀ t ∈ ts, t.DistinctKeys) : Lists (core ts) ts where
  left _ hm := leftOf_of_mem_core hm
  complete _ hu hnull := exists_mem_core hkeys hu hnull
  unequal := pairwise_core hkeys
  ascending := ascending_sortByText _

theorem members_unionOf (hany : ¬ LeftOf ts .any) (hcore : core ts ≠ []) :
    (unionOf ts).members = core ts := by
  rw [unionOf_of_not_any hany, if_neg hcore]
  split
  · rw [members, members_join hcore fun u => isWrapper_of_mem_core]
  · rw [members_join hcore fun u => isWrapper_of_mem_core]

theorem unionOf_eq_optional_iff (hany : ¬ LeftOf ts .any) :
    unionOf ts = .optional t ↔ t = join (core ts) ∧ core ts ≠ [] ∧ admitsNullAny ts = true := by
  obtain ⟨-, -, hoptional⟩ := join_core fun h => hany (mem_leavesAll_iff.1 h)
  rw [unionOf_of_not_any hany]
  by_cases hcore : core ts = []
  · rw [if_pos hcore]
    exact iff_of_false nofun fun h => h.2.1 hcore
  rw [if_neg hcore]
  cases hnull : admitsNullAny ts with
  | true => rw [if_pos rfl, TypeExpr.optional.injEq, eq_comm]; simp [hcore]
  | false =>
      rw [if_neg Bool.false_ne_true]
      refine iff_of_false (fun h => ?_) (by simp)
      rw [h] at hoptional
      cases hoptional

theorem unionOf_eq_union (hany : ¬ LeftOf ts .any)
    (h : unionOf ts = .union ms ∨ unionOf ts = .optional (.union ms)) :
    ms = core ts ∧ 2 ≤ (core ts).length := by
  have hcore : core ts ≠ [] := by
    intro hcore
    rw [unionOf_of_not_any hany, if_pos hcore] at h
    rcases h with h | h <;> cases h
  have hjoin : join (core ts) = .union ms := by
    rcases h with h | h
    · rw [unionOf_of_not_any hany, if_neg hcore] at h
      split at h
      · cases h
      · exact h
    · exact ((unionOf_eq_optional_iff hany).1 h).1.symm
  exact join_eq_union hcore (fun u => isWrapper_of_mem_core) hjoin

/-- Every union is canonical. -/
theorem canonical_unionOf (hkeys : ∀ t ∈ ts, t.DistinctKeys) : Canonical ts (unionOf ts) := by
  have hany_iff : unionOf ts = .any ↔ LeftOf ts .any :=
    unionOf_eq_any_iff.trans mem_leavesAll_iff
  by_cases hany : LeftOf ts .any
  · rw [hany_iff.2 hany]
    exact ⟨iff_of_true rfl hany, fun h => absurd hany h, fun h => absurd hany h,
      fun h => absurd hany h, fun ms h => by simp at h, nofun⟩
  have hcore_ne : (∃ u, LeftOf ts u ∧ u ≠ .null) ↔ core ts ≠ [] := by
    simp only [Ne, core_eq_nil_iff, not_forall, exists_prop]
  refine ⟨hany_iff, ?null, ?members, ?optional, ?several, ?inner⟩
  case null =>
    intro _ hnone
    rw [unionOf_of_not_any hany, if_pos (core_eq_nil_iff.2 hnone)]
  case members =>
    intro _ hsome
    rw [members_unionOf hany (hcore_ne.1 hsome)]
    exact lists_core hkeys
  case optional =>
    intro _
    rw [hcore_ne, ← admitsNullAny_iff_meetsNull ts, and_comm]
    simp only [unionOf_eq_optional_iff hany, exists_eq_left]
  case several =>
    intro ms h
    obtain ⟨rfl, hlength⟩ := unionOf_eq_union hany h
    refine ⟨hlength, fun m hm => ⟨isWrapper_of_mem_core hm, (leftOf_of_mem_core hm).2, ?_⟩⟩
    rintro rfl
    exact hany (leftOf_of_mem_core hm).1
  case inner =>
    intro t h
    obtain ⟨rfl, -, -⟩ := (unionOf_eq_optional_iff hany).1 h
    obtain ⟨-, -, hoptional⟩ := join_core fun h => hany (mem_leavesAll_iff.1 h)
    refine ⟨?_, ?_, ?_⟩ <;> intros <;> intro heq <;> rw [heq] at hoptional <;> cases hoptional

/-- An optional union, and two literals that differ in nothing but the order of their keys. -/
def reorderedKeys : List TypeExpr :=
  [.optional (.union [.named ⟨["pets"], "Pet"⟩, .null]),
    .literal [.obj [("id", .null), ("tag", .null)]],
    .literal [.obj [("tag", .null), ("id", .null)]]]

theorem distinctKeys_reorderedKeys : ∀ t ∈ reorderedKeys, t.DistinctKeys := by
  have hnull : Json.null.Distinct := .null
  intro t ht
  simp only [reorderedKeys, List.mem_cons, List.not_mem_nil, or_false] at ht
  rcases ht with rfl | rfl | rfl
  · exact .optional (.union (by simp [DistinctKeys.named, DistinctKeys.null]))
  · exact .literal (by simp [hnull])
  · exact .literal (by simp [hnull])

theorem canonical_reorderedKeys :
    (∀ t ∈ reorderedKeys, t.DistinctKeys) ∧ Canonical reorderedKeys (unionOf reorderedKeys) :=
  ⟨distinctKeys_reorderedKeys, canonical_unionOf distinctKeys_reorderedKeys⟩

end ApiModel.TypeExpr
