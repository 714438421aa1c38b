/-
  ApiModel.Proofs.TypeExpr.Absorption

  Unions absorb unions. A union of some types may stand for these types wherever they occur among
  others: the result is the very same type. The inner union has thinned its members out and put them
  by text, but it has kept the first of any equal ones, and the order of those with the same text;
  this is all that the outer one goes by.
-/
import ApiModel.Proofs.TypeExpr.Canonical

namespace ApiModel.TypeExpr

variable {t u : TypeExpr} {ts us xs ys zs : List TypeExpr} {p : TypeExpr → Bool}

/-! ## Repetitions -/

/-- Equal types equal the same types. -/
theorem any_same_congr (hts : ∀ t ∈ ts, t.DistinctKeys) (ht : t.DistinctKeys)
    (hu : u.DistinctKeys) (h : t.same u = true) : ts.any (·.same t) = ts.any (·.same u) := by
  rw [Bool.eq_iff_iff, List.any_eq_true, List.any_eq_true]
  refine exists_congr fun s => and_congr_right fun hs => ?_
  rw [same_congr_right (hts s hs) ht hu h]

/-- Types that are thinned out and put by text stand for themselves before any others. -/
theorem sameByText_distinct_append (hxs : ∀ t ∈ xs, t.DistinctKeys) (zs : List TypeExpr) :
    SameByText (distinct (sortByText (distinct xs) ++ zs)) (distinct (xs ++ zs)) := by
  have hself : distinct (sortByText (distinct xs)) = sortByText (distinct xs) :=
    distinct_eq_self ((pairwise_unequal hxs).imp And.left)
  have hany : ∀ u, (sortByText (distinct xs)).any (·.same u) = (distinct xs).any (·.same u) :=
    fun u => (perm_sortByText _).any_eq
  rw [distinct_append, distinct_append, hself]
  simp only [hany]
  exact (sameByText_sortByText _).append (.refl _)

/-- Types that are thinned out and put by text may stand for themselves among others. -/
theorem sortByText_distinct_absorb (hys : ∀ t ∈ ys, t.DistinctKeys)
    (hxs : ∀ t ∈ xs, t.DistinctKeys) (hzs : ∀ t ∈ zs, t.DistinctKeys) :
    sortByText (distinct (ys ++ (sortByText (distinct xs) ++ zs))) =
      sortByText (distinct (ys ++ (xs ++ zs))) := by
  -- whether a type is dropped on account of `ys` does not depend on which of equal types it is
  have hdropped : ∀ us : List TypeExpr, (∀ t ∈ us, t.DistinctKeys) →
      ∀ t ∈ us, ∀ u ∈ us, t.same u = true →
        (!(distinct ys).any (·.same t)) = !(distinct ys).any (·.same u) := by
    intro us hus t ht u hu hsame
    have hseen : ∀ s ∈ distinct ys, s.DistinctKeys := fun s hs => hys s (mem_of_mem_distinct hs)
    rw [any_same_congr hseen (hus t ht) (hus u hu) hsame]
  have hsorted : ∀ t ∈ sortByText (distinct xs) ++ zs, t.DistinctKeys := by
    intro t ht
    rcases List.mem_append.1 ht with ht | ht
    · exact hxs t (mem_of_mem_distinct (mem_sortByText.1 ht))
    · exact hzs t ht
  have hplain : ∀ t ∈ xs ++ zs, t.DistinctKeys := List.forall_mem_append.2 ⟨hxs, hzs⟩
  apply SameByText.sortByText_eq
  rw [distinct_append, distinct_append ys, distinct_filter (hdropped _ hsorted),
    distinct_filter (hdropped _ hplain)]
  exact (SameByText.refl _).append (sameByText_distinct_append hxs zs).filter

/-! ## Unions among others -/

theorem leavesAll_append (ts us : List TypeExpr) :
    leavesAll (ts ++ us) = leavesAll ts ++ leavesAll us := by
  induction ts with
  | nil => rfl
  | cons t ts ih => rw [List.cons_append, leavesAll, leavesAll, ih, List.append_assoc]

theorem solid_append (ts us : List TypeExpr) : solid (ts ++ us) = solid ts ++ solid us := by
  rw [solid, leavesAll_append, List.filter_append]
  rfl

theorem admitsNullAny_append (ts us : List TypeExpr) :
    admitsNullAny (ts ++ us) = (admitsNullAny ts || admitsNullAny us) := by
  induction ts with
  | nil => rfl
  | cons t ts ih => rw [List.cons_append, admitsNullAny, admitsNullAny, ih, Bool.or_assoc]

theorem leftOf_append : LeftOf (ts ++ us) u ↔ LeftOf ts u ∨ LeftOf us u := by
  rw [← mem_leavesAll_iff, leavesAll_append, List.mem_append, mem_leavesAll_iff, mem_leavesAll_iff]

theorem leftOf_singleton : LeftOf [t] u ↔ u ∈ t.leaves := by
  rw [← mem_leavesAll_iff, leavesAll, leavesAll, List.append_nil]

/-- Any value is left of a union just where it is left of the members. -/
theorem leftOf_any_unionOf (ts : List TypeExpr) : LeftOf [unionOf ts] .any ↔ LeftOf ts .any := by
  rw [leftOf_singleton, ← mem_leavesAll_iff, ← unionOf_eq_any_iff]
  constructor
  · exact (flat_unionOf ts).any
  · intro h
    rw [h]
    exact List.mem_singleton_self _

/-- What is left of a union other than null are its members. -/
theorem solid_unionOf (hany : ¬ LeftOf ts .any) : solid [unionOf ts] = core ts := by
  have hself : (core ts).filter (fun t => !t.isNull) = core ts := by
    apply List.filter_eq_self.2
    intro u hu
    rw [Bool.not_eq_true', Bool.eq_false_iff, Ne, isNull_iff]
    exact (leftOf_of_mem_core hu).2
  obtain ⟨hleaves, -, -⟩ := join_core fun h => hany (mem_leavesAll_iff.1 h)
  rw [solid, leavesAll, leavesAll, List.append_nil, unionOf_of_not_any hany]
  by_cases hcore : core ts = []
  · rw [if_pos hcore, hcore]
    rfl
  rw [if_neg hcore]
  split
  · rw [leaves, hleaves, hself]
  · rw [hleaves, hself]

/-- A union admits null just where opening its members does, if this leaves anything. -/
theorem admitsNull_unionOf (hany : ¬ LeftOf ts .any) (hleft : ∃ u, LeftOf ts u) :
    (unionOf ts).admitsNull = admitsNullAny ts := by
  obtain ⟨-, hjoin, -⟩ := join_core fun h => hany (mem_leavesAll_iff.1 h)
  rw [unionOf_of_not_any hany]
  by_cases hcore : core ts = []
  · obtain ⟨u, hu⟩ := hleft
    have hmem : u ∈ leavesAll ts := mem_leavesAll_iff.2 hu
    rw [core_eq_nil_iff.1 hcore u hu] at hmem
    rw [if_pos hcore, admitsNullAny_of_null_mem_leavesAll ts hmem]
    rfl
  rw [if_neg hcore]
  cases admitsNullAny ts with
  | true => rfl
  | false => exact hjoin

/-- A union depends on what is left of its members by text, and on null, only. -/
theorem unionOf_congr (hany : LeftOf ts .any ↔ LeftOf us .any) (hcore : core ts = core us)
    (hnull : admitsNullAny ts = admitsNullAny us) : unionOf ts = unionOf us := by
  by_cases h : LeftOf ts .any
  · rw [unionOf_eq_any_iff.2 (mem_leavesAll_iff.2 h),
      unionOf_eq_any_iff.2 (mem_leavesAll_iff.2 (hany.1 h))]
  · rw [unionOf_of_not_any h, unionOf_of_not_any (mt hany.2 h), hcore, hnull]

/-- A union among other types may be replaced by its members, if opening these leaves anything. -/
theorem unionOf_absorbs (hkeys : ∀ t ∈ ys ++ xs ++ zs, t.DistinctKeys)
    (hleft : ∃ u, LeftOf xs u) : unionOf (ys ++ [unionOf xs] ++ zs) = unionOf (ys ++ xs ++ zs) := by
  have hany : LeftOf (ys ++ [unionOf xs] ++ zs) .any ↔ LeftOf (ys ++ xs ++ zs) .any := by
    simp only [leftOf_append, leftOf_any_unionOf]
  by_cases hxs : LeftOf xs .any
  · have hall : LeftOf (ys ++ xs ++ zs) .any := leftOf_append.2 (.inl (leftOf_append.2 (.inr hxs)))
    rw [unionOf_eq_any_iff.2 (mem_leavesAll_iff.2 hall),
      unionOf_eq_any_iff.2 (mem_leavesAll_iff.2 (hany.2 hall))]
  have hsolid : ∀ ts, (∀ t ∈ ts, t ∈ ys ++ xs ++ zs) → ∀ t ∈ solid ts, t.DistinctKeys :=
    fun ts hts t ht => (mem_solid.1 ht).1.distinctKeys fun s hs => hkeys s (hts s hs)
  apply unionOf_congr hany
  · simp only [core_eq, solid_append, List.append_assoc, solid_unionOf hxs]
    exact sortByText_distinct_absorb (hsolid ys (by simp +contextual))
      (hsolid xs (by simp +contextual)) (hsolid zs (by simp +contextual))
  · simp only [admitsNullAny_append]
    rw [admitsNullAny, admitsNullAny, Bool.or_false, admitsNull_unionOf hxs hleft]

/-- The literal in front is the one that stays of the two in the union, and the class named like a
    scalar stays in front of it. -/
theorem unionOf_absorbs_reorderedKeys :
    (∀ t ∈ [.literal [.obj [("tag", .null), ("id", .null)]]] ++ reorderedKeys ++
        [.named ⟨[], "string"⟩, bare .string], t.DistinctKeys) ∧
      (∃ u, LeftOf reorderedKeys u) ∧
      unionOf ([.literal [.obj [("tag", .null), ("id", .null)]]] ++ [unionOf reorderedKeys] ++
          [.named ⟨[], "string"⟩, bare .string]) =
        unionOf ([.literal [.obj [("tag", .null), ("id", .null)]]] ++ reorderedKeys ++
          [.named ⟨[], "string"⟩, bare .string]) := by
  have hkeys : ∀ t ∈ [.literal [.obj [("tag", .null), ("id", .null)]]] ++ reorderedKeys ++
      [.named ⟨[], "string"⟩, bare .string], t.DistinctKeys := by
    refine List.forall_mem_append.2 ⟨List.forall_mem_append.2 ⟨?_, distinctKeys_reorderedKeys⟩, ?_⟩
    · simp [DistinctKeys.literal_iff, Json.Distinct.null]
    · simp [DistinctKeys.named, DistinctKeys.scalar, bare]
  have hleft : ∃ u, LeftOf reorderedKeys u :=
    ⟨.literal [.obj [("id", .null), ("tag", .null)]], rfl, _, .tail _ (.head _), .here _⟩
  exact ⟨hkeys, hleft, unionOf_absorbs hkeys hleft⟩

end ApiModel.TypeExpr
