/-
  ApiModel.Proofs.TypeExpr

  What composed types keep of their members, however unions are opened, thinned out and sorted. A
  union refers to no classes that its members do not refer to; and it is the type of any value, or
  admits null, just where one of its members is or does.
-/
import ApiModel.Proofs.TypeExpr.Thinning

namespace ApiModel.TypeExpr

variable {t u : TypeExpr} {ts : List TypeExpr} {n : TypeName}

/-! ## Classes -/

theorem mem_namesAll : n ∈ namesAll ts ↔ ∃ t ∈ ts, n ∈ t.names := by
  induction ts with
  | nil => simp [namesAll]
  | cons t ts ih => simp [namesAll, ih]

theorem names_optionalOf : (optionalOf t).names = t.names := by
  unfold optionalOf
  split
  · rfl
  · rw [names]

theorem namesAll_append (ts us : List TypeExpr) :
    namesAll (ts ++ us) = namesAll ts ++ namesAll us := by
  induction ts with
  | nil => simp [namesAll]
  | cons t ts ih => rw [List.cons_append, namesAll, namesAll, ih, List.append_assoc]

mutual

/-- Opening the unions and optionals around a type keeps the classes it refers to. -/
theorem namesAll_leaves (t : TypeExpr) : namesAll (leaves t) = t.names := by
  cases t with
  | union ts => rw [leaves, names, namesAll_leavesAll ts]
  | optional t => rw [leaves, names, namesAll_leaves t]
  | _ => simp [leaves, namesAll, names]

theorem namesAll_leavesAll (ts : List TypeExpr) : namesAll (leavesAll ts) = namesAll ts := by
  cases ts with
  | nil => rfl
  | cons t ts =>
      rw [leavesAll, namesAll, namesAll_append, namesAll_leaves t, namesAll_leavesAll ts]

end

/-- What is left of some types when they are opened, without null: once each, by text. -/
def core (ts : List TypeExpr) : List TypeExpr :=
  sortByText (distinct ((leavesAll ts).filter fun t => !t.isNull))

/-- Some types side by side; a single one stands for itself. -/
def join : List TypeExpr → TypeExpr
  | [t] => t
  | ts => .union ts

theorem unionOf_eq (ts : List TypeExpr) :
    unionOf ts =
      if (leavesAll ts).any isAny then .any
      else if (core ts).isEmpty then .null
      else if admitsNullAny ts then optionalOf (join (core ts))
      else join (core ts) := by
  unfold unionOf
  dsimp only
  rw [show sortByText (distinct ((leavesAll ts).filter fun t => !t.isNull)) = core ts from rfl]
  rcases core ts with _ | ⟨t, _ | ⟨u, ts⟩⟩ <;> rfl

theorem mem_core (h : u ∈ core ts) : u ∈ leavesAll ts ∧ u ≠ .null := by
  obtain ⟨hmem, hnull⟩ := List.mem_filter.1 (mem_of_mem_distinct (mem_sortByText.1 h))
  exact ⟨hmem, fun heq => by simp [heq, isNull] at hnull⟩

theorem names_join (ts : List TypeExpr) : (join ts).names = namesAll ts := by
  unfold join
  split
  · simp [namesAll]
  · rw [names]

/-- A union refers to what its members refer to, at most. -/
theorem names_unionOf (h : n ∈ (unionOf ts).names) : ∃ t ∈ ts, n ∈ t.names := by
  have hcore : n ∈ namesAll (core ts) → ∃ t ∈ ts, n ∈ t.names := by
    intro h
    rw [← mem_namesAll, ← namesAll_leavesAll, mem_namesAll]
    obtain ⟨u, hu, hn⟩ := mem_namesAll.1 h
    exact ⟨u, (mem_core hu).1, hn⟩
  rw [unionOf_eq] at h
  split at h
  · simp [names] at h
  split at h
  · simp [names] at h
  split at h
  · exact hcore (by rwa [names_optionalOf, names_join] at h)
  · exact hcore (by rwa [names_join] at h)

/-! ## Any value, and null -/

theorem isAny_iff : t.isAny = true ↔ t = .any := by
  cases t <;> simp [isAny]

theorem isNull_iff : t.isNull = true ↔ t = .null := by
  cases t <;> simp [isNull]

theorem mem_leavesAll : u ∈ leavesAll ts ↔ ∃ t ∈ ts, u ∈ t.leaves := by
  induction ts with
  | nil => simp [leavesAll]
  | cons t ts ih => simp [leavesAll, ih]

theorem admitsNullAny_iff : admitsNullAny ts = true ↔ ∃ t ∈ ts, t.admitsNull = true := by
  induction ts with
  | nil => simp [admitsNullAny]
  | cons t ts ih => simp [admitsNullAny, ih]

/-- A type that neither is a union or an optional nor admits null besides other values. -/
def IsLeaf (t : TypeExpr) : Prop := t.leaves = [t] ∧ (t.admitsNull = true → t = .null)

/-- Whether the type is a union or an optional. -/
def isWrapper : TypeExpr → Bool
  | .union _ | .optional _ => true
  | _ => false

theorem isLeaf_of_not_wrapper (h : t.isWrapper = false) : t.IsLeaf := by
  cases t with
  | union => cases h
  | optional => cases h
  | null => exact ⟨rfl, fun _ => rfl⟩
  | _ => exact ⟨rfl, nofun⟩

mutual

/-- What is left when a type is opened cannot be opened itself. -/
theorem isWrapper_of_mem_leaves (t : TypeExpr) (h : u ∈ t.leaves) : u.isWrapper = false := by
  cases t with
  | union ts => exact isWrapper_of_mem_leavesAll ts h
  | optional t => exact isWrapper_of_mem_leaves t h
  | _ => rw [List.mem_singleton.1 h]; rfl

theorem isWrapper_of_mem_leavesAll (ts : List TypeExpr) (h : u ∈ leavesAll ts) :
    u.isWrapper = false := by
  cases ts with
  | nil => cases h
  | cons t ts =>
      rcases List.mem_append.1 h with h | h
      · exact isWrapper_of_mem_leaves t h
      · exact isWrapper_of_mem_leavesAll ts h

end

theorem isLeaf_of_mem_leavesAll (ts : List TypeExpr) (h : u ∈ leavesAll ts) : u.IsLeaf :=
  isLeaf_of_not_wrapper (isWrapper_of_mem_leavesAll ts h)

mutual

/-- A type that leaves null admits it. -/
theorem admitsNull_of_null_mem_leaves (t : TypeExpr) (h : .null ∈ t.leaves) :
    t.admitsNull = true := by
  cases t with
  | union ts => exact admitsNullAny_of_null_mem_leavesAll ts h
  | optional t => rfl
  | null => rfl
  | _ => cases List.mem_singleton.1 h

theorem admitsNullAny_of_null_mem_leavesAll (ts : List TypeExpr) (h : .null ∈ leavesAll ts) :
    admitsNullAny ts = true := by
  cases ts with
  | nil => cases h
  | cons t ts =>
      rw [admitsNullAny, Bool.or_eq_true]
      exact (List.mem_append.1 h).imp (admitsNull_of_null_mem_leaves t)
        (admitsNullAny_of_null_mem_leavesAll ts)

end

theorem optionalOf_eq (h : t.isOptional = false) : optionalOf t = .optional t := by
  rw [optionalOf, h]
  rfl

theorem isOptional_optionalOf (t : TypeExpr) : (optionalOf t).isOptional = true := by
  unfold optionalOf
  split
  · next h => exact h
  · rfl

theorem core_eq_nil (h : core ts = []) : ∀ u ∈ leavesAll ts, u = .null := by
  have hmap : (distinct ((leavesAll ts).filter fun t => !t.isNull)) = [] := by
    refine List.eq_nil_iff_forall_not_mem.2 fun u hu => ?_
    have hmem : u ∈ core ts := mem_sortByText.2 hu
    rw [h] at hmem
    cases hmem
  intro u hu
  have hnull := List.filter_eq_nil_iff.1 (distinct_eq_nil hmap) u hu
  exact isNull_iff.1 (by simpa using hnull)

/-- A type as unions are: opening it leaves something, any value only by itself, and what admits
    null shows it at the outside. -/
structure Flat (t : TypeExpr) : Prop where
  leaves : t.leaves ≠ []
  any : .any ∈ t.leaves → t = .any
  null : t.admitsNull = true → t.isOptional = true

theorem IsLeaf.flat (h : t.IsLeaf) : t.Flat where
  leaves := by simp [h.1]
  any hany := by
    rw [h.1, List.mem_singleton] at hany
    exact hany.symm
  null hnull := by
    rw [h.2 hnull]
    rfl

theorem flat_any : Flat .any := IsLeaf.flat ⟨rfl, by simp [admitsNull]⟩

theorem leaves_join (h : ∀ u ∈ ts, u.IsLeaf) : (join ts).leaves = ts := by
  have hall : leavesAll ts = ts := by
    induction ts with
    | nil => rfl
    | cons t ts ih =>
        rw [leavesAll, (h t (by simp)).1, ih fun u hu => h u (List.mem_cons_of_mem t hu)]
        rfl
  unfold join
  split
  · exact (h _ (by simp)).1
  · rw [leaves, hall]

/-- Side by side, what does not admit null does not either. -/
theorem admitsNull_join (h : ∀ u ∈ ts, u.admitsNull = false) : (join ts).admitsNull = false := by
  unfold join
  split
  · exact h _ (by simp)
  · rw [admitsNull, ← Bool.not_eq_true, admitsNullAny_iff]
    rintro ⟨u, hu, hnull⟩
    rw [h u hu] at hnull
    cases hnull

/-- What is left of the members, null aside, makes up a type that is neither any value nor
    optional. -/
theorem join_core (hany : .any ∉ leavesAll ts) :
    (join (core ts)).leaves = core ts ∧ (join (core ts)).admitsNull = false ∧
      (join (core ts)).isOptional = false := by
  have hleaf : ∀ u ∈ core ts, u.IsLeaf := fun u hu => isLeaf_of_mem_leavesAll ts (mem_core hu).1
  have hnull : (join (core ts)).admitsNull = false := by
    refine admitsNull_join fun u hu => Bool.eq_false_iff.2 fun h => ?_
    exact (mem_core hu).2 ((hleaf u hu).2 h)
  refine ⟨leaves_join hleaf, hnull, ?_⟩
  generalize hjoin : join (core ts) = t at hnull
  cases t with
  | any =>
      have hmem : .any ∈ core ts := by
        rw [← leaves_join hleaf, hjoin]
        exact List.mem_singleton_self _
      exact absurd (mem_core hmem).1 hany
  | optional t => cases hnull
  | null => cases hnull
  | _ => rfl

/-- Every union is as unions are. -/
theorem flat_unionOf (ts : List TypeExpr) : (unionOf ts).Flat := by
  rw [unionOf_eq]
  split
  · exact flat_any
  next hany =>
  split
  · exact IsLeaf.flat ⟨rfl, fun _ => rfl⟩
  next hcore =>
  have hany : .any ∉ leavesAll ts := by simpa [isAny_iff] using hany
  obtain ⟨hleaves, hnull, hoptional⟩ := join_core hany
  have hnone : .any ∉ (join (core ts)).leaves := by
    rw [hleaves]
    exact fun h => hany (mem_core h).1
  split
  · rw [optionalOf_eq hoptional]
    refine ⟨?_, fun h => absurd h hnone, fun _ => rfl⟩
    rw [leaves, hleaves]
    simpa using hcore
  · refine ⟨?_, fun h => absurd h hnone, fun h => by rw [hnull] at h; cases h⟩
    rw [hleaves]
    simpa using hcore

theorem unionOf_eq_any_iff : unionOf ts = .any ↔ .any ∈ leavesAll ts := by
  have hwith : .any ∈ leavesAll ts ↔ (leavesAll ts).any isAny = true := by simp [isAny_iff]
  rw [unionOf_eq, hwith]
  split
  · next hany => exact iff_of_true rfl hany
  next hany =>
  refine iff_of_false ?_ hany
  obtain ⟨-, -, hoptional⟩ := join_core (mt hwith.1 hany)
  split
  · nofun
  split
  · rw [optionalOf_eq hoptional]
    nofun
  · intro h
    rw [h] at hoptional
    cases hoptional

/-- A union is any value just where one of its members is. -/
theorem unionOf_eq_any (h : ∀ t ∈ ts, t.Flat) : unionOf ts = .any ↔ .any ∈ ts := by
  rw [unionOf_eq_any_iff, mem_leavesAll]
  constructor
  · rintro ⟨t, ht, hany⟩
    exact (h t ht).any hany ▸ ht
  · exact fun hany => ⟨.any, hany, List.mem_singleton_self _⟩

/-- A union admits null just where one of its members does. -/
theorem isOptional_unionOf (h : ∀ t ∈ ts, t.Flat) (hne : ts ≠ []) :
    (unionOf ts).isOptional = true ↔ ∃ t ∈ ts, t.isOptional = true := by
  by_cases hany : .any ∈ ts
  · rw [(unionOf_eq_any h).2 hany]
    exact iff_of_true rfl ⟨.any, hany, rfl⟩
  have hleaf : .any ∉ leavesAll ts := fun hmem =>
    hany ((unionOf_eq_any h).1 (unionOf_eq_any_iff.2 hmem))
  -- a member other than any value shows null at the outside just where it admits it
  have hmember : (∃ t ∈ ts, t.isOptional = true) ↔ admitsNullAny ts = true := by
    rw [admitsNullAny_iff]
    refine exists_congr fun t => and_congr_right fun ht => ⟨fun hoptional => ?_, (h t ht).null⟩
    cases t with
    | any => exact absurd ht hany
    | optional t => rfl
    | null => rfl
    | _ => cases hoptional
  rw [hmember, unionOf_eq, if_neg (by simpa [isAny_iff] using hleaf)]
  split
  · next hcore =>
      refine iff_of_true rfl ?_
      obtain ⟨t, ht⟩ := List.exists_mem_of_ne_nil ts hne
      obtain ⟨u, hu⟩ := List.exists_mem_of_ne_nil t.leaves (h t ht).leaves
      have hmem : u ∈ leavesAll ts := mem_leavesAll.2 ⟨t, ht, hu⟩
      rw [core_eq_nil (by simpa using hcore) u hmem] at hmem
      exact admitsNullAny_of_null_mem_leavesAll ts hmem
  split
  · next hnull => exact iff_of_true (isOptional_optionalOf _) hnull
  · next hnull =>
      obtain ⟨-, -, hoptional⟩ := join_core hleaf
      rw [hoptional]
      exact iff_of_false nofun hnull

end ApiModel.TypeExpr
