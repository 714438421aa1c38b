/-
  ApiModel.Proofs.Schema.Keywords

  What the steps of the algebra do to the demands that a schema makes of a value as a whole. Trimming
  the listed values changes nothing, a schema that is plainly unsatisfiable admits nothing, one that
  is unconstrained admits everything, and the keywords of a conjunction ask for what both sides ask
  for. Values and listed values have distinct keys here.
-/
import ApiModel.Proofs.Schema.Conjunction
import ApiModel.Proofs.Schema.Interval
import ApiModel.Proofs.Schema.Meaning

namespace ApiModel

/-! ## Kinds -/

namespace KindSet

/-- Equal values are of the same kinds. -/
theorem accepts_of_same {v w : Json} (h : v.same w = true) (ks : KindSet) :
    ks.accepts v = ks.accepts w := by
  cases v <;> cases w <;> simp only [Json.same, Bool.false_eq_true] at h <;> try rfl
  next m n =>
  cases m <;> cases n <;> simp only [Number.same, Bool.false_eq_true] at h
  · rfl
  · next x y =>
      have hunits : x.units = y.units := by
        simp only [Binary64.same, Binary64.value, beq_iff_eq] at h
        split at h <;> split at h <;> omega
      simp [accepts, Number.isIntegral, Binary64.isIntegral, hunits]

/-- Where the numbers come with the integers, the values of common kinds are those of both. -/
theorem accepts_inter {ks js : KindSet} (hks : ks.number = true → ks.integer = true)
    (hjs : js.number = true → js.integer = true) (v : Json) :
    (ks.inter js).accepts v = true ↔ ks.accepts v = true ∧ js.accepts v = true := by
  cases v <;> simp only [accepts, inter, ofPred, contains, Bool.and_eq_true, Bool.or_eq_true]
  next n =>
  constructor
  · rintro (⟨h, h'⟩ | ⟨hn, h, h'⟩)
    · exact ⟨.inl h, .inl h'⟩
    · exact ⟨.inr ⟨hn, h⟩, .inr ⟨hn, h'⟩⟩
  · rintro ⟨h | ⟨hn, h⟩, h' | ⟨hn', h'⟩⟩
    · exact .inl ⟨h, h'⟩
    · exact .inr ⟨hn', hks h, h'⟩
    · exact .inr ⟨hn, h, hjs h'⟩
    · exact .inr ⟨hn, h, h'⟩

theorem accepts_full (v : Json) : full.accepts v = true := by
  cases v <;> simp [accepts, full, ofPred]

theorem not_accepts_empty (v : Json) : ¬empty.accepts v = true := by
  cases v <;> simp [accepts, empty, ofPred]

/-- Values of a set of number kinds are numbers. -/
theorem eq_num_of_isNumeric {ks : KindSet} (h : ks.isNumeric = true) {v : Json}
    (hv : ks.accepts v = true) : ∃ n, v = .num n := by
  obtain ⟨o, a, s, n, i, b, z⟩ := ks
  cases v with
  | num n => exact ⟨n, rfl⟩
  | _ => simp_all [isNumeric, isSubset, Kind.all, contains, ofList, insert, ofPred, accepts, empty]

end KindSet

namespace Arena

/-! ## Combined keywords -/

section Combined

variable {α : Type} {x y z : Option α} {p : α → Prop}

/-- The larger of two lower bounds asks for what both ask for. -/
theorem forall_mem_larger {lt : α → α → Bool} (hlt : ∀ u v, lt u v = true → p v → p u)
    (hge : ∀ u v, lt u v = false → p u → p v) :
    (∀ b ∈ larger lt x y, p b) ↔ (∀ b ∈ x, p b) ∧ ∀ b ∈ y, p b := by
  cases x with
  | none => simp [larger]
  | some u =>
      cases y with
      | none => simp [larger]
      | some v =>
          simp only [larger, Option.mem_def, Option.some.injEq, forall_eq']
          cases h : lt u v with
          | true => exact ⟨fun hp => ⟨hlt u v h hp, hp⟩, fun hp => hp.2⟩
          | false => exact ⟨fun hp => ⟨hp, hge u v h hp⟩, fun hp => hp.1⟩

/-- The smaller of two upper bounds asks for what both ask for. -/
theorem forall_mem_smaller {lt : α → α → Bool} (hlt : ∀ u v, lt v u = true → p v → p u)
    (hge : ∀ u v, lt v u = false → p u → p v) :
    (∀ b ∈ smaller lt x y, p b) ↔ (∀ b ∈ x, p b) ∧ ∀ b ∈ y, p b := by
  cases x with
  | none => simp [smaller]
  | some u =>
      cases y with
      | none => simp [smaller]
      | some v =>
          simp only [smaller, Option.mem_def, Option.some.injEq, forall_eq']
          cases h : lt v u with
          | true => exact ⟨fun hp => ⟨hlt u v h hp, hp⟩, fun hp => hp.2⟩
          | false => exact ⟨fun hp => ⟨hp, hge u v h hp⟩, fun hp => hp.1⟩

/-- A keyword on which both sides agree asks for what both ask for. -/
theorem Agreed.forall_mem [BEq α] (h : Agreed x y z)
    (hp : ∀ u v : α, (u == v) = true → p u → p v) :
    (∀ b ∈ z, p b) ↔ (∀ b ∈ x, p b) ∧ ∀ b ∈ y, p b := by
  obtain ⟨rfl, heq⟩ := h
  cases x with
  | none => simp
  | some u =>
      cases y with
      | none => simp
      | some v =>
          simp only [Option.some_or, Option.mem_def, Option.some.injEq, forall_eq']
          exact ⟨fun h => ⟨h, hp u v (heq u v rfl rfl) h⟩, fun h => h.1⟩

/-- Equal keywords ask for the same. -/
theorem forall_mem_of_beq [BEq α] (h : (x == y) = true)
    (hp : ∀ u v : α, (u == v) = true → (p u ↔ p v)) : (∀ b ∈ x, p b) ↔ ∀ b ∈ y, p b := by
  cases x <;> cases y
  · exact Iff.rfl
  · cases h
  · cases h
  · next u v =>
      simp only [Option.mem_def, Option.some.injEq, forall_eq']
      exact hp u v h

end Combined

theorem value_le_of_lt {x y : Binary64} (h : x.lt y = true) : x.value ≤ y.value :=
  Int.le_of_lt (of_decide_eq_true h)

theorem value_le_of_not_lt {x y : Binary64} (h : x.lt y = false) : y.value ≤ x.value :=
  Int.not_lt.1 (of_decide_eq_false h)

theorem forall_mem_larger_value {x y : Option Binary64} {p : Int → Prop}
    (hp : ∀ i j, i ≤ j → p j → p i) : (∀ b ∈ larger Binary64.lt x y, p b.value) ↔
      (∀ b ∈ x, p b.value) ∧ ∀ b ∈ y, p b.value :=
  forall_mem_larger (p := fun b : Binary64 => p b.value) (fun _ _ h => hp _ _ (value_le_of_lt h))
    fun _ _ h => hp _ _ (value_le_of_not_lt h)

theorem forall_mem_smaller_value {x y : Option Binary64} {p : Int → Prop}
    (hp : ∀ i j, i ≤ j → p i → p j) : (∀ b ∈ smaller Binary64.lt x y, p b.value) ↔
      (∀ b ∈ x, p b.value) ∧ ∀ b ∈ y, p b.value :=
  forall_mem_smaller (p := fun b : Binary64 => p b.value) (fun _ _ h => hp _ _ (value_le_of_lt h))
    fun _ _ h => hp _ _ (value_le_of_not_lt h)

theorem forall_mem_larger_count {x y : Option Nat} {p : Nat → Prop}
    (hp : ∀ i j, i ≤ j → p j → p i) :
    (∀ k ∈ larger countLt x y, p k) ↔ (∀ k ∈ x, p k) ∧ ∀ k ∈ y, p k :=
  forall_mem_larger (fun _ _ h => hp _ _ (Nat.le_of_lt (of_decide_eq_true h)))
    fun _ _ h => hp _ _ (Nat.le_of_not_lt (of_decide_eq_false h))

theorem forall_mem_smaller_count {x y : Option Nat} {p : Nat → Prop}
    (hp : ∀ i j, i ≤ j → p i → p j) :
    (∀ k ∈ smaller countLt x y, p k) ↔ (∀ k ∈ x, p k) ∧ ∀ k ∈ y, p k :=
  forall_mem_smaller (fun _ _ h => hp _ _ (Nat.le_of_lt (of_decide_eq_true h)))
    fun _ _ h => hp _ _ (Nat.le_of_not_lt (of_decide_eq_false h))

/-! ## Listed values -/

/-- The value is equal to one of a list. -/
def Listed (vs : List Json) (v : Json) : Prop := ∃ w ∈ vs, w.same v = true

section Listed

variable {v : Json} {x y : Option (List Json)}

/-- The listed values that both sides have in common. -/
theorem forall_mem_commonValues (hv : v.Distinct) (hx : ∀ us, x = some us → ∀ u ∈ us, u.Distinct)
    (hy : ∀ us, y = some us → ∀ u ∈ us, u.Distinct) :
    (∀ vs ∈ commonValues x y, Listed vs v) ↔
      (∀ vs ∈ x, Listed vs v) ∧ ∀ vs ∈ y, Listed vs v := by
  cases x with
  | none => simp [commonValues]
  | some us =>
      cases y with
      | none => simp [commonValues]
      | some ws =>
          simp only [commonValues, Option.mem_def, Option.some.injEq, forall_eq']
          constructor
          -- a common value is listed on the left and is the same as one on the right
          · rintro ⟨u, hu, huv⟩
            obtain ⟨hmem, hany⟩ := List.mem_filter.1 hu
            obtain ⟨w, hw, huw⟩ := List.any_eq_true.1 hany
            have hud := hx us rfl u hmem
            have hwd := hy ws rfl w hw
            exact ⟨⟨u, hmem, huv⟩, w, hw, hwd.same_trans (hud.same_symm hwd huw) huv⟩
          -- values on both sides that are the same as `v` are the same as each other
          · rintro ⟨⟨u, hu, huv⟩, w, hw, hwv⟩
            have hud := hx us rfl u hu
            have hwd := hy ws rfl w hw
            have huw := hud.same_trans huv (hwd.same_symm hv hwv)
            exact ⟨u, List.mem_filter.2 ⟨hu, List.any_eq_true.2 ⟨w, hw, huw⟩⟩, huv⟩

/-- Lists of equal values list the same. -/
theorem listed_of_beq {us ws : List Json} (h : (us == ws) = true) (hus : ∀ u ∈ us, u.Distinct)
    (hws : ∀ w ∈ ws, w.Distinct) : Listed us v ↔ Listed ws v := by
  induction us generalizing ws with
  | nil => cases ws <;> simp_all [Listed]
  | cons u us ih =>
      cases ws with
      | nil => simp at h
      | cons w ws =>
          rw [List.cons_beq_cons, Bool.and_eq_true] at h
          have hud := hus u (by simp)
          have hwd := hws w (by simp)
          have huw : u.same w = true := h.1
          -- sameness carries over in both directions, since keys are distinct
          have hhead : u.same v = true ↔ w.same v = true :=
            ⟨hwd.same_trans (hud.same_symm hwd huw), hud.same_trans huw⟩
          have hrest := ih h.2 (fun x hx => hus x (by simp [hx])) fun x hx => hws x (by simp [hx])
          simp only [Listed, List.mem_cons, exists_eq_or_imp] at hrest ⊢
          rw [hhead, hrest]

/-- The value is of the kinds of a schema, and one of those that it lists. -/
structure Selects (s : Schema) (v : Json) : Prop where
  kinds : ∀ ks ∈ s.kinds, ks.accepts v = true
  values : ∀ vs ∈ s.values, Listed vs v

/-- Listed values of other kinds are never selected. -/
theorem selects_trimValues {s : Schema} : Selects (trimValues s) v ↔ Selects s v := by
  unfold trimValues
  split
  · next us ks hus hks =>
      constructor
      · intro h
        refine ⟨h.kinds, fun vs hvs => ?_⟩
        cases hus.symm.trans hvs
        obtain ⟨w, hw, hwv⟩ := h.values _ rfl
        exact ⟨w, (List.mem_filter.1 hw).1, hwv⟩
      · intro h
        refine ⟨h.kinds, ?_⟩
        rintro _ ⟨⟩
        obtain ⟨w, hw, hwv⟩ := h.values us hus
        refine ⟨w, List.mem_filter.2 ⟨hw, ?_⟩, hwv⟩
        rw [KindSet.accepts_of_same hwv]
        exact h.kinds ks hks
  · exact Iff.rfl

end Listed

/-! ## Demands on whole values -/

section Admits

variable {rd : Reading} {n : Nat} {s s₁ s₂ : Schema} {v : Json}

/-- The kinds of a conjunction are those of both sides; a side without kinds has all of them. -/
theorem forall_mem_joinKinds (h₁ : s₁.Proper Json.Distinct n) (h₂ : s₂.Proper Json.Distinct n)
    (v : Json) :
    ((s₁.kinds.getD .full).inter (s₂.kinds.getD .full)).accepts v = true ↔
      (∀ ks ∈ s₁.kinds, ks.accepts v = true) ∧ ∀ ks ∈ s₂.kinds, ks.accepts v = true := by
  have hgetD : ∀ o : Option KindSet, (o.getD .full).accepts v = true ↔
      ∀ ks ∈ o, ks.accepts v = true := by
    intro o
    cases o <;> simp [KindSet.accepts_full]
  rw [KindSet.accepts_inter h₁.kinds_getD h₂.kinds_getD, hgetD, hgetD]

/-- A conjunction admits what both sides admit. -/
theorem KeywordsJoined.admits_iff {k : Schema} (h : KeywordsJoined s₁ s₂ k)
    (h₁ : s₁.Proper Json.Distinct n) (h₂ : s₂.Proper Json.Distinct n) (hv : v.Distinct) :
    k.Admits rd v ↔ s₁.Admits rd v ∧ s₂.Admits rd v := by
  obtain ⟨place, m, p, f, rfl, hm, hp, hf⟩ := h
  have kinds : (∀ ks ∈ (joinKeywords s₁ s₂ place m p f).kinds, ks.accepts v = true) ↔
      (∀ ks ∈ s₁.kinds, ks.accepts v = true) ∧ ∀ ks ∈ s₂.kinds, ks.accepts v = true := by
    rw [← forall_mem_joinKinds h₁ h₂]
    simp only [joinKeywords, Option.mem_def, Option.some.injEq, forall_eq']
  have values := forall_mem_commonValues hv h₁.values h₂.values
  -- of two lower bounds the larger one is kept, of two upper bounds the smaller one
  have gt := forall_mem_larger_value (x := s₁.gt) (y := s₂.gt)
    (p := fun i => ∀ n, v = .num n → i < n.exact)
    fun i j hij h n hn => Int.lt_of_le_of_lt hij (h n hn)
  have ge := forall_mem_larger_value (x := s₁.ge) (y := s₂.ge)
    (p := fun i => ∀ n, v = .num n → i ≤ n.exact)
    fun i j hij h n hn => Int.le_trans hij (h n hn)
  have lt := forall_mem_smaller_value (x := s₁.lt) (y := s₂.lt)
    (p := fun i => ∀ n, v = .num n → n.exact < i)
    fun i j hij h n hn => Int.lt_of_lt_of_le (h n hn) hij
  have le := forall_mem_smaller_value (x := s₁.le) (y := s₂.le)
    (p := fun i => ∀ n, v = .num n → n.exact ≤ i)
    fun i j hij h n hn => Int.le_trans (h n hn) hij
  -- where the sides agree, or only one of them speaks, there is one predicate
  have multipleOf := hm.forall_mem (p := fun b => rd.multipleOf b.value v) fun x y hxy h => by
    have hvalue : x.value = y.value := eq_of_beq hxy
    rwa [← hvalue]
  have pattern := hp.forall_mem (p := fun t => rd.pattern t v) fun x y hxy h =>
    eq_of_beq hxy ▸ h
  have format := hf.forall_mem (p := fun t => rd.format t v) fun x y hxy h => eq_of_beq hxy ▸ h
  -- counts go like bounds
  have minLength := forall_mem_larger_count (x := s₁.minLength) (y := s₂.minLength)
    (p := fun k => ∀ t, v = .str t → k ≤ t.length)
    fun i j hij h t ht => Nat.le_trans hij (h t ht)
  have maxLength := forall_mem_smaller_count (x := s₁.maxLength) (y := s₂.maxLength)
    (p := fun k => ∀ t, v = .str t → t.length ≤ k)
    fun i j hij h t ht => Nat.le_trans (h t ht) hij
  have minItems := forall_mem_larger_count (x := s₁.minItems) (y := s₂.minItems)
    (p := fun k => ∀ xs, v = .arr xs → k ≤ xs.length)
    fun i j hij h xs hxs => Nat.le_trans hij (h xs hxs)
  have maxItems := forall_mem_smaller_count (x := s₁.maxItems) (y := s₂.maxItems)
    (p := fun k => ∀ xs, v = .arr xs → xs.length ≤ k)
    fun i j hij h xs hxs => Nat.le_trans (h xs hxs) hij
  have minProperties := forall_mem_larger_count (x := s₁.minProperties)
    (y := s₂.minProperties) (p := fun k => ∀ fs, v = .obj fs → k ≤ fs.length)
    fun i j hij h fs hfs => Nat.le_trans hij (h fs hfs)
  have maxProperties := forall_mem_smaller_count (x := s₁.maxProperties)
    (y := s₂.maxProperties) (p := fun k => ∀ fs, v = .obj fs → fs.length ≤ k)
    fun i j hij h fs hfs => Nat.le_trans (h fs hfs) hij
  constructor
  · intro h
    have unique : (s₁.uniqueItems || s₂.uniqueItems) = true → rd.uniqueItems v := h.uniqueItems
    have required : ∀ fs, v = .obj fs → ∀ k ∈ (s₁.required.union s₂.required).elements,
        (fs.lookup k).isSome = true := h.required
    refine ⟨⟨(kinds.1 h.kinds).1, (values.1 h.values).1, (gt.1 h.gt).1, (ge.1 h.ge).1,
      (lt.1 h.lt).1, (le.1 h.le).1, (multipleOf.1 h.multipleOf).1, (minLength.1 h.minLength).1,
      (maxLength.1 h.maxLength).1, (pattern.1 h.pattern).1, (format.1 h.format).1,
      (minItems.1 h.minItems).1, (maxItems.1 h.maxItems).1, fun hu => unique (by simp [hu]),
      fun fs hfs k hk => required fs hfs k (SortedSet.mem_union.2 (.inl hk)),
      (minProperties.1 h.minProperties).1, (maxProperties.1 h.maxProperties).1⟩,
      ⟨(kinds.1 h.kinds).2, (values.1 h.values).2, (gt.1 h.gt).2, (ge.1 h.ge).2,
      (lt.1 h.lt).2, (le.1 h.le).2, (multipleOf.1 h.multipleOf).2, (minLength.1 h.minLength).2,
      (maxLength.1 h.maxLength).2, (pattern.1 h.pattern).2, (format.1 h.format).2,
      (minItems.1 h.minItems).2, (maxItems.1 h.maxItems).2, fun hu => unique (by simp [hu]),
      fun fs hfs k hk => required fs hfs k (SortedSet.mem_union.2 (.inr hk)),
      (minProperties.1 h.minProperties).2, (maxProperties.1 h.maxProperties).2⟩⟩
  · rintro ⟨h, h'⟩
    refine ⟨kinds.2 ⟨h.kinds, h'.kinds⟩, values.2 ⟨h.values, h'.values⟩, gt.2 ⟨h.gt, h'.gt⟩,
      ge.2 ⟨h.ge, h'.ge⟩, lt.2 ⟨h.lt, h'.lt⟩, le.2 ⟨h.le, h'.le⟩,
      multipleOf.2 ⟨h.multipleOf, h'.multipleOf⟩, minLength.2 ⟨h.minLength, h'.minLength⟩,
      maxLength.2 ⟨h.maxLength, h'.maxLength⟩, pattern.2 ⟨h.pattern, h'.pattern⟩,
      format.2 ⟨h.format, h'.format⟩, minItems.2 ⟨h.minItems, h'.minItems⟩,
      maxItems.2 ⟨h.maxItems, h'.maxItems⟩, fun hu => ?_, fun fs hfs k hk => ?_,
      minProperties.2 ⟨h.minProperties, h'.minProperties⟩,
      maxProperties.2 ⟨h.maxProperties, h'.maxProperties⟩⟩
    · rcases Bool.or_eq_true_iff.1 hu with hu | hu
      · exact h.uniqueItems hu
      · exact h'.uniqueItems hu
    · rcases SortedSet.mem_union.1 hk with hk | hk
      · exact h.required fs hfs k hk
      · exact h'.required fs hfs k hk

/-- Trimming the listed values to the kinds changes nothing. -/
theorem admits_trimValues : (trimValues s).Admits rd v ↔ s.Admits rd v := by
  have hselects := selects_trimValues (s := s) (v := v)
  obtain ⟨vs, hvs, -⟩ := trimValues_eq s
  rw [hvs] at hselects ⊢
  constructor
  · intro h
    have hs := hselects.1 ⟨h.kinds, h.values⟩
    exact { h with kinds := hs.kinds, values := hs.values }
  · intro h
    have hs := hselects.2 ⟨h.kinds, h.values⟩
    exact { h with kinds := hs.kinds, values := hs.values }

/-- The bounds of a schema of numbers that leave no number admit none. -/
theorem not_admits_of_intervalEmpty (h : s.intervalEmpty = true) : ¬s.Admits rd v := by
  intro hv
  unfold Schema.intervalEmpty at h
  rw [Bool.and_eq_true, Option.any_eq_true] at h
  obtain ⟨⟨ks, hks, hnumeric⟩, h⟩ := h
  obtain ⟨m, rfl⟩ := KindSet.eq_num_of_isNumeric hnumeric (hv.kinds ks hks)
  have hvalue : ∀ x y : Binary64, x.lt y = true ↔ x.value < y.value := fun _ _ =>
    Binary64.lt_iff_value_lt
  have hlower := (Schema.forall_mem_lowerBound hvalue s.gt s.ge m.exact).2
    ⟨fun b hb => hv.gt b hb m rfl, fun b hb => hv.ge b hb m rfl⟩
  have hupper := (Schema.forall_mem_upperBound hvalue s.lt s.le m.exact).2
    ⟨fun b hb => hv.lt b hb m rfl, fun b hb => hv.le b hb m rfl⟩
  -- the value is a number between the bounds, so they leave room for it
  split at h
  · next lo hi hlo hhi =>
      have hroom := (hlower lo hlo).room (hupper hi hhi)
      simp only [Bool.or_eq_true, Bool.and_eq_true] at h
      rcases h with h | ⟨heq, h⟩
      · have := of_decide_eq_true h
        omega
      · have heq : lo.value.value = hi.value.value := eq_of_beq heq
        obtain ⟨-, hslo, hshi⟩ := hroom.resolve_left heq.not_lt
        rcases h with h | h
        · exact Bool.noConfusion (h.symm.trans hslo)
        · exact Bool.noConfusion (h.symm.trans hshi)
  · cases h

/-- A schema that plainly matches nothing admits no value. -/
theorem not_admits_of_isBottom (h : s.isBottom = true) : ¬s.Admits rd v := by
  intro hv
  unfold Schema.isBottom at h
  simp only [Bool.or_eq_true, Option.any_eq_true] at h
  rcases h with (⟨ks, hks, hempty⟩ | ⟨vs, hvs, hempty⟩) | h
  · have hempty : ks = .empty := eq_of_beq hempty
    exact KindSet.not_accepts_empty v (hempty ▸ hv.kinds ks hks)
  · obtain ⟨w, hw, -⟩ := hv.values vs hvs
    rw [List.isEmpty_iff.1 hempty] at hw
    cases hw
  · exact not_admits_of_intervalEmpty h hv

/-- The kinds of a normal form, given or not, admit what the schema admits. -/
theorem admits_baseOf : (baseOf s).Admits rd v ↔ s.Admits rd v := by
  refine Iff.trans (b := ({ s with kinds := some (s.kinds.getD .full) } : Schema).Admits rd v)
    ⟨fun h => { h with }, fun h => { h with }⟩ ?_
  cases hks : s.kinds with
  | none =>
      refine ⟨fun h => { h with kinds := ?_ }, fun h => { h with kinds := ?_ }⟩
      · rw [hks]
        simp
      · rintro _ ⟨⟩
        exact KindSet.accepts_full v
  | some ks =>
      refine ⟨fun h => { h with kinds := ?_ }, fun h => { h with kinds := ?_ }⟩
      · intro js hjs
        rw [hks] at hjs
        cases hjs
        exact h.kinds _ rfl
      · rintro _ ⟨⟩
        exact h.kinds ks hks

/-- A schema that says nothing admits everything. -/
theorem admits_blank (p : Pointer) : (Schema.blank p).Admits rd v := by
  refine ⟨?_, ?_, ?_, ?_, ?_, ?_, ?_, ?_, ?_, ?_, ?_, ?_, ?_, ?_, ?_, ?_, ?_⟩ <;>
    simp [Schema.blank, SortedSet.empty]

theorem admits_kindsAlone {p : Pointer} {ks : KindSet} :
    (kindsAlone p ks).Admits rd v ↔ ks.accepts v = true := by
  constructor
  · exact fun h => h.kinds ks rfl
  · intro h
    refine { admits_blank p with kinds := ?_ }
    rintro _ ⟨⟩
    exact h

/-! ## Equal demands -/

/-- Two schemas refer to the same schemas for the parts of a value. -/
structure SameParts (s₁ s₂ : Schema) : Prop where
  items : s₁.items = s₂.items
  properties : ∀ k, s₁.properties.get? k = s₂.properties.get? k
  extras : s₁.extras = s₂.extras

theorem SameParts.symm (h : SameParts s₁ s₂) : SameParts s₂ s₁ :=
  ⟨h.items.symm, fun k => (h.properties k).symm, h.extras.symm⟩

/-- Two schemas refer to the same schemas in the same places. -/
structure SameShape (s₁ s₂ : Schema) : Prop extends SameParts s₁ s₂ where
  allOf : s₁.allOf = s₂.allOf
  anyOf : s₁.anyOf = s₂.anyOf
  oneOf : s₁.oneOf = s₂.oneOf

theorem sameShape_of_sameDemands (h : s₁.sameDemands s₂ = true)
    (hkeys : s₁.properties.keys.Nodup) : SameShape s₁ s₂ := by
  unfold Schema.sameDemands at h
  simp only [Bool.and_eq_true, and_assoc] at h
  obtain ⟨-, -, -, -, -, -, -, -, -, -, -, items, -, -, -, properties, -, extras, -, -, allOf,
    anyOf, oneOf, -, -⟩ := h
  exact ⟨⟨eq_of_beq items, Dict.get?_eq_of_sameEntries hkeys properties, eq_of_beq extras⟩,
    eq_of_beq allOf, eq_of_beq anyOf, eq_of_beq oneOf⟩

theorem value_eq_of_beq {x y : Binary64} (h : (x == y) = true) : x.value = y.value :=
  eq_of_beq h

/-- Equal lists of values list the same. -/
theorem forall_listed_of_beq (h : (s₁.values == s₂.values) = true)
    (h₁ : s₁.Proper Json.Distinct n) (h₂ : s₂.Proper Json.Distinct n) :
    (∀ vs ∈ s₁.values, Listed vs v) ↔ ∀ vs ∈ s₂.values, Listed vs v := by
  cases hv₁ : s₁.values with
  | none =>
      cases hv₂ : s₂.values with
      | none => exact Iff.rfl
      | some ws =>
          rw [hv₁, hv₂] at h
          cases h
  | some us =>
      cases hv₂ : s₂.values with
      | none =>
          rw [hv₁, hv₂] at h
          cases h
      | some ws =>
          rw [hv₁, hv₂] at h
          simp only [Option.mem_def, Option.some.injEq, forall_eq']
          exact listed_of_beq h (h₁.values us hv₁) (h₂.values ws hv₂)

/-- Schemas with the same demands admit the same values. -/
theorem admits_of_sameDemands (h : s₁.sameDemands s₂ = true) (h₁ : s₁.Proper Json.Distinct n)
    (h₂ : s₂.Proper Json.Distinct n) : s₁.Admits rd v ↔ s₂.Admits rd v := by
  unfold Schema.sameDemands at h
  simp only [Bool.and_eq_true, and_assoc] at h
  obtain ⟨kinds, values, gt, ge, lt, le, multipleOf, minLength, maxLength, pattern, format, -,
    minItems, maxItems, uniqueItems, -, required, -, minProperties, maxProperties, -⟩ := h
  have values := forall_listed_of_beq (v := v) values h₁ h₂
  have gt := forall_mem_of_beq (p := fun b => ∀ n, v = .num n → b.value < n.exact) gt
    fun _ _ h => by rw [value_eq_of_beq h]
  have ge := forall_mem_of_beq (p := fun b => ∀ n, v = .num n → b.value ≤ n.exact) ge
    fun _ _ h => by rw [value_eq_of_beq h]
  have lt := forall_mem_of_beq (p := fun b => ∀ n, v = .num n → n.exact < b.value) lt
    fun _ _ h => by rw [value_eq_of_beq h]
  have le := forall_mem_of_beq (p := fun b => ∀ n, v = .num n → n.exact ≤ b.value) le
    fun _ _ h => by rw [value_eq_of_beq h]
  have multipleOf := forall_mem_of_beq (p := fun b => rd.multipleOf b.value v) multipleOf
    fun _ _ h => by rw [value_eq_of_beq h]
  -- the other demands are texts, counts and sets, which are equal when they compare equal
  have kinds := eq_of_beq kinds
  have minLength := eq_of_beq minLength
  have maxLength := eq_of_beq maxLength
  have pattern := eq_of_beq pattern
  have format := eq_of_beq format
  have minItems := eq_of_beq minItems
  have maxItems := eq_of_beq maxItems
  have uniqueItems := eq_of_beq uniqueItems
  have required := eq_of_beq required
  have minProperties := eq_of_beq minProperties
  have maxProperties := eq_of_beq maxProperties
  constructor
  · intro h
    exact ⟨kinds ▸ h.kinds, values.1 h.values, gt.1 h.gt, ge.1 h.ge, lt.1 h.lt, le.1 h.le,
      multipleOf.1 h.multipleOf, minLength ▸ h.minLength, maxLength ▸ h.maxLength,
      pattern ▸ h.pattern, format ▸ h.format, minItems ▸ h.minItems, maxItems ▸ h.maxItems,
      uniqueItems ▸ h.uniqueItems, required ▸ h.required, minProperties ▸ h.minProperties,
      maxProperties ▸ h.maxProperties⟩
  · intro h
    exact ⟨kinds ▸ h.kinds, values.2 h.values, gt.2 h.gt, ge.2 h.ge, lt.2 h.lt, le.2 h.le,
      multipleOf.2 h.multipleOf, minLength ▸ h.minLength, maxLength ▸ h.maxLength,
      pattern ▸ h.pattern, format ▸ h.format, minItems ▸ h.minItems, maxItems ▸ h.maxItems,
      uniqueItems ▸ h.uniqueItems, required ▸ h.required, minProperties ▸ h.minProperties,
      maxProperties ▸ h.maxProperties⟩

/-- An unconstrained schema refers to nothing. -/
theorem sameShape_of_isUnconstrained (h : s.isUnconstrained = true)
    (hs : s.properties.keys.Nodup) : SameShape s (.blank s.pointer) := by
  unfold Schema.isUnconstrained at h
  rw [Bool.and_eq_true] at h
  have hshape := sameShape_of_sameDemands h.2 hs
  exact ⟨⟨hshape.items, hshape.properties, hshape.extras⟩, hshape.allOf, hshape.anyOf,
    hshape.oneOf⟩

/-- An unconstrained schema admits every value and refers to nothing. -/
theorem admits_of_isUnconstrained (h : s.isUnconstrained = true) (hs : s.Proper Json.Distinct n) :
    s.Admits rd v ∧ SameShape s (.blank s.pointer) := by
  refine ⟨?_, sameShape_of_isUnconstrained h hs.keys⟩
  unfold Schema.isUnconstrained at h
  rw [Bool.and_eq_true] at h
  obtain ⟨hfull, hsame⟩ := h
  have hkinds : ∀ ks, s.kinds = some ks → ks = .full := fun ks hks => by
    rw [hks] at hfull
    exact eq_of_beq hfull
  -- the schema has the demands of a blank one with these kinds
  have hblank : ({ Schema.blank s.pointer with
      kinds := s.kinds, readOnly := s.readOnly, writeOnly := s.writeOnly } :
        Schema).Proper Json.Distinct n :=
    { Schema.proper_blank _ n s.pointer with
      kinds := hs.kinds }
  refine (admits_of_sameDemands hsame hs hblank).2 { admits_blank s.pointer with kinds := ?_ }
  intro ks hks
  rw [hkinds ks hks]
  exact KindSet.accepts_full v

end Admits

end Arena

end ApiModel
