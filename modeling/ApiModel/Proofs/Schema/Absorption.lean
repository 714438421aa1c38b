/-
  ApiModel.Proofs.Schema.Absorption

  Demands that are repeated. A conjunction makes the demands of both sides already, so conjoining it
  with a side once more changes none of its keywords, and where an operand was taken for the
  conjunction, neither does conjoining that operand with the other one. Nothing here concerns child
  schemas.
-/
import ApiModel.Proofs.Schema.Keywords
import ApiModel.Proofs.Schema.Solver

namespace ApiModel

theorem KindSet.inter_comm (ks js : KindSet) : ks.inter js = js.inter ks :=
  KindSet.ext fun k => by rw [contains_inter, contains_inter, Bool.and_comm]

theorem KindSet.inter_side {ks js ls : KindSet} (h : ls = ks ∨ ls = js) :
    (ks.inter js).inter ls = ks.inter js := by
  refine KindSet.ext fun k => ?_
  simp only [contains_inter]
  rcases h with h | h <;> rw [h] <;> cases ks.contains k <;> simp

instance : ReflBEq Binary64 := ⟨fun {x} => beq_self_eq_true x.value⟩

namespace Arena

/-! ## One keyword -/

section Keyword

variable {α : Type} {lt : α → α → Bool} {x y z : Option α}

/-- The smaller of two bounds is the larger one in the opposite order. -/
theorem smaller_eq_larger (lt : α → α → Bool) (x y : Option α) :
    smaller lt x y = larger (fun v w => lt w v) x y := by
  cases x <;> cases y <;> rfl

/-- The larger bound stays when one of the two is compared with it again. -/
theorem larger_side (hlt : ∀ v w, lt v w = true → lt w v = false) (hz : z = x ∨ z = y) :
    larger lt (larger lt x y) z = larger lt x y := by
  have hself : ∀ v, lt v v = false := fun v => by
    by_contra h
    rw [Bool.not_eq_false] at h
    simp [hlt v v h] at h
  cases x with
  | none => rcases hz with hz | hz <;> cases y <;> simp [hz, larger, hself]
  | some v =>
      cases y with
      | none => rcases hz with hz | hz <;> simp [hz, larger, hself]
      | some w =>
          by_cases h : lt v w = true
          · rcases hz with hz | hz <;> simp [hz, larger, h, hself, hlt v w h]
          · rcases hz with hz | hz <;> simp [hz, larger, h, hself]

/-- Where the second bound is the larger one already, it is so in either order. -/
theorem larger_swap [BEq α] [ReflBEq α] (hlt : ∀ v w, lt v w = true → lt w v = false)
    (h : (larger lt x y == y) = true) : (larger lt y x == y) = true := by
  cases x with
  | none => cases y <;> simp [larger]
  | some v =>
      cases y with
      | none => simp [larger] at h
      | some w =>
          by_cases hvw : lt v w = true
          · simp [larger, hlt v w hvw]
          · simp only [larger, hvw] at h ⊢
            split
            · exact h
            · exact BEq.refl _

theorem or_side (hz : z = x ∨ z = y) : (x.or y).or z = x.or y := by
  rcases hz with rfl | rfl
  · cases z <;> cases y <;> rfl
  · rw [Option.or_assoc, Option.or_self]

theorem or_swap [BEq α] [ReflBEq α] (h : (x.or y == y) = true) : (y.or x == y) = true := by
  cases y with
  | none => cases x <;> simp at h ⊢
  | some w => exact BEq.refl _

end Keyword

theorem asymm_lt (x y : Binary64) (h : x.lt y = true) : y.lt x = false := by
  simp only [Binary64.lt, decide_eq_true_eq, decide_eq_false_iff_not] at h ⊢
  omega

theorem asymm_countLt (m n : Nat) (h : countLt m n = true) : countLt n m = false := by
  simp only [countLt, decide_eq_true_eq, decide_eq_false_iff_not] at h ⊢
  omega

/-! ## Listed values -/

section Values

variable {x y : Option (List Json)}

/-- The listed values are known not to repeat keys. -/
def Plainly (x : Option (List Json)) : Prop := ∀ vs, x = some vs → ∀ v ∈ vs, v.Distinct

theorem beq_values (h : Plainly x) : (x == x) = true := by
  cases x with
  | none => rfl
  | some vs =>
      have hvs := h vs rfl
      show (vs == vs) = true
      clear h
      induction vs with
      | nil => rfl
      | cons v vs ih =>
          rw [List.cons_beq_cons, Bool.and_eq_true]
          exact ⟨(hvs v (by simp)).same_refl, ih fun w hw => hvs w (by simp [hw])⟩

/-- Every value of `x` is one of those of `y`, if `y` lists any. -/
def Among (x y : Option (List Json)) : Prop :=
  ∀ ws, y = some ws → ∃ vs, x = some vs ∧ ∀ v ∈ vs, ∃ w ∈ ws, v.same w = true

theorem commonValues_of_among (h : Among x y) : commonValues x y = x := by
  cases y with
  | none => cases x <;> rfl
  | some ws =>
      obtain ⟨vs, rfl, hvs⟩ := h ws rfl
      simp only [commonValues, Option.some.injEq, List.filter_eq_self, List.any_eq_true]
      exact hvs

theorem among_common_left (hx : Plainly x) : Among (commonValues x y) x := by
  rintro us rfl
  have hself : ∀ v ∈ us, ∃ w ∈ us, v.same w = true := fun v hv =>
    ⟨v, hv, (hx us rfl v hv).same_refl⟩
  cases y with
  | none => exact ⟨us, rfl, hself⟩
  | some ws => exact ⟨_, rfl, fun v hv => hself v (List.mem_filter.1 hv).1⟩

theorem among_common_right (hy : Plainly y) : Among (commonValues x y) y := by
  rintro ws rfl
  cases x with
  | none => exact ⟨ws, rfl, fun v hv => ⟨v, hv, (hy ws rfl v hv).same_refl⟩⟩
  | some us => exact ⟨_, rfl, fun v hv => List.any_eq_true.1 (List.mem_filter.1 hv).2⟩

theorem commonValues_swap (hx : Plainly x) (hy : Plainly y)
    (h : (commonValues x y == y) = true) : (commonValues y x == y) = true := by
  rw [commonValues_of_among, beq_values hy]
  rintro us rfl
  cases y with
  | none => cases h
  | some ws =>
      refine ⟨ws, rfl, fun w hw => ?_⟩
      -- the values in common list the same as those on the right
      have hus : ∀ u ∈ us.filter fun v => ws.any (v.same ·), u.Distinct := fun u hu =>
        hx us rfl u (List.mem_filter.1 hu).1
      have hwd := hy ws rfl w hw
      obtain ⟨u, hu, huw⟩ := (listed_of_beq (v := w) h hus (hy ws rfl)).2 ⟨w, hw, hwd.same_refl⟩
      exact ⟨u, (List.mem_filter.1 hu).1, (hus u hu).same_symm hwd huw⟩

end Values

/-! ## All keywords -/

variable {n : Nat} {s u own : Schema}

/-- What a schema demands of a whole value. -/
def whole (s : Schema) : Schema :=
  { s with items := none, properties := .empty, extras := none }

/-- What two schemas demand of a whole value together. -/
def together (s u : Schema) : Schema :=
  joinKeywords s u .root (s.multipleOf.or u.multipleOf) (s.pattern.or u.pattern)
    (s.format.or u.format)

/-- The schema `s` demands of a whole value what `u` demands of it. -/
def Repeats (s u : Schema) : Prop := (together s u).sameDemands (whole s) = true

/-- Equality of demands, the parts taken apart. -/
theorem sameDemands_iff : own.sameDemands s = true ↔
    (whole own).sameDemands (whole s) = true ∧ own.items = s.items ∧ own.extras = s.extras ∧
      own.properties.sameEntries s.properties = true := by
  have hempty : (Dict.empty : Dict String SchemaId).sameEntries .empty = true := rfl
  simp only [Schema.sameDemands, whole, Bool.and_eq_true, beq_iff_eq, beq_self_eq_true, hempty]
  grind

section Joined

variable {P : Json → Prop} {L : Law P} {t : Arena} {x : Schema}

theorem OwnJoined.whole (h : OwnJoined L t s u own) :
    (whole own).sameDemands x = (together s u).sameDemands x := by
  cases h with
  | mk hk _ _ _ =>
      obtain ⟨place, m, p, f, rfl, ⟨rfl, -⟩, ⟨rfl, -⟩, ⟨rfl, -⟩⟩ := hk
      rfl

/-- A left operand that is the conjunction makes the demands of the right one. -/
theorem OwnJoined.repeats_left (h : OwnJoined L t s u own) (hsame : own.sameDemands s = true) :
    Repeats s u :=
  h.whole.symm.trans (sameDemands_iff.1 hsame).1

/-- A right operand that is the conjunction makes the demands of the left one. -/
theorem OwnJoined.repeats_right (h : OwnJoined L t s u own) (hs : s.Proper Json.Distinct n)
    (hu : u.Proper Json.Distinct n) (hsame : own.sameDemands u = true) : Repeats u s := by
  have hwhole := h.whole.symm.trans (sameDemands_iff.1 hsame).1
  unfold Repeats
  simp only [Schema.sameDemands, together, joinKeywords, Arena.whole, Schema.blank,
    smaller_eq_larger, Bool.and_eq_true, and_assoc] at hwhole ⊢
  obtain ⟨kinds, values, gt, ge, lt, le, multipleOf, minLength, maxLength, pattern, format, items,
    minItems, maxItems, uniqueItems, properties, required, extras, minProperties, maxProperties,
    allOf, anyOf, oneOf, readOnly, writeOnly⟩ := hwhole
  -- what is required on the left is required on the right
  have hrequired : u.required.union s.required = u.required := by
    refine SortedSet.union_of_subset hu.required fun k hk => ?_
    rw [← eq_of_beq required]
    exact SortedSet.mem_union.2 (.inl hk)
  refine ⟨?_, commonValues_swap hs.values hu.values values, larger_swap asymm_lt gt,
    larger_swap asymm_lt ge, larger_swap (fun _ _ => asymm_lt _ _) lt,
    larger_swap (fun _ _ => asymm_lt _ _) le, or_swap multipleOf,
    larger_swap asymm_countLt minLength, larger_swap (fun _ _ => asymm_countLt _ _) maxLength,
    or_swap pattern, or_swap format, items, larger_swap asymm_countLt minItems,
    larger_swap (fun _ _ => asymm_countLt _ _) maxItems, ?_, properties, ?_, extras,
    larger_swap asymm_countLt minProperties,
    larger_swap (fun _ _ => asymm_countLt _ _) maxProperties, allOf, anyOf, oneOf, ?_, ?_⟩
  · rwa [KindSet.inter_comm]
  · rwa [Bool.or_comm]
  · exact beq_of_eq hrequired
  · rwa [Bool.or_comm]
  · rwa [Bool.or_comm]

theorem among_trimValues {x : Option (List Json)} (h : Among s.values x) :
    Among (trimValues s).values x := by
  intro ws hws
  obtain ⟨vs, hvs, hamong⟩ := h ws hws
  unfold trimValues
  split
  · next us ks hus _ =>
      rw [hvs] at hus
      cases hus
      exact ⟨_, rfl, fun v hv => hamong v (List.mem_filter.1 hv).1⟩
  · exact ⟨vs, hvs, hamong⟩

/-- The keywords of a conjunction, with fewer listed values perhaps, conjoined with a side once
    more. -/
theorem repeats_side {vs : Option (List Json)} {r : Schema} (hr : r = s ∨ r = u)
    (hrequired : s.required.Ascending) (hplain : Plainly vs) (hvs : Among vs r.values) :
    Repeats { together s u with values := vs } r := by
  have side : ∀ {β : Type} (f : Schema → β), f r = f s ∨ f r = f u := fun f =>
    hr.imp (congrArg f) (congrArg f)
  have hflag : ∀ f : Schema → Bool, (f s || f u || f r) = (f s || f u) := fun f => by
    rcases side f with h | h <;> rw [h] <;> cases f s <;> simp
  have hunion : (s.required.union u.required).union r.required =
      s.required.union u.required := by
    refine SortedSet.union_of_subset (SortedSet.ascending_union hrequired) fun k hk => ?_
    rw [SortedSet.mem_union]
    rcases side Schema.required with h | h
    · exact .inl (h ▸ hk)
    · exact .inr (h ▸ hk)
  have hkinds := KindSet.inter_side (side fun s => s.kinds.getD .full)
  unfold Repeats
  simp only [Schema.sameDemands, together, joinKeywords, Arena.whole, Schema.blank,
    smaller_eq_larger, Bool.and_eq_true, Option.getD_some, hkinds, hflag, hunion,
    larger_side asymm_lt (side Schema.gt), larger_side asymm_lt (side Schema.ge),
    larger_side (fun _ _ => asymm_lt _ _) (side Schema.lt),
    larger_side (fun _ _ => asymm_lt _ _) (side Schema.le), or_side (side Schema.multipleOf),
    larger_side asymm_countLt (side Schema.minLength),
    larger_side (fun _ _ => asymm_countLt _ _) (side Schema.maxLength),
    or_side (side Schema.pattern), or_side (side Schema.format),
    larger_side asymm_countLt (side Schema.minItems),
    larger_side (fun _ _ => asymm_countLt _ _) (side Schema.maxItems),
    larger_side asymm_countLt (side Schema.minProperties),
    larger_side (fun _ _ => asymm_countLt _ _) (side Schema.maxProperties),
    commonValues_of_among hvs, beq_values hplain, BEq.refl, true_and, and_true]
  rfl

/-- A conjunction that was stored makes the demands of both sides. -/
theorem OwnJoined.repeats_stored (h : OwnJoined L t s u own) (hs : s.Proper Json.Distinct n)
    (hu : u.Proper Json.Distinct n) :
    Repeats (trimValues own) s ∧ Repeats (trimValues own) u := by
  cases h with
  | @mk _ i e d hk _ _ _ =>
      obtain ⟨place, m, p, f, rfl, ⟨rfl, -⟩, ⟨rfl, -⟩, ⟨rfl, -⟩⟩ := hk
      generalize hown : ({ joinKeywords s u place _ _ _ with
        items := i, properties := d, extras := e } : Schema) = own
      have hvalues : own.values = commonValues s.values u.values := hown ▸ rfl
      have hleft : Among own.values s.values := hvalues ▸ among_common_left hs.values
      have hright : Among own.values u.values := hvalues ▸ among_common_right hu.values
      obtain ⟨vs, hvs, hsub⟩ := trimValues_eq own
      have hplain : Plainly vs := by
        intro ws hws v hv
        obtain ⟨us, hus, hmem⟩ := hsub ws hws
        rcases commonValues_sub (hvalues ▸ hus) (hmem v hv) with ⟨us, hus, hv⟩ | ⟨us, hus, hv⟩
        · exact hs.values us hus v hv
        · exact hu.values us hus v hv
      have hl := among_trimValues hleft
      have hr := among_trimValues hright
      rw [hvs] at hl hr ⊢
      subst hown
      exact ⟨repeats_side (.inl rfl) hs.required hplain hl,
        repeats_side (.inr rfl) hs.required hplain hr⟩

end Joined

/-! ## Schemas that demand nothing -/

section Unconstrained

variable {α : Type} [BEq α] {lt : α → α → Bool} {x y : Option α}

theorem none_of_larger (hx : (x == none) = true) (h : (larger lt x y == x) = true) :
    (y == none) = true := by
  cases x with
  | some v => cases hx
  | none => cases y <;> simp [larger] at h ⊢

theorem none_of_or (hx : (x == none) = true) (h : (x.or y == x) = true) : (y == none) = true := by
  cases x with
  | some v => cases hx
  | none => cases y <;> simp at h ⊢

end Unconstrained

theorem none_of_common {x y : Option (List Json)} (hx : (x == none) = true)
    (h : (commonValues x y == x) = true) : (y == none) = true := by
  cases x with
  | some vs => cases hx
  | none => cases y <;> simp [commonValues] at h ⊢

theorem eq_full_of_inter {ks js : KindSet} (h : ks.inter js = .full) : js = .full := by
  refine KindSet.ext fun k => ?_
  have hk := congrArg (KindSet.contains · k) h
  simp only [KindSet.contains_inter, KindSet.full, KindSet.contains_ofPred,
    Bool.and_eq_true] at hk ⊢
  exact hk.2

/-- What a schema that demands nothing repeats demands nothing, apart from child schemas. -/
theorem Repeats.unconstrained (h : Repeats s u) (hs : s.isUnconstrained = true)
    (hitems : u.items = none) (hextras : u.extras = none)
    (hproperties : u.properties.sameEntries .empty = true) (hmembers : u.members = []) :
    u.isUnconstrained = true := by
  simp only [Schema.members, List.append_eq_nil_iff] at hmembers
  obtain ⟨⟨hall, hany⟩, hone⟩ := hmembers
  unfold Schema.isUnconstrained at hs ⊢
  unfold Repeats at h
  simp only [Schema.sameDemands, together, joinKeywords, Arena.whole, Schema.blank,
    smaller_eq_larger, Bool.and_eq_true, and_assoc] at h hs ⊢
  obtain ⟨kinds, values, gt, ge, lt, le, multipleOf, minLength, maxLength, pattern, format, -,
    minItems, maxItems, uniqueItems, -, required, -, minProperties, maxProperties, -⟩ := h
  obtain ⟨full, -, values₀, gt₀, ge₀, lt₀, le₀, multipleOf₀, minLength₀, maxLength₀, pattern₀,
    format₀, -, minItems₀, maxItems₀, uniqueItems₀, -, required₀, -, minProperties₀,
    maxProperties₀, -⟩ := hs
  refine ⟨?full, BEq.refl _, none_of_common values₀ values, none_of_larger gt₀ gt,
    none_of_larger ge₀ ge, none_of_larger lt₀ lt, none_of_larger le₀ le,
    none_of_or multipleOf₀ multipleOf, none_of_larger minLength₀ minLength,
    none_of_larger maxLength₀ maxLength, none_of_or pattern₀ pattern, none_of_or format₀ format,
    beq_of_eq hitems, none_of_larger minItems₀ minItems, none_of_larger maxItems₀ maxItems,
    ?uniqueItems, hproperties, ?required, beq_of_eq hextras,
    none_of_larger minProperties₀ minProperties, none_of_larger maxProperties₀ maxProperties,
    beq_of_eq hall, beq_of_eq hany, beq_of_eq hone, BEq.refl _, BEq.refl _⟩
  case full =>
    rw [beq_iff_eq] at kinds
    rw [← kinds, Option.all_some, beq_iff_eq] at full
    cases hks : u.kinds with
    | none => rfl
    | some ks =>
        rw [hks] at full
        exact beq_of_eq (eq_full_of_inter full)
  case uniqueItems =>
    rw [beq_iff_eq] at uniqueItems uniqueItems₀ ⊢
    rw [uniqueItems₀, Bool.false_or] at uniqueItems
    exact uniqueItems
  case required =>
    rw [beq_iff_eq] at required required₀ ⊢
    rw [required₀] at required
    have hnone : u.required.elements = [] := by
      refine List.eq_nil_iff_forall_not_mem.2 fun k hk => ?_
      have hmem : k ∈ (SortedSet.empty.union u.required).elements :=
        SortedSet.mem_union.2 (.inr hk)
      rw [required] at hmem
      cases hmem
    cases hu : u.required
    simp [hu] at hnone
    simp [SortedSet.empty, hnone]

end Arena
end ApiModel
