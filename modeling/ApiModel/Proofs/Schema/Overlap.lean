/-
  ApiModel.Proofs.Schema.Overlap

  What the demands on a value as a whole leave. A schema plainly matches nothing exactly if its kinds
  and its listed values leave no value, or its bounds no number. Two schemas overlap when both of
  them leave the same value, and the same number where only numbers are left; so it does not depend
  on the order of the sides whether their conjunction plainly matches nothing. A schema that leaves
  something and is at least as tight as two others shows that they overlap.
-/
import ApiModel.Proofs.Schema.Offer
import ApiModel.Proofs.Schema.Unconstrained

namespace ApiModel

/-- Every kind has a value. -/
theorem KindSet.exists_accepts {ks : KindSet} (h : ks.isEmpty = false) :
    ∃ v : Json, v.Distinct ∧ ks.accepts v = true := by
  obtain ⟨k, hk⟩ := exists_contains h
  cases k with
  | object => exact ⟨.obj [], .obj List.nodup_nil (by simp), hk⟩
  | array => exact ⟨.arr [], .arr (by simp), hk⟩
  | string => exact ⟨.str "", .str "", hk⟩
  | number => exact ⟨.num (.int 0), .num _, Bool.or_eq_true_iff.2 (.inl hk)⟩
  | integer => exact ⟨.num (.int 0), .num _, Bool.or_eq_true_iff.2 (.inr hk)⟩
  | boolean => exact ⟨.bool true, .bool true, hk⟩
  | null => exact ⟨.null, .null, hk⟩

theorem KindSet.isEmpty_of_accepts {ks : KindSet} {v : Json} (h : ks.accepts v = true) :
    ks.isEmpty = false := by
  refine Bool.eq_false_iff.2 fun hempty => not_accepts_empty v ?_
  rwa [← eq_of_beq hempty]

namespace Arena

variable {P : Json → Prop} {L : Law Json.Distinct} {t : Arena} {m : Nat} {s u own out : Schema}
  {v : Json} {q : ℚ}

/-! ## What one schema leaves -/

/-- The kinds and listed values of a schema leave a value, and its bounds a number where all kinds
    are those of numbers. -/
structure Viable (s : Schema) : Prop where
  value : ∃ v : Json, v.Distinct ∧ Selects s v
  number : (s.kinds.getD .full).isNumeric = true → ∃ q, s.Within q

theorem kinds_trimValues : (trimValues s).kinds = s.kinds := by
  obtain ⟨vs, hvs, -⟩ := trimValues_eq s
  rw [hvs]

theorem intervalEmpty_trimValues : (trimValues s).intervalEmpty = s.intervalEmpty := by
  obtain ⟨vs, hvs, -⟩ := trimValues_eq s
  rw [hvs]
  rfl

/-- A schema that is not plainly unsatisfiable once it is trimmed selects one of the values that are
    left, or any value of its kinds. -/
theorem exists_selects (hs : s.Proper Json.Distinct m) (h : (trimValues s).isBottom = false) :
    ∃ v : Json, v.Distinct ∧ Selects s v := by
  simp only [Schema.isBottom, Bool.or_eq_false_iff, kinds_trimValues] at h
  obtain ⟨⟨hkinds, hvalues⟩, -⟩ := h
  cases hvs : (trimValues s).values with
  | none =>
      have hfree : ∀ v, (∀ ks ∈ s.kinds, ks.accepts v = true) → Selects s v := fun v hv =>
        selects_trimValues.1 ⟨by rwa [kinds_trimValues], by simp [hvs]⟩
      cases hks : s.kinds with
      | none => exact ⟨.null, .null, hfree _ (by simp [hks])⟩
      | some ks =>
          rw [hks, Option.any_some] at hkinds
          obtain ⟨v, hv, haccepts⟩ := KindSet.exists_accepts hkinds
          exact ⟨v, hv, hfree v (by simpa [hks] using haccepts)⟩
  | some vs =>
      rw [hvs, Option.any_some, List.isEmpty_eq_false_iff] at hvalues
      obtain ⟨v, hv⟩ := List.exists_mem_of_ne_nil vs hvalues
      -- what is left was listed
      obtain ⟨_, htrim, hsub⟩ := trimValues_eq s
      obtain ⟨us, hus, hmem⟩ := hsub vs (by rw [← hvs, htrim])
      have hd := hs.values us hus v (hmem v hv)
      refine ⟨v, hd, selects_trimValues.1 ⟨fun ks hks => ?_, fun ws hws => ?_⟩⟩
      · exact accepts_of_mem_trimValues hks hvs v hv
      · cases hvs.symm.trans hws
        exact ⟨v, hv, hd.same_refl⟩

theorem exists_within_iff :
    s.intervalEmpty = false ↔ ((s.kinds.getD .full).isNumeric = true → ∃ q, s.Within q) := by
  by_cases h : s.kinds.any KindSet.isNumeric = true
  · have hnumeric : (s.kinds.getD .full).isNumeric = true := by
      cases hks : s.kinds <;> simp_all
    rw [← Bool.not_eq_true, Schema.intervalEmpty_iff h, not_not]
    exact ⟨fun hq _ => hq, fun hq => hq hnumeric⟩
  · have hnumeric : (s.kinds.getD .full).isNumeric ≠ true := by
      cases hks : s.kinds with
      | none => decide
      | some ks => simpa [hks] using h
    rw [Bool.not_eq_true] at h
    simp [Schema.intervalEmpty, h, hnumeric]

/-- A schema plainly matches nothing exactly if what it demands of a whole value leaves nothing. -/
theorem isBottom_trimValues_iff (hs : s.Proper Json.Distinct m) :
    (trimValues s).isBottom = false ↔ Viable s := by
  constructor
  · intro h
    refine ⟨exists_selects hs h, ?_⟩
    simp only [Schema.isBottom, Bool.or_eq_false_iff, intervalEmpty_trimValues] at h
    exact exists_within_iff.1 h.2
  · rintro ⟨⟨v, -, hv⟩, hnumber⟩
    have hv := selects_trimValues.2 hv
    simp only [Schema.isBottom, Bool.or_eq_false_iff, intervalEmpty_trimValues]
    refine ⟨⟨?_, ?_⟩, exists_within_iff.2 hnumber⟩
    · cases hks : (trimValues s).kinds with
      | none => rfl
      | some ks => exact KindSet.isEmpty_of_accepts (hv.kinds ks hks)
    · cases hvs : (trimValues s).values with
      | none => rfl
      | some vs =>
          obtain ⟨w, hw, -⟩ := hv.values vs hvs
          exact List.isEmpty_eq_false_iff.2 (List.ne_nil_of_mem hw)

/-! ## What two schemas leave together -/

/-- Two schemas leave the same value, and the same number where their common kinds are those of
    numbers. -/
structure Overlap (s u : Schema) : Prop where
  value : ∃ v : Json, v.Distinct ∧ Selects s v ∧ Selects u v
  number : ((s.kinds.getD .full).inter (u.kinds.getD .full)).isNumeric = true →
    ∃ q, s.Within q ∧ u.Within q

theorem Overlap.symm (h : Overlap s u) : Overlap u s where
  value := by
    obtain ⟨v, hv, hs, hu⟩ := h.value
    exact ⟨v, hv, hu, hs⟩
  number hnumeric := by
    rw [KindSet.inter_comm] at hnumeric
    obtain ⟨q, hs, hu⟩ := h.number hnumeric
    exact ⟨q, hu, hs⟩

section Joined

variable (h : OwnJoined L t s u own)
include h

/-- The kinds and listed values of a conjunction are those of both sides. -/
theorem OwnJoined.selects_iff (hs : s.Proper Json.Distinct m) (hu : u.Proper Json.Distinct m)
    (hv : v.Distinct) : Selects own v ↔ Selects s v ∧ Selects u v := by
  cases h with
  | mk hk _ _ _ =>
      obtain ⟨place, _, _, _, rfl, -, -, -⟩ := hk
      have hkinds := forall_mem_joinKinds hs hu v
      have hvalues := forall_mem_commonValues hv hs.values hu.values
      constructor
      · rintro ⟨kinds, values⟩
        obtain ⟨hks, hku⟩ := hkinds.1 (kinds _ rfl)
        obtain ⟨hvs, hvu⟩ := hvalues.1 values
        exact ⟨⟨hks, hvs⟩, hku, hvu⟩
      · rintro ⟨hs, hu⟩
        refine ⟨?_, hvalues.2 ⟨hs.values, hu.values⟩⟩
        rintro _ ⟨⟩
        exact hkinds.2 ⟨hs.kinds, hu.kinds⟩

/-- The bounds of a conjunction leave what those of both sides leave. -/
theorem OwnJoined.within_iff : own.Within q ↔ s.Within q ∧ u.Within q := by
  have hle : ∀ {x y : Binary64}, x.lt y = true → x.rational ≤ y.rational := fun h =>
    (Binary64.lt_iff_rational_lt.1 h).le
  have hge : ∀ {x y : Binary64}, x.lt y = false → y.rational ≤ x.rational := fun h =>
    not_lt.1 fun hlt => by simp [Binary64.lt_iff_rational_lt.2 hlt] at h
  have gt : (∀ b ∈ larger Binary64.lt s.gt u.gt, b.rational < q) ↔ _ :=
    forall_mem_larger (fun _ _ h => (hle h).trans_lt) fun _ _ h => (hge h).trans_lt
  have ge : (∀ b ∈ larger Binary64.lt s.ge u.ge, b.rational ≤ q) ↔ _ :=
    forall_mem_larger (fun _ _ h => (hle h).trans) fun _ _ h => (hge h).trans
  have lt : (∀ b ∈ smaller Binary64.lt s.lt u.lt, q < b.rational) ↔ _ :=
    forall_mem_smaller (fun _ _ h hq => hq.trans_le (hle h)) fun _ _ h hq => hq.trans_le (hge h)
  have le : (∀ b ∈ smaller Binary64.lt s.le u.le, q ≤ b.rational) ↔ _ :=
    forall_mem_smaller (fun _ _ h hq => hq.trans (hle h)) fun _ _ h hq => hq.trans (hge h)
  cases h with
  | mk hk _ _ _ =>
      obtain ⟨place, _, _, _, rfl, -, -, -⟩ := hk
      constructor
      · intro h
        obtain ⟨⟨hgs, hgu⟩, hges, hgeu⟩ := And.intro (gt.1 h.gt) (ge.1 h.ge)
        obtain ⟨⟨hls, hlu⟩, hles, hleu⟩ := And.intro (lt.1 h.lt) (le.1 h.le)
        exact ⟨⟨hgs, hges, hls, hles⟩, hgu, hgeu, hlu, hleu⟩
      · rintro ⟨hs, hu⟩
        exact ⟨gt.2 ⟨hs.gt, hu.gt⟩, ge.2 ⟨hs.ge, hu.ge⟩, lt.2 ⟨hs.lt, hu.lt⟩,
          le.2 ⟨hs.le, hu.le⟩⟩

/-- The demands of a conjunction leave something exactly if its sides overlap. -/
theorem OwnJoined.viable_iff (hs : s.Proper Json.Distinct m) (hu : u.Proper Json.Distinct m) :
    Viable own ↔ Overlap s u := by
  have hkinds : own.kinds.getD .full = (s.kinds.getD .full).inter (u.kinds.getD .full) := by
    rw [kinds_of_ownJoined h, Option.getD_some]
  constructor
  · rintro ⟨⟨v, hv, hown⟩, hnumber⟩
    refine ⟨⟨v, hv, (h.selects_iff hs hu hv).1 hown⟩, fun hnumeric => ?_⟩
    obtain ⟨q, hq⟩ := hnumber (hkinds ▸ hnumeric)
    exact ⟨q, h.within_iff.1 hq⟩
  · rintro ⟨⟨v, hv, hboth⟩, hnumber⟩
    refine ⟨⟨v, hv, (h.selects_iff hs hu hv).2 hboth⟩, fun hnumeric => ?_⟩
    obtain ⟨q, hq⟩ := hnumber (hkinds ▸ hnumeric)
    exact ⟨q, h.within_iff.2 hq⟩

end Joined

/-! ## Tighter schemas -/

/-- The schema `s` leaves only what `u` leaves: kinds, values and numbers. -/
structure Tighter (s u : Schema) : Prop where
  kinds : ∀ k, (s.kinds.getD .full).contains k = true → (u.kinds.getD .full).contains k = true
  selects : ∀ v : Json, v.Distinct → Selects s v → Selects u v
  within : ∀ q, s.Within q → u.Within q

theorem Tighter.refl (s : Schema) : Tighter s s := ⟨fun _ h => h, fun _ _ h => h, fun _ h => h⟩

theorem Tighter.trans (h : Tighter s u) (h' : Tighter u out) : Tighter s out where
  kinds k hk := h'.kinds k (h.kinds k hk)
  selects v hv hs := h'.selects v hv (h.selects v hv hs)
  within q hq := h'.within q (h.within q hq)

/-- Where something is left, it is of number kinds if the kinds are among such, and then a number is
    left. -/
theorem Viable.exists_within {ks : KindSet} (h : Viable s) (hnumeric : ks.isNumeric = true)
    (hsub : ∀ k, (s.kinds.getD .full).contains k = true → ks.contains k = true) :
    ∃ q, s.Within q := by
  obtain ⟨v, -, hv⟩ := h.value
  have hkinds : (s.kinds.getD .full).isEmpty = false := by
    cases hks : s.kinds with
    | none => decide
    | some ks => exact KindSet.isEmpty_of_accepts (hv.kinds ks hks)
  exact h.number (KindSet.isNumeric_iff.2 ⟨KindSet.exists_contains hkinds, fun k hk =>
    (KindSet.isNumeric_iff.1 hnumeric).only k (hsub k hk)⟩)

/-- What leaves less leaves nothing more often. -/
theorem Viable.of_tighter (h : Viable s) (hsu : Tighter s u) : Viable u where
  value := by
    obtain ⟨v, hv, hs⟩ := h.value
    exact ⟨v, hv, hsu.selects v hv hs⟩
  number hnumeric := by
    obtain ⟨q, hq⟩ := h.exists_within hnumeric hsu.kinds
    exact ⟨q, hsu.within q hq⟩

/-- What leaves something, and only what both sides leave, shows that they overlap. -/
theorem Viable.overlap (h : Viable out) (hs : Tighter out s) (hu : Tighter out u) :
    Overlap s u where
  value := by
    obtain ⟨v, hv, hout⟩ := h.value
    exact ⟨v, hv, hs.selects v hv hout, hu.selects v hv hout⟩
  number hnumeric := by
    obtain ⟨q, hq⟩ := h.exists_within hnumeric fun k hk => by
      rw [KindSet.contains_inter, hs.kinds k hk, hu.kinds k hk, Bool.and_self]
    exact ⟨q, hs.within q hq, hu.within q hq⟩

/-- Every schema leaves only what one leaves that demands nothing. -/
theorem tighter_of_isUnconstrained (h : u.isUnconstrained = true) : Tighter s u := by
  have hu := Schema.isUnconstrained_iff.1 h
  have hfull : u.kinds.getD .full = .full := by
    cases hks : u.kinds with
    | none => rfl
    | some ks => exact hu.kinds ks hks
  refine ⟨fun k _ => ?_, fun v _ _ => ⟨fun ks hks => ?_, ?_⟩, fun q _ => ?_⟩
  · rw [hfull]
    exact KindSet.contains_ofPred _ k
  · rw [hu.kinds ks hks]
    exact KindSet.accepts_full v
  · simp [hu.values]
  · exact ⟨by simp [hu.gt], by simp [hu.ge], by simp [hu.lt], by simp [hu.le]⟩

/-- Trimming the listed values leaves what was left. -/
theorem tighter_trimValues : Tighter (trimValues s) s ∧ Tighter s (trimValues s) := by
  have hselects : ∀ v, Selects (trimValues s) v ↔ Selects s v := fun _ => selects_trimValues
  obtain ⟨vs, hvs, -⟩ := trimValues_eq s
  rw [hvs] at hselects ⊢
  exact ⟨⟨fun _ h => h, fun v _ => (hselects v).1, fun _ h => ⟨h.gt, h.ge, h.lt, h.le⟩⟩,
    ⟨fun _ h => h, fun v _ => (hselects v).2, fun _ h => ⟨h.gt, h.ge, h.lt, h.le⟩⟩⟩

/-- The base of a normal form demands what the schema does; it names all kinds where that names
    none. -/
theorem tighter_baseOf : Tighter (baseOf s) s ∧ Tighter s (baseOf s) := by
  have hkinds : ∀ v, (∀ ks ∈ (baseOf s).kinds, ks.accepts v = true) ↔
      ∀ ks ∈ s.kinds, ks.accepts v = true := by
    intro v
    cases hks : s.kinds with
    | none => simp [baseOf, hks, KindSet.accepts_full]
    | some ks => simp [baseOf, hks]
  exact ⟨⟨fun _ h => h, fun v _ h => ⟨(hkinds v).1 h.kinds, h.values⟩,
      fun _ h => ⟨h.gt, h.ge, h.lt, h.le⟩⟩,
    ⟨fun _ h => h, fun v _ h => ⟨(hkinds v).2 h.kinds, h.values⟩,
      fun _ h => ⟨h.gt, h.ge, h.lt, h.le⟩⟩⟩

/-- Alternatives are not looked at. -/
theorem tighter_branches (s : Schema) (p : Pointer) (bs : List SchemaId) :
    Tighter { s with pointer := p, anyOf := bs } s ∧
      Tighter s { s with pointer := p, anyOf := bs } :=
  ⟨⟨fun _ h => h, fun _ _ h => ⟨h.kinds, h.values⟩, fun _ h => ⟨h.gt, h.ge, h.lt, h.le⟩⟩,
    ⟨fun _ h => h, fun _ _ h => ⟨h.kinds, h.values⟩, fun _ h => ⟨h.gt, h.ge, h.lt, h.le⟩⟩⟩

/-- Schemas with the same demands leave the same. -/
theorem tighter_of_sameDemands (h : s.sameDemands u = true) (hs : s.Proper Json.Distinct m)
    (hu : u.Proper Json.Distinct m) : Tighter u s := by
  unfold Schema.sameDemands at h
  simp only [Bool.and_eq_true, and_assoc] at h
  obtain ⟨kinds, values, gt, ge, lt, le, -⟩ := h
  have hkinds : s.kinds = u.kinds := eq_of_beq kinds
  have hvalue : ∀ {x y : Binary64}, (x == y) = true → x.rational = y.rational :=
    Binary64.beq_iff_rational_eq.1
  refine ⟨fun k hk => hkinds ▸ hk, fun v hv h => ⟨hkinds ▸ h.kinds, ?_⟩, fun q h => ?_⟩
  · exact (forall_listed_of_beq values hs hu).2 h.values
  · exact ⟨(forall_mem_of_beq gt fun _ _ h => by rw [hvalue h]).2 h.gt,
      (forall_mem_of_beq ge fun _ _ h => by rw [hvalue h]).2 h.ge,
      (forall_mem_of_beq lt fun _ _ h => by rw [hvalue h]).2 h.lt,
      (forall_mem_of_beq le fun _ _ h => by rw [hvalue h]).2 h.le⟩

/-- The demands of a conjunction leave only what both sides leave, and all of it. -/
theorem OwnJoined.tighter_iff (h : OwnJoined L t s u own) (hs : s.Proper Json.Distinct m)
    (hu : u.Proper Json.Distinct m) : Tighter out own ↔ Tighter out s ∧ Tighter out u := by
  have hkinds : ∀ k, (own.kinds.getD .full).contains k = true ↔
      (s.kinds.getD .full).contains k = true ∧ (u.kinds.getD .full).contains k = true := by
    intro k
    rw [kinds_of_ownJoined h, Option.getD_some, KindSet.contains_inter, Bool.and_eq_true]
  constructor
  · intro hout
    exact ⟨⟨fun k hk => ((hkinds k).1 (hout.kinds k hk)).1,
        fun v hv hsel => ((h.selects_iff hs hu hv).1 (hout.selects v hv hsel)).1,
        fun q hq => (h.within_iff.1 (hout.within q hq)).1⟩,
      ⟨fun k hk => ((hkinds k).1 (hout.kinds k hk)).2,
        fun v hv hsel => ((h.selects_iff hs hu hv).1 (hout.selects v hv hsel)).2,
        fun q hq => (h.within_iff.1 (hout.within q hq)).2⟩⟩
  · rintro ⟨h₁, h₂⟩
    exact ⟨fun k hk => (hkinds k).2 ⟨h₁.kinds k hk, h₂.kinds k hk⟩,
      fun v hv hsel => (h.selects_iff hs hu hv).2 ⟨h₁.selects v hv hsel, h₂.selects v hv hsel⟩,
      fun q hq => h.within_iff.2 ⟨h₁.within q hq, h₂.within q hq⟩⟩

end Arena

end ApiModel
