/-
  ApiModel.Proofs.Schema.Interval

  The numeric bounds of a schema as an interval. Of a strict and a non-strict bound on one side the
  tighter one asks for what both ask for, and between two bounds on opposite sides there is a number
  exactly if they leave room for it. So the interval test of a schema of numbers is exact over the
  rationals, and the bounds of any other schema do not count.
-/
import ApiModel.Schema
import Mathlib.Algebra.Field.Rat
import Mathlib.Algebra.Order.Field.Basic
import Mathlib.Algebra.Order.Ring.Rat

namespace ApiModel

/-! ## Numbers as rationals -/

namespace Binary64

/-- The number as a rational. -/
def rational (x : Binary64) : ℚ := x.value / unitsPerOne

theorem unitsPerOne_pos : (0 : ℚ) < unitsPerOne := Nat.cast_pos.2 (by decide +kernel)

variable {x y : Binary64}

theorem rational_lt_iff : x.rational < y.rational ↔ x.value < y.value := by
  unfold rational
  rw [div_lt_div_iff_of_pos_right unitsPerOne_pos, Int.cast_lt]

theorem lt_iff_value_lt : x.lt y = true ↔ x.value < y.value := decide_eq_true_iff

/-- The order of numbers is that of rationals. -/
theorem lt_iff_rational_lt : x.lt y = true ↔ x.rational < y.rational :=
  lt_iff_value_lt.trans rational_lt_iff.symm

/-- Numbers are equal as rationals are. -/
theorem beq_iff_rational_eq : (x == y) = true ↔ x.rational = y.rational := by
  show (x.value == y.value) = true ↔ _
  rw [beq_iff_eq, le_antisymm_iff, le_antisymm_iff, ← not_lt, ← not_lt, ← not_lt (a := y.rational),
    ← not_lt (a := x.rational), rational_lt_iff, rational_lt_iff]

end Binary64

/-! ## Bounds -/

namespace Schema

section Bounds

variable {α : Type} [LinearOrder α] {f : Binary64 → α} {q : α}

/-- The bound, read by `f`, is one from below that admits `q`. -/
def Bound.Below (f : Binary64 → α) (b : Bound) (q : α) : Prop :=
  if b.strict then f b.value < q else f b.value ≤ q

/-- The bound, read by `f`, is one from above that admits `q`. -/
def Bound.Above (f : Binary64 → α) (b : Bound) (q : α) : Prop :=
  if b.strict then q < f b.value else q ≤ f b.value

theorem Bound.below_of_lt {b : Bound} (h : f b.value < q) : b.Below f q := by
  unfold Bound.Below
  split
  · exact h
  · exact h.le

theorem Bound.above_of_lt {b : Bound} (h : q < f b.value) : b.Above f q := by
  unfold Bound.Above
  split
  · exact h
  · exact h.le

/-- Of a strict and a non-strict bound from below the strict one counts, unless the other one is
    larger. -/
theorem lt_and_le_iff {x y : α} : x < q ∧ y ≤ q ↔ if x < y then y ≤ q else x < q := by
  split
  · next h => exact ⟨And.right, fun hq => ⟨lt_of_lt_of_le h hq, hq⟩⟩
  · next h => exact ⟨And.left, fun hq => ⟨hq, (not_lt.1 h).trans hq.le⟩⟩

/-- The tighter lower bound asks for what both ask for. -/
theorem forall_mem_lowerBound (hf : ∀ x y : Binary64, x.lt y = true ↔ f x < f y)
    (gt ge : Option Binary64) (q : α) :
    (∀ lo ∈ lowerBound gt ge, lo.Below f q) ↔ (∀ b ∈ gt, f b < q) ∧ ∀ b ∈ ge, f b ≤ q := by
  cases gt with
  | none => cases ge <;> simp [lowerBound, Bound.Below]
  | some x =>
      cases ge with
      | none => simp [lowerBound, Bound.Below]
      | some y =>
          simp only [lowerBound, Option.mem_def, Option.some.injEq, forall_eq', lt_and_le_iff, hf]
          split <;> simp [Bound.Below]

/-- The tighter upper bound asks for what both ask for. -/
theorem forall_mem_upperBound (hf : ∀ x y : Binary64, x.lt y = true ↔ f x < f y)
    (lt le : Option Binary64) (q : α) :
    (∀ hi ∈ upperBound lt le, hi.Above f q) ↔ (∀ b ∈ lt, q < f b) ∧ ∀ b ∈ le, q ≤ f b := by
  cases lt with
  | none => cases le <;> simp [upperBound, Bound.Above]
  | some x =>
      cases le with
      | none => simp [upperBound, Bound.Above]
      | some y =>
          -- the same as for lower bounds, in the opposite order
          have hdual : q < f x ∧ q ≤ f y ↔ if f y < f x then q ≤ f y else q < f x :=
            lt_and_le_iff (α := αᵒᵈ)
          simp only [upperBound, Option.mem_def, Option.some.injEq, forall_eq', hdual, hf]
          split <;> simp [Bound.Above]

/-- Where something lies between a lower and an upper bound, the lower one is less, or they meet and
    both admit the point where they do. -/
theorem Bound.Below.room {lo hi : Bound} (hlo : lo.Below f q) (hhi : hi.Above f q) :
    f lo.value < f hi.value ∨
      f lo.value = f hi.value ∧ lo.strict = false ∧ hi.strict = false := by
  unfold Bound.Below at hlo
  unfold Bound.Above at hhi
  split at hlo
  · split at hhi
    · exact .inl (hlo.trans hhi)
    · exact .inl (hlo.trans_le hhi)
  · next hslo =>
      split at hhi
      · exact .inl (hlo.trans_lt hhi)
      · next hshi =>
          exact (hlo.trans hhi).lt_or_eq.imp_right fun h =>
            ⟨h, Bool.not_eq_true _ ▸ hslo, Bool.not_eq_true _ ▸ hshi⟩

/-- In a dense order that is all that is needed for something to lie between them. -/
theorem exists_between_iff [DenselyOrdered α] (lo hi : Bound) :
    (∃ q, lo.Below f q ∧ hi.Above f q) ↔
      f lo.value < f hi.value ∨
        f lo.value = f hi.value ∧ lo.strict = false ∧ hi.strict = false := by
  refine ⟨fun ⟨q, hlo, hhi⟩ => hlo.room hhi, ?_⟩
  rintro (h | ⟨h, hslo, hshi⟩)
  · obtain ⟨q, hlo, hhi⟩ := exists_between h
    exact ⟨q, Bound.below_of_lt hlo, Bound.above_of_lt hhi⟩
  · exact ⟨f lo.value, by simp [Bound.Below, hslo], by simp [Bound.Above, hshi, h]⟩

end Bounds

/-! ## Numbers between the bounds -/

variable {s : Schema}

/-- The rational number `q` keeps within the bounds that a schema has. -/
structure Within (s : Schema) (q : ℚ) : Prop where
  gt : ∀ b ∈ s.gt, b.rational < q
  ge : ∀ b ∈ s.ge, b.rational ≤ q
  lt : ∀ b ∈ s.lt, q < b.rational
  le : ∀ b ∈ s.le, q ≤ b.rational

/-- The four bounds ask for what the tighter ones from below and from above ask for. -/
theorem within_iff {q : ℚ} : s.Within q ↔
    (∀ lo ∈ lowerBound s.gt s.ge, lo.Below Binary64.rational q) ∧
      ∀ hi ∈ upperBound s.lt s.le, hi.Above Binary64.rational q := by
  rw [forall_mem_lowerBound fun _ _ => Binary64.lt_iff_rational_lt,
    forall_mem_upperBound fun _ _ => Binary64.lt_iff_rational_lt]
  exact ⟨fun h => ⟨⟨h.gt, h.ge⟩, h.lt, h.le⟩, fun h => ⟨h.1.1, h.1.2, h.2.1, h.2.2⟩⟩

/-- The interval of a schema of numbers is found to be empty exactly if no rational number keeps
    within the bounds. -/
theorem intervalEmpty_iff (h : s.kinds.any KindSet.isNumeric = true) :
    s.intervalEmpty = true ↔ ¬∃ q, s.Within q := by
  unfold intervalEmpty
  simp only [h, Bool.true_and, within_iff]
  cases lowerBound s.gt s.ge with
  | none =>
      cases upperBound s.lt s.le with
      | none => simp
      | some hi =>
          -- below a single bound there is always room
          obtain ⟨q, hq⟩ := exists_lt hi.value.rational
          simpa using ⟨q, Bound.above_of_lt hq⟩
  | some lo =>
      cases upperBound s.lt s.le with
      | none =>
          obtain ⟨q, hq⟩ := exists_gt lo.value.rational
          simpa using ⟨q, Bound.below_of_lt hq⟩
      | some hi =>
          simp only [Option.mem_def, Option.some.injEq, forall_eq']
          rw [exists_between_iff, Bool.or_eq_true, Bool.and_eq_true, Binary64.lt_iff_rational_lt,
            Binary64.beq_iff_rational_eq, Bool.or_eq_true]
          grind

end Schema

/-! ## Sets of number kinds -/

namespace KindSet

/-- There is a kind, and every kind is that of numbers or that of integers. -/
structure Numeric (ks : KindSet) : Prop where
  nonempty : ∃ k, ks.contains k = true
  only : ∀ k, ks.contains k = true → k = .number ∨ k = .integer

variable {ks : KindSet}

theorem isEmpty_iff : ks.isEmpty = true ↔ ∀ k, ks.contains k = false := by
  have hempty : ∀ k, empty.contains k = false := contains_ofPred _
  refine beq_iff_eq.trans ⟨?_, fun h => ext fun k => (h k).trans (hempty k).symm⟩
  rintro rfl
  exact hempty

theorem isSubset_iff {js : KindSet} :
    ks.isSubset js = true ↔ ∀ k, ks.contains k = true → js.contains k = true := by
  have hall : ∀ k, k ∈ Kind.all := fun k => by cases k <;> decide
  unfold isSubset
  rw [List.all_eq_true]
  refine ⟨fun h k hk => by simpa [hk] using h k (hall k), fun h k _ => ?_⟩
  cases hk : ks.contains k with
  | true => simp [h k hk]
  | false => rfl

theorem isNumeric_iff : ks.isNumeric = true ↔ ks.Numeric := by
  have hnumbers : ∀ k, (ofList [.number, .integer]).contains k = true ↔
      k = .number ∨ k = .integer := fun k => by cases k <;> decide
  unfold isNumeric
  rw [Bool.and_eq_true, Bool.not_eq_true', ← Bool.not_eq_true, isEmpty_iff, isSubset_iff]
  simp only [hnumbers, not_forall, Bool.not_eq_false]
  exact ⟨fun h => ⟨h.1, h.2⟩, fun h => ⟨h.nonempty, h.only⟩⟩

end KindSet

namespace Schema

variable {s : Schema}

/-- A schema of numbers that lists no values plainly matches nothing exactly if no rational number
    keeps within its bounds. Where the kinds have another one among them, or none are given, the
    bounds do not count. -/
theorem bounds_exact (s : Schema) :
    (∀ ks, s.kinds = some ks → ks.Numeric → s.values = none →
      (s.isBottom = true ↔ ¬∃ q, s.Within q)) ∧
    ((∀ ks ∈ s.kinds, ∃ k, ks.contains k = true ∧ k ≠ .number ∧ k ≠ .integer) →
      s.isBottom = s.values.any List.isEmpty) := by
  constructor
  · intro ks hks hnumeric hvalues
    have hany : s.kinds.any KindSet.isNumeric = true := by
      rw [hks]
      exact KindSet.isNumeric_iff.2 hnumeric
    have hnonempty : s.kinds.any KindSet.isEmpty = false := by
      obtain ⟨k, hk⟩ := hnumeric.nonempty
      rw [hks, Option.any_some, ← Bool.not_eq_true, KindSet.isEmpty_iff]
      exact fun h => Bool.noConfusion (hk.symm.trans (h k))
    rw [← intervalEmpty_iff hany, isBottom, hnonempty, hvalues]
    rfl
  · intro hother
    have hkinds : s.kinds.any KindSet.isEmpty = false ∧ s.kinds.any KindSet.isNumeric = false := by
      cases hks : s.kinds with
      | none => exact ⟨rfl, rfl⟩
      | some ks =>
          obtain ⟨k, hk, hnumber, hinteger⟩ := hother ks hks
          rw [Option.any_some, Option.any_some, ← Bool.not_eq_true, ← Bool.not_eq_true,
            KindSet.isEmpty_iff, KindSet.isNumeric_iff]
          exact ⟨fun h => Bool.noConfusion (hk.symm.trans (h k)),
            fun h => (h.only k hk).elim hnumber hinteger⟩
    rw [isBottom, intervalEmpty, hkinds.1, hkinds.2]
    simp

/-- Numbers from ten on that are less than ten, and those that are at most ten. -/
def belowTen (strict : Bool) : Schema :=
  let ten : Binary64 := ⟨false, 10 * Binary64.unitsPerOne⟩
  { blank .root with
    kinds := some (.ofList [.integer])
    ge := some ten
    lt := if strict then some ten else none
    le := if strict then none else some ten }

theorem bounds_exact_touching :
    (¬∃ q, (belowTen true).Within q) ∧ (∃ q, (belowTen false).Within q) ∧
      ({ belowTen true with kinds := some (.ofList [.integer, .string]) } : Schema).isBottom =
        false := by
  have hnumeric : (KindSet.ofList [.integer]).Numeric := KindSet.isNumeric_iff.1 (by decide)
  refine ⟨?_, not_not.1 fun hnone => ?_, ?_⟩
  · exact ((bounds_exact (belowTen true)).1 _ rfl hnumeric rfl).1 (by decide +kernel)
  · have hbottom := ((bounds_exact (belowTen false)).1 _ rfl hnumeric rfl).2 hnone
    exact Bool.noConfusion ((by decide +kernel : (belowTen false).isBottom = false).symm.trans
      hbottom)
  · refine (bounds_exact _).2 ?_
    rintro _ ⟨⟩
    exact ⟨.string, by decide, by decide, by decide⟩

end Schema

end ApiModel
