/-
  ApiModel.Proofs.TypeExpr.Equality

  Equality of types is an equivalence. It looks at numbers by value and at literal values by their
  own equality, which forgets the order of object keys, so it is coarser than having the same parts;
  and it is an equivalence on the types whose literal values repeat no key, which all types are that
  come from documents.
-/
import ApiModel.TypeExpr
import ApiModel.Proofs.Json

namespace ApiModel

/-! ## Constraints -/

namespace Constraints

variable {b c d : Constraints}

/-- What equality of constraints looks at: numbers by value, all else as it is. -/
def byValue (c : Constraints) :
    List (Option Int) × List (Option Nat) × Option String × Bool :=
  ([c.gt, c.ge, c.lt, c.le, c.multipleOf].map (·.map Binary64.value),
    [c.minLength, c.maxLength, c.minItems, c.maxItems], c.pattern, c.uniqueItems)

theorem beq_iff_value {x y : Option Binary64} :
    (x == y) = true ↔ x.map Binary64.value = y.map Binary64.value := by
  cases x with
  | none => cases y <;> simp
  | some x =>
      cases y with
      | none => simp
      | some y =>
          rw [Option.some_beq_some, Option.map_some, Option.map_some, Option.some.injEq]
          exact beq_iff_eq (a := x.value)

theorem same_iff_byValue : c.same d = true ↔ c.byValue = d.byValue := by
  simp only [same, byValue, Bool.and_eq_true, beq_iff_value, beq_iff_eq, List.map_cons,
    List.map_nil, Prod.mk.injEq, List.cons.injEq, and_true]
  tauto

theorem same_refl (c : Constraints) : c.same c = true := same_iff_byValue.2 rfl

theorem same_symm (h : c.same d = true) : d.same c = true :=
  same_iff_byValue.2 (same_iff_byValue.1 h).symm

theorem same_trans (h : b.same c = true) (h' : c.same d = true) : b.same d = true :=
  same_iff_byValue.2 ((same_iff_byValue.1 h).trans (same_iff_byValue.1 h'))

end Constraints

/-! ## Types -/

namespace TypeExpr

variable {t u v : TypeExpr} {ts us : List TypeExpr}

/-- No literal value in a type repeats a key. -/
inductive DistinctKeys : TypeExpr → Prop
  | any : DistinctKeys .any
  | anyObject : DistinctKeys .anyObject
  | null : DistinctKeys .null
  | scalar (kind : ScalarKind) (c : Constraints) : DistinctKeys (.scalar kind c)
  | literal {vs : List Json} (h : ∀ v ∈ vs, v.Distinct) : DistinctKeys (.literal vs)
  | list {t : TypeExpr} (c : Constraints) (h : DistinctKeys t) : DistinctKeys (.list t c)
  | map {t : TypeExpr} (h : DistinctKeys t) : DistinctKeys (.map t)
  | tuple {ts : List TypeExpr} (h : ∀ t ∈ ts, DistinctKeys t) : DistinctKeys (.tuple ts)
  | union {ts : List TypeExpr} (h : ∀ t ∈ ts, DistinctKeys t) : DistinctKeys (.union ts)
  | optional {t : TypeExpr} (h : DistinctKeys t) : DistinctKeys (.optional t)
  | named (n : TypeName) : DistinctKeys (.named n)

-- the many equations of `same` are worked out here, once for all lemmas that open it
attribute [local simp] same sameAll

theorem sameAll_iff : sameAll ts us = true ↔ List.Forall₂ (fun t u => same t u = true) ts us := by
  induction ts generalizing us with
  | nil => cases us <;> simp
  | cons t ts ih =>
      cases us with
      | nil => simp
      | cons u us => simp [ih]

theorem DistinctKeys.literal_iff {vs : List Json} :
    DistinctKeys (.literal vs) ↔ Json.Distinct (.arr vs) := by
  rw [Json.distinct_arr]
  constructor
  · intro h
    cases h with
    | literal h => exact h
  · exact .literal

/-! What a type equals has its form, and equal parts. -/

theorem same_any_iff : same .any u = true ↔ u = .any := by cases u <;> simp

theorem same_anyObject_iff : same .anyObject u = true ↔ u = .anyObject := by
  cases u <;> simp

theorem same_null_iff : same .null u = true ↔ u = .null := by cases u <;> simp

theorem same_scalar_iff {k : ScalarKind} {c : Constraints} :
    same (.scalar k c) u = true ↔ ∃ d, u = .scalar k d ∧ c.same d = true := by
  cases u <;> simp [eq_comm (a := k)]

theorem same_literal_iff {vs : List Json} :
    same (.literal vs) u = true ↔ ∃ ws, u = .literal ws ∧ Json.same (.arr vs) (.arr ws) = true := by
  cases u <;> simp [Json.same]

theorem same_list_iff {c : Constraints} :
    same (.list t c) u = true ↔
      ∃ t' d, u = .list t' d ∧ same t t' = true ∧ c.same d = true := by
  cases u <;> simp

theorem same_map_iff : same (.map t) u = true ↔ ∃ t', u = .map t' ∧ same t t' = true := by
  cases u <;> simp

theorem same_tuple_iff : same (.tuple ts) u = true ↔
    ∃ us, u = .tuple us ∧ List.Forall₂ (fun t u => same t u = true) ts us := by
  cases u <;> simp [sameAll_iff]

theorem same_union_iff : same (.union ts) u = true ↔
    ∃ us, u = .union us ∧ List.Forall₂ (fun t u => same t u = true) ts us := by
  cases u <;> simp [sameAll_iff]

theorem same_optional_iff :
    same (.optional t) u = true ↔ ∃ t', u = .optional t' ∧ same t t' = true := by
  cases u <;> simp

theorem same_named_iff {n : TypeName} : same (.named n) u = true ↔ u = .named n := by
  cases u <;> simp [eq_comm (a := n)]

theorem DistinctKeys.same_refl (h : t.DistinctKeys) : t.same t = true := by
  induction h with
  | any => exact same_any_iff.2 rfl
  | anyObject => exact same_anyObject_iff.2 rfl
  | null => exact same_null_iff.2 rfl
  | scalar k c => exact same_scalar_iff.2 ⟨c, rfl, c.same_refl⟩
  | literal h => exact same_literal_iff.2 ⟨_, rfl, (Json.Distinct.arr h).same_refl⟩
  | list c _ ih => exact same_list_iff.2 ⟨_, c, rfl, ih, c.same_refl⟩
  | map _ ih => exact same_map_iff.2 ⟨_, rfl, ih⟩
  | tuple _ ih => exact same_tuple_iff.2 ⟨_, rfl, List.forall₂_same.2 ih⟩
  | union _ ih => exact same_union_iff.2 ⟨_, rfl, List.forall₂_same.2 ih⟩
  | optional _ ih => exact same_optional_iff.2 ⟨_, rfl, ih⟩
  | named n => exact same_named_iff.2 rfl

theorem DistinctKeys.same_symm (ht : t.DistinctKeys) (hu : u.DistinctKeys)
    (h : t.same u = true) : u.same t = true := by
  induction ht generalizing u with
  | any => rw [same_any_iff.1 h]; exact same_any_iff.2 rfl
  | anyObject => rw [same_anyObject_iff.1 h]; exact same_anyObject_iff.2 rfl
  | null => rw [same_null_iff.1 h]; exact same_null_iff.2 rfl
  | scalar k c =>
      obtain ⟨d, rfl, hd⟩ := same_scalar_iff.1 h
      exact same_scalar_iff.2 ⟨c, rfl, Constraints.same_symm hd⟩
  | literal hvs =>
      obtain ⟨ws, rfl, hws⟩ := same_literal_iff.1 h
      have hback := (Json.Distinct.arr hvs).same_symm (literal_iff.1 hu) hws
      exact same_literal_iff.2 ⟨_, rfl, hback⟩
  | list c _ ih =>
      obtain ⟨t', d, rfl, ht', hd⟩ := same_list_iff.1 h
      cases hu with
      | list _ hu => exact same_list_iff.2 ⟨_, c, rfl, ih hu ht', Constraints.same_symm hd⟩
  | map _ ih =>
      obtain ⟨t', rfl, ht'⟩ := same_map_iff.1 h
      cases hu with
      | map hu => exact same_map_iff.2 ⟨_, rfl, ih hu ht'⟩
  | tuple _ ih =>
      obtain ⟨us, rfl, hus⟩ := same_tuple_iff.1 h
      cases hu with
      | tuple hu =>
          exact same_tuple_iff.2 ⟨_, rfl, forall₂_symm hus fun t ht u hu' => ih t ht (hu u hu')⟩
  | union _ ih =>
      obtain ⟨us, rfl, hus⟩ := same_union_iff.1 h
      cases hu with
      | union hu =>
          exact same_union_iff.2 ⟨_, rfl, forall₂_symm hus fun t ht u hu' => ih t ht (hu u hu')⟩
  | optional _ ih =>
      obtain ⟨t', rfl, ht'⟩ := same_optional_iff.1 h
      cases hu with
      | optional hu => exact same_optional_iff.2 ⟨_, rfl, ih hu ht'⟩
  | named n => rw [same_named_iff.1 h]; exact same_named_iff.2 rfl

theorem DistinctKeys.same_trans (ht : t.DistinctKeys) (h : t.same u = true)
    (h' : u.same v = true) : t.same v = true := by
  induction ht generalizing u v with
  | any => rwa [same_any_iff.1 h] at h'
  | anyObject => rwa [same_anyObject_iff.1 h] at h'
  | null => rwa [same_null_iff.1 h] at h'
  | scalar k c =>
      obtain ⟨d, rfl, hd⟩ := same_scalar_iff.1 h
      obtain ⟨e, rfl, he⟩ := same_scalar_iff.1 h'
      exact same_scalar_iff.2 ⟨e, rfl, Constraints.same_trans hd he⟩
  | literal hvs =>
      obtain ⟨ws, rfl, hws⟩ := same_literal_iff.1 h
      obtain ⟨xs, rfl, hxs⟩ := same_literal_iff.1 h'
      exact same_literal_iff.2 ⟨xs, rfl, (Json.Distinct.arr hvs).same_trans hws hxs⟩
  | list c _ ih =>
      obtain ⟨u, d, rfl, hu, hd⟩ := same_list_iff.1 h
      obtain ⟨v, e, rfl, hv, he⟩ := same_list_iff.1 h'
      exact same_list_iff.2 ⟨v, e, rfl, ih hu hv, Constraints.same_trans hd he⟩
  | map _ ih =>
      obtain ⟨u, rfl, hu⟩ := same_map_iff.1 h
      obtain ⟨v, rfl, hv⟩ := same_map_iff.1 h'
      exact same_map_iff.2 ⟨v, rfl, ih hu hv⟩
  | tuple _ ih =>
      obtain ⟨us, rfl, hus⟩ := same_tuple_iff.1 h
      obtain ⟨vs, rfl, hvs⟩ := same_tuple_iff.1 h'
      exact same_tuple_iff.2 ⟨vs, rfl, forall₂_trans hus hvs fun t ht u v => ih t ht⟩
  | union _ ih =>
      obtain ⟨us, rfl, hus⟩ := same_union_iff.1 h
      obtain ⟨vs, rfl, hvs⟩ := same_union_iff.1 h'
      exact same_union_iff.2 ⟨vs, rfl, forall₂_trans hus hvs fun t ht u v => ih t ht⟩
  | optional _ ih =>
      obtain ⟨u, rfl, hu⟩ := same_optional_iff.1 h
      obtain ⟨v, rfl, hv⟩ := same_optional_iff.1 h'
      exact same_optional_iff.2 ⟨v, rfl, ih hu hv⟩
  | named n => rwa [same_named_iff.1 h] at h'

theorem same_comm (ht : t.DistinctKeys) (hu : u.DistinctKeys) : t.same u = u.same t :=
  Bool.eq_iff_iff.2 ⟨ht.same_symm hu, hu.same_symm ht⟩

/-- What equals one of two equal types equals the other. -/
theorem same_congr_right (ht : t.DistinctKeys) (hu : u.DistinctKeys) (hv : v.DistinctKeys)
    (h : u.same v = true) : t.same u = t.same v :=
  Bool.eq_iff_iff.2
    ⟨fun htu => ht.same_trans htu h, fun htv => ht.same_trans htv (hu.same_symm hv h)⟩

end TypeExpr

end ApiModel
