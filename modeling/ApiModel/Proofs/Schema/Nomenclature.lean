/-
  ApiModel.Proofs.Schema.Nomenclature

  Names for schemas that do not depend on what was asked before. A schema that the algebra stores is
  named after what it was made of, a schema of the document by the one who gives the names. There are
  enough names: schemas are finite data, so they can be numbered.
-/
import ApiModel.Schema.NormalForm
import Mathlib.Tactic.DeriveCountable
import Mathlib.Data.Countable.Basic
import Mathlib.Logic.Equiv.List

namespace ApiModel

/-! ## Schemas can be numbered -/

instance countable_char : Countable Char :=
  Function.Injective.countable (f := Char.toNat) fun _ _ h => Char.toNat_inj.1 h

instance countable_string : Countable String :=
  Function.Injective.countable (f := String.toList) fun _ _ h => String.toList_inj.1 h

deriving instance Countable for Binary64, Number, Pointer, KindSet, SortedSet, Dict, Extras

/-- A value, a list of values or a list of fields. -/
inductive JsonTree where
  | null
  | bool (value : Bool)
  | num (value : Number)
  | str (value : String)
  | arr (items : JsonTree)
  | obj (fields : JsonTree)
  | nil
  | item (first rest : JsonTree)
  | field (key : String) (value rest : JsonTree)
  deriving Countable

namespace JsonTree

/-- What a tree stands for as a value, as items and as fields. -/
def parts : JsonTree → Json × List Json × List (String × Json)
  | null | nil => (.null, [], [])
  | bool b => (.bool b, [], [])
  | num n => (.num n, [], [])
  | str s => (.str s, [], [])
  | arr items => (.arr items.parts.2.1, [], [])
  | obj fields => (.obj fields.parts.2.2, [], [])
  | item first rest => (.null, first.parts.1 :: rest.parts.2.1, [])
  | field key value rest => (.null, [], (key, value.parts.1) :: rest.parts.2.2)

mutual

theorem exists_value : ∀ v : Json, ∃ t : JsonTree, t.parts.1 = v
  | .null => ⟨null, rfl⟩
  | .bool b => ⟨bool b, rfl⟩
  | .num n => ⟨num n, rfl⟩
  | .str s => ⟨str s, rfl⟩
  | .arr items => (exists_items items).imp' arr fun _ h => congrArg Json.arr h
  | .obj fields => (exists_fields fields).imp' obj fun _ h => congrArg Json.obj h

theorem exists_items : ∀ vs : List Json, ∃ t : JsonTree, t.parts.2.1 = vs
  | [] => ⟨nil, rfl⟩
  | v :: vs => by
    obtain ⟨t, rfl⟩ := exists_value v
    obtain ⟨ts, rfl⟩ := exists_items vs
    exact ⟨item t ts, rfl⟩

theorem exists_fields : ∀ es : List (String × Json), ∃ t : JsonTree, t.parts.2.2 = es
  | [] => ⟨nil, rfl⟩
  | (k, v) :: es => by
    obtain ⟨t, rfl⟩ := exists_value v
    obtain ⟨ts, rfl⟩ := exists_fields es
    exact ⟨field k t ts, rfl⟩

end

end JsonTree

instance : Countable Json :=
  Function.Surjective.countable (f := fun t : JsonTree => t.parts.1) JsonTree.exists_value

deriving instance Countable for Schema

/-! ## Names -/

namespace Arena

/-- The schemas that the normalization of one schema stores by itself. -/
inductive Part where
  /-- Its own demands. -/
  | base
  /-- Its kinds alone. -/
  | narrowing
  /-- Its demands with the alternatives that are left. -/
  | whole
  deriving Countable

/-- What a stored schema is made of. -/
inductive Origin where
  /-- The normalization of the schema `m`, after so many that failed. -/
  | own (m : SchemaId) (part : Part) (failures : Nat)
  /-- The conjunction of the normal forms `x` and `y`. -/
  | both (x y : SchemaId) (place : Pointer)
  /-- Anything else, which is told apart by its number. -/
  | other (i : SchemaId)
  deriving Countable

/-- Names of schemas, and what the schemas say in terms of names. -/
structure Nomenclature where
  content : SchemaId → Schema
  /-- The name of a stored schema. -/
  stored : Origin → Schema → SchemaId
  content_stored : ∀ o s, content (stored o s) = s
  origin_inj : ∀ {o o' s s'}, stored o s = stored o' s' → o = o'
  /-- How often normalizations of a schema have failed. -/
  failures : SchemaId → Nat

namespace Nomenclature

/-- What the next normalization of the schema `m` stores by itself. -/
def own (ν : Nomenclature) (m : SchemaId) (part : Part) : Origin := .own m part (ν.failures m)

/-- The name of a stored schema, that is, of a normal form. -/
def IsForm (ν : Nomenclature) (n : SchemaId) : Prop := ∃ o s, n = ν.stored o s

theorem isForm_stored (ν : Nomenclature) (o : Origin) (s : Schema) : ν.IsForm (ν.stored o s) :=
  ⟨o, s, rfl⟩

/-- Even names can be given as one likes; stored schemas have odd names. -/
theorem exists_content (given : SchemaId → Schema) :
    ∃ ν : Nomenclature, ∀ n, ν.content (2 * n) = given n ∧ ¬ν.IsForm (2 * n) := by
  obtain ⟨number, hinj⟩ := exists_injective_nat (Origin × Schema)
  have : Nonempty (Origin × Schema) := ⟨.own 0 .base 0, .blank .root⟩
  have hodd : ∀ n m : Nat, 2 * n ≠ 2 * m + 1 := by omega
  refine ⟨{
    content := fun n => if n % 2 = 0 then given (n / 2) else (Function.invFun number (n / 2)).2
    stored := fun o s => 2 * number (o, s) + 1
    content_stored := fun o s => ?_
    origin_inj := fun {o o' s s'} h => ?_
    failures := fun _ => 0 }, fun n => ⟨?_, ?_⟩⟩
  · have hmod : (2 * number (o, s) + 1) % 2 ≠ 0 := by omega
    have hdiv : (2 * number (o, s) + 1) / 2 = number (o, s) := by omega
    rw [if_neg hmod, hdiv, Function.leftInverse_invFun hinj]
  · have hnumber : number (o, s) = number (o', s') :=
      Nat.eq_of_mul_eq_mul_left Nat.two_pos (Nat.succ.inj h)
    exact (Prod.mk.inj (hinj hnumber)).1
  · dsimp only
    rw [if_pos (Nat.mul_mod_right 2 n), Nat.mul_div_cancel_left n Nat.two_pos]
  · rintro ⟨o, s, h⟩
    exact hodd n _ h

end Nomenclature

end Arena

end ApiModel
