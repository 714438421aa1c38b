/-
  ApiModel.Proofs.Fresh

  Free names are free. Of as many different choices as there are taken names and one more, one is
  not taken; so the first free choice is found among them, and the fallback is never used.
-/
import ApiModel.Fresh
import Mathlib.Data.List.Nodup
import Mathlib.Data.List.Perm.Subperm

namespace ApiModel

variable {α : Type} [DecidableEq α] {taken : List α} {choice : Nat → α}

/-- Among different choices there is a free one. -/
theorem exists_free (hchoice : Function.Injective choice) (taken : List α) :
    ∃ k ∈ List.range (taken.length + 1), choice k ∉ taken := by
  -- otherwise that many different choices would all be taken
  by_contra hnone
  have hsub : (List.range (taken.length + 1)).map choice ⊆ taken := by
    intro a ha
    obtain ⟨k, hk, rfl⟩ := List.mem_map.1 ha
    by_contra hfree
    exact hnone ⟨k, hk, hfree⟩
  have hle := ((List.nodup_range.map hchoice).subperm hsub).length_le
  rw [List.length_map, List.length_range] at hle
  exact Nat.not_succ_le_self _ hle

/-- The first free choice is the choice at some number that is free, and all choices before it are
    taken; so there are no more of these than taken names. -/
theorem firstFree_eq (hchoice : Function.Injective choice) (taken : List α) :
    ∃ k ≤ taken.length, firstFree taken choice = choice k ∧ choice k ∉ taken ∧
      ∀ j < k, choice j ∈ taken := by
  obtain ⟨i, hi, hfree⟩ := exists_free hchoice taken
  cases hfind : (List.range (taken.length + 1)).find? fun k => choice k ∉ taken with
  | none => exact absurd hfree (by simpa using List.find?_eq_none.1 hfind i hi)
  | some k =>
      have hk : choice k ∉ taken := by simpa using List.find?_some hfind
      have heq : firstFree taken choice = choice k := by rw [firstFree, hfind, Option.getD_some]
      obtain ⟨-, hlt, hbefore⟩ := List.find?_range_eq_some.1 hfind
      refine ⟨k, Nat.le_of_lt_succ (List.mem_range.1 hlt), heq, hk, fun j hj => ?_⟩
      simpa using hbefore j hj

theorem firstFree_not_mem (hchoice : Function.Injective choice) (taken : List α) :
    firstFree taken choice ∉ taken := by
  obtain ⟨k, -, heq, hk, -⟩ := firstFree_eq hchoice taken
  exact heq ▸ hk

/-- A choice for a name is the name itself, or the name and a counter that starts at 2. -/
theorem numbered_eq (mark base : String) (k : Nat) :
    numbered mark base k = base ∨ ∃ c ≥ 2, numbered mark base k = base ++ mark ++ toString c := by
  cases k with
  | zero => exact .inl rfl
  | succ k => exact .inr ⟨k + 2, Nat.le_add_left 2 k, rfl⟩

/-- The numbered alternatives of a name differ from it and from each other. -/
theorem numbered_injective (mark base : String) : Function.Injective (numbered mark base) := by
  have hne : ∀ k, numbered mark base (k + 1) ≠ base := by
    intro k h
    have hlen := congrArg String.length h
    have hpos : 0 < (Nat.toDigits 10 (k + 2)).length := Nat.length_toDigits_pos
    simp only [numbered, String.length_append, String.length_ofList] at hlen
    omega
  intro i j h
  cases i with
  | zero =>
      cases j with
      | zero => rfl
      | succ j => exact absurd h.symm (hne j)
  | succ i =>
      cases j with
      | zero => exact absurd h (hne i)
      | succ j =>
          have hdigits : String.ofList (Nat.toDigits 10 (i + 2)) =
              String.ofList (Nat.toDigits 10 (j + 2)) := String.append_right_inj _ |>.1 h
          have hchars := String.ofList_injective hdigits
          have hvalue := congrArg (Nat.ofDigitChars 10 · 0) hchars
          simp only [Nat.ofDigitChars_ten_toDigits] at hvalue
          omega

end ApiModel
