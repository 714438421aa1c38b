/-
  ApiModel.Proofs.SortedSet

  Sets stay ascending. A set grows by putting members in their places, so its list is ascending from
  the start, and adding what is there already leaves the list as it is.
-/
import ApiModel.SortedSet
import Mathlib.Data.List.Sort
import Mathlib.Data.String.Basic
import Mathlib.Order.RelClasses

namespace ApiModel.SortedSet

variable {α : Type} [LT α] [DecidableLT α] [DecidableEq α] [IsStrictTotalOrder α (· < ·)]
  {s t : SortedSet α} {x : α} {xs ys : List α}

/-- The list of the members is ascending. -/
def Ascending {α : Type} [LT α] (s : SortedSet α) : Prop := s.elements.Pairwise (· < ·)

theorem pairwise_place (h : ys.Pairwise (· < ·)) : (place x ys).Pairwise (· < ·) := by
  induction ys with
  | nil => simp [place]
  | cons y ys ih =>
      obtain ⟨hy, hys⟩ := List.pairwise_cons.1 h
      unfold place
      split
      · next hxy =>
          refine List.pairwise_cons.2 ⟨fun z hz => ?_, h⟩
          rcases List.mem_cons.1 hz with rfl | hz
          · exact hxy
          · exact trans_of (· < ·) hxy (hy z hz)
      · next hnot =>
          split
          · exact h
          · next hne =>
              have hyx : y < x := by
                rcases trichotomous_of (· < ·) x y with h | h | h
                · exact absurd h hnot
                · exact absurd h hne
                · exact h
              refine List.pairwise_cons.2 ⟨fun z hz => ?_, ih hys⟩
              rcases mem_place.1 hz with rfl | hz
              · exact hyx
              · exact hy z hz

theorem place_of_mem (h : ys.Pairwise (· < ·)) (hx : x ∈ ys) : place x ys = ys := by
  induction ys with
  | nil => cases hx
  | cons y ys ih =>
      obtain ⟨hy, hys⟩ := List.pairwise_cons.1 h
      unfold place
      by_cases hxy : x = y
      · subst hxy
        rw [if_neg (irrefl_of (· < ·) x), if_pos rfl]
      · have hmem : x ∈ ys := (List.mem_cons.1 hx).resolve_left hxy
        rw [if_neg (asymm_of (· < ·) (hy x hmem)), if_neg hxy, ih hys hmem]

theorem ascending_empty {α : Type} [LT α] : (empty : SortedSet α).Ascending := List.Pairwise.nil

theorem ascending_foldl_insert (h : s.Ascending) : (xs.foldl insert s).Ascending := by
  induction xs generalizing s with
  | nil => exact h
  | cons x xs ih => exact ih (s := s.insert x) (pairwise_place h)

theorem ascending_ofList : (ofList xs).Ascending := ascending_foldl_insert ascending_empty

theorem ascending_union (h : s.Ascending) : (s.union t).Ascending := ascending_foldl_insert h

/-- Nothing new is added by members of the set. -/
theorem union_of_subset (h : s.Ascending) (hst : ∀ x ∈ t.elements, x ∈ s.elements) :
    s.union t = s := by
  unfold union
  revert hst
  induction t.elements with
  | nil => exact fun _ => rfl
  | cons x xs ih =>
      intro hst
      have hx : s.insert x = s := by
        unfold insert
        rw [place_of_mem h (hst x (by simp))]
      rw [List.foldl_cons, hx]
      exact ih fun y hy => hst y (by simp [hy])

omit [DecidableLT α] [DecidableEq α] in
/-- Two ascending sets with the same members are one set. -/
theorem eq_of_mem_iff (hs : s.Ascending) (ht : t.Ascending)
    (h : ∀ x, x ∈ s.elements ↔ x ∈ t.elements) : s = t := by
  have hlist : s.elements = t.elements := List.Pairwise.eq_of_mem_iff hs ht h
  cases s
  exact congrArg SortedSet.mk hlist

/-- Members put in their places one after the other make up the set again. -/
theorem empty_union (ht : t.Ascending) : empty.union t = t :=
  eq_of_mem_iff (ascending_union ascending_empty) ht fun x => by simp [mem_union, empty]

end ApiModel.SortedSet
