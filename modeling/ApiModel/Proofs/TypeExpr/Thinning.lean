/-
  ApiModel.Proofs.TypeExpr.Thinning

  What dropping repetitions and sorting by text do to a list of types. Dropping repetitions keeps
  the first of the types that equal one another, so it goes on with those that do not equal the
  head. Sorting is stable: for each text, the types with that text come out as they went in, and
  this alone decides a sorted list. None of this needs the equality of types to be an equivalence.
-/
import ApiModel.TypeExpr
import Mathlib.Data.List.Basic

namespace ApiModel.TypeExpr

variable {t u : TypeExpr} {ts us : List TypeExpr} {p : TypeExpr → Bool}

/-! ## Dropping repetitions -/

theorem foldl_eq_eraseDupsBy (ts seen : List TypeExpr) :
    ts.foldl (fun seen t => if seen.any (·.same t) then seen else seen ++ [t]) seen =
      List.eraseDupsBy.loop (fun t s => s.same t) ts seen.reverse := by
  induction ts generalizing seen with
  | nil => rw [List.foldl_nil, List.eraseDupsBy.loop, List.reverse_reverse]
  | cons t ts ih =>
      rw [List.foldl_cons, ih, List.eraseDupsBy.loop, List.any_reverse]
      cases h : seen.any fun s => s.same t with
      | true => rw [if_pos rfl]
      | false => rw [if_neg Bool.false_ne_true, List.reverse_concat]

/-- The types other than those that `t` equals. -/
def others (t : TypeExpr) (ts : List TypeExpr) : List TypeExpr := ts.filter fun u => !t.same u

theorem mem_others : u ∈ others t ts ↔ u ∈ ts ∧ t.same u = false := by
  rw [others, List.mem_filter, Bool.not_eq_true']

theorem distinct_nil : distinct [] = [] := rfl

theorem distinct_cons (t : TypeExpr) (ts : List TypeExpr) :
    distinct (t :: ts) = t :: distinct (others t ts) := by
  have herase : ∀ us, distinct us = us.eraseDupsBy fun u s => s.same u :=
    fun us => foldl_eq_eraseDupsBy us []
  have hothers : others t ts = ts.filter fun u => decide (t.same u = false) := by
    apply List.filter_congr
    intro u _
    cases t.same u <;> rfl
  rw [herase, herase, List.eraseDupsBy_cons, hothers]

/-- Induction along `distinct`: after the head come the types that it does not equal. -/
theorem distinct_induction {P : List TypeExpr → Prop} (nil : P [])
    (cons : ∀ t ts, P (others t ts) → P (t :: ts)) (ts : List TypeExpr) : P ts := by
  cases ts with
  | nil => exact nil
  | cons t ts => exact cons t ts (distinct_induction nil cons (others t ts))
termination_by ts.length
decreasing_by
  have hle : (others t ts).length ≤ ts.length := List.length_filter_le _ ts
  rw [List.length_cons]
  omega

theorem distinct_sublist (ts : List TypeExpr) : (distinct ts).Sublist ts := by
  induction ts using distinct_induction with
  | nil => exact List.Sublist.slnil
  | cons t ts ih =>
      rw [distinct_cons]
      exact (ih.trans List.filter_sublist).cons_cons t

theorem mem_of_mem_distinct (h : t ∈ distinct ts) : t ∈ ts := (distinct_sublist ts).subset h

/-- No type left equals a later one. -/
theorem pairwise_distinct (ts : List TypeExpr) :
    (distinct ts).Pairwise fun t u => t.same u = false := by
  induction ts using distinct_induction with
  | nil => exact List.Pairwise.nil
  | cons t ts ih =>
      rw [distinct_cons, List.pairwise_cons]
      exact ⟨fun u hu => (mem_others.1 (mem_of_mem_distinct hu)).2, ih⟩

/-- What is dropped equals a type that is left. -/
theorem mem_distinct_or_same (h : u ∈ ts) :
    u ∈ distinct ts ∨ ∃ t ∈ distinct ts, t.same u = true := by
  induction ts using distinct_induction with
  | nil => cases h
  | cons t ts ih =>
      rw [distinct_cons]
      rcases List.mem_cons.1 h with rfl | h
      · exact .inl List.mem_cons_self
      cases hsame : t.same u with
      | true => exact .inr ⟨t, List.mem_cons_self, hsame⟩
      | false =>
          rcases ih (mem_others.2 ⟨h, hsame⟩) with hu | ⟨s, hs, hsu⟩
          · exact .inl (List.mem_cons_of_mem t hu)
          · exact .inr ⟨s, List.mem_cons_of_mem t hs, hsu⟩

theorem distinct_eq_nil (h : distinct ts = []) : ts = [] := by
  cases ts with
  | nil => rfl
  | cons t ts =>
      rw [distinct_cons] at h
      cases h

theorem distinct_eq_self (h : ts.Pairwise fun t u => t.same u = false) : distinct ts = ts := by
  induction ts with
  | nil => rfl
  | cons t ts ih =>
      obtain ⟨ht, hts⟩ := List.pairwise_cons.1 h
      have hothers : others t ts = ts :=
        List.filter_eq_self.2 fun u hu => by rw [ht u hu, Bool.not_false]
      rw [distinct_cons, hothers, ih hts]

theorem others_append (t : TypeExpr) (ts us : List TypeExpr) :
    others t (ts ++ us) = others t ts ++ others t us := List.filter_append ..

/-- Of what comes later, only what equals nothing so far is left. -/
theorem distinct_append (ts us : List TypeExpr) :
    distinct (ts ++ us) =
      distinct ts ++ distinct (us.filter fun u => !(distinct ts).any (·.same u)) := by
  induction ts using distinct_induction generalizing us with
  | nil =>
      have hall : (us.filter fun u => !(distinct []).any (·.same u)) = us :=
        List.filter_eq_self.2 fun u _ => rfl
      rw [List.nil_append, hall, distinct_nil, List.nil_append]
  | cons t ts ih =>
      rw [List.cons_append, distinct_cons, others_append, ih, distinct_cons, List.cons_append]
      have hrest : ((others t us).filter fun u => !(distinct (others t ts)).any (·.same u)) =
          us.filter fun u => !(t :: distinct (others t ts)).any (·.same u) := by
        rw [others.eq_1 t us, List.filter_filter]
        apply List.filter_congr
        intro u _
        rw [List.any_cons, Bool.not_or, Bool.and_comm]
      rw [hrest]

/-- A test that cannot tell equal types apart may be made before or after. -/
theorem distinct_filter (h : ∀ t ∈ ts, ∀ u ∈ ts, t.same u = true → p t = p u) :
    distinct (ts.filter p) = (distinct ts).filter p := by
  induction ts using distinct_induction with
  | nil => rfl
  | cons t ts ih =>
      have hothers : (others t ts).filter p = others t (ts.filter p) := by
        rw [others, others, List.filter_filter, List.filter_filter]
        apply List.filter_congr
        intro u _
        rw [Bool.and_comm]
      have hmem : ∀ s ∈ others t ts, s ∈ t :: ts := fun s hs =>
        List.mem_cons_of_mem t (mem_others.1 hs).1
      have hrest := ih fun s hs u hu => h s (hmem s hs) u (hmem u hu)
      rw [hothers] at hrest
      rw [distinct_cons]
      cases hp : p t with
      | true => rw [List.filter_cons_of_pos hp, List.filter_cons_of_pos hp, distinct_cons, hrest]
      | false =>
          -- the test refuses all that `t` equals as well
          have hkept : others t (ts.filter p) = ts.filter p := by
            apply List.filter_eq_self.2
            intro u hu
            obtain ⟨hu, hpu⟩ := List.mem_filter.1 hu
            rw [Bool.not_eq_true', Bool.eq_false_iff]
            intro hsame
            rw [← h t List.mem_cons_self u (List.mem_cons_of_mem t hu) hsame, hp] at hpu
            cases hpu
          rw [List.filter_cons_of_neg (by simp [hp]), List.filter_cons_of_neg (by simp [hp]),
            ← hrest, hkept]

/-! ## Sorting by text -/

/-- The types with a given text. -/
def withText (text : String) (ts : List TypeExpr) : List TypeExpr :=
  ts.filter fun t => t.render == text

theorem withText_append (text : String) (ts us : List TypeExpr) :
    withText text (ts ++ us) = withText text ts ++ withText text us := List.filter_append ..

theorem withText_cons (text : String) (t : TypeExpr) (ts : List TypeExpr) :
    withText text (t :: ts) =
      if t.render = text then t :: withText text ts else withText text ts := by
  rw [withText, List.filter_cons]
  simp only [beq_iff_eq]
  rfl

theorem mem_withText {text : String} : t ∈ withText text ts ↔ t ∈ ts ∧ t.render = text := by
  rw [withText, List.mem_filter, beq_iff_eq]

/-- Whether a type may stand before another by their texts. -/
def precedes (t u : TypeExpr) : Bool := !(u.render < t.render)

theorem precedes_iff : t.precedes u = true ↔ t.render ≤ u.render := by
  rw [precedes, Bool.not_eq_true', decide_eq_false_iff_not, String.not_lt]

theorem precedes_trans (s t u : TypeExpr) (hst : s.precedes t = true)
    (htu : t.precedes u = true) : s.precedes u = true :=
  precedes_iff.2 (String.le_trans (precedes_iff.1 hst) (precedes_iff.1 htu))

theorem precedes_total (t u : TypeExpr) : (t.precedes u || u.precedes t) = true := by
  rw [Bool.or_eq_true, precedes_iff, precedes_iff]
  exact String.le_total t.render u.render

theorem sortByText_eq (ts : List TypeExpr) : sortByText ts = ts.mergeSort precedes := by
  have hdecorated : (ts.mergeSort precedes).map (fun t => (t.render, t)) =
      (ts.map fun t => (t.render, t)).mergeSort fun a b => !(b.1 < a.1) :=
    List.map_mergeSort fun t _ u _ => rfl
  rw [sortByText, ← hdecorated, List.map_map]
  exact List.map_id' _

theorem perm_sortByText (ts : List TypeExpr) : (sortByText ts).Perm ts := by
  rw [sortByText_eq]
  exact List.mergeSort_perm ts precedes

theorem mem_sortByText : t ∈ sortByText ts ↔ t ∈ ts := (perm_sortByText ts).mem_iff

/-- The texts of a list of types ascend. -/
def Ascending (ts : List TypeExpr) : Prop := ts.Pairwise fun t u => t.render ≤ u.render

theorem ascending_sortByText (ts : List TypeExpr) : Ascending (sortByText ts) := by
  rw [sortByText_eq]
  exact (List.pairwise_mergeSort precedes_trans precedes_total ts).imp precedes_iff.1

/-- Types with the same text keep their order. -/
theorem withText_sortByText (text : String) (ts : List TypeExpr) :
    withText text (sortByText ts) = withText text ts := by
  have htexts : (withText text ts).Pairwise fun t u => t.precedes u = true := by
    apply List.Pairwise.imp_of_mem (R := fun _ _ => True) _
      (List.pairwise_of_forall fun _ _ => trivial)
    intro t u ht hu _
    have htext : t.render = u.render := (mem_withText.1 ht).2.trans (mem_withText.1 hu).2.symm
    exact precedes_iff.2 (htext ▸ String.le_refl t.render)
  have hsub : (withText text ts).Sublist (sortByText ts) := by
    rw [sortByText_eq]
    exact List.sublist_mergeSort precedes_trans precedes_total htexts List.filter_sublist
  have hagain : withText text (withText text ts) = withText text ts :=
    List.filter_eq_self.2 fun t ht => beq_iff_eq.2 (mem_withText.1 ht).2
  have hclass : (withText text ts).Sublist (withText text (sortByText ts)) := by
    rw [← hagain]
    exact hsub.filter _
  exact (hclass.eq_of_length ((perm_sortByText ts).filter _).length_eq.symm).symm

/-- The first of a list with ascending texts has the least text. -/
theorem Ascending.head_le (h : Ascending (t :: ts)) (hu : u ∈ t :: ts) : t.render ≤ u.render := by
  rcases List.mem_cons.1 hu with rfl | hu
  · exact String.le_refl u.render
  · exact List.rel_of_pairwise_cons h hu

/-- Two lists hold the same of each text, in the same order. -/
def SameByText (ts us : List TypeExpr) : Prop := ∀ text, withText text ts = withText text us

theorem SameByText.refl (ts : List TypeExpr) : SameByText ts ts := fun _ => rfl

theorem SameByText.append {ts' us' : List TypeExpr} (h : SameByText ts us)
    (h' : SameByText ts' us') : SameByText (ts ++ ts') (us ++ us') := by
  intro text
  rw [withText_append, withText_append, h text, h' text]

theorem SameByText.filter (h : SameByText ts us) : SameByText (ts.filter p) (us.filter p) := by
  have hswap : ∀ text vs, withText text (vs.filter p) = (withText text vs).filter p := by
    intro text vs
    rw [withText, withText, List.filter_filter, List.filter_filter]
    apply List.filter_congr
    intro v _
    rw [Bool.and_comm]
  intro text
  rw [hswap, hswap, h text]

theorem SameByText.mem_iff (h : SameByText ts us) : t ∈ ts ↔ t ∈ us := by
  have hts : t ∈ withText t.render ts ↔ t ∈ ts := mem_withText.trans (and_iff_left rfl)
  have hus : t ∈ withText t.render us ↔ t ∈ us := mem_withText.trans (and_iff_left rfl)
  rw [← hts, h, hus]

/-- A list with ascending texts is decided by what it holds of each text. -/
theorem SameByText.eq (h : SameByText ts us) (hts : Ascending ts) (hus : Ascending us) :
    ts = us := by
  induction ts generalizing us with
  | nil =>
      cases us with
      | nil => rfl
      | cons u us => cases h.mem_iff.2 List.mem_cons_self
  | cons t ts ih =>
      cases us with
      | nil => cases h.mem_iff.1 List.mem_cons_self
      | cons u us =>
          have htext : t.render = u.render :=
            String.le_antisymm
              (hts.head_le (h.mem_iff.2 List.mem_cons_self))
              (hus.head_le (h.mem_iff.1 List.mem_cons_self))
          -- both heads are the first of their lists with this text
          have hhead := h t.render
          rw [withText_cons, withText_cons, if_pos rfl, if_pos htext.symm] at hhead
          obtain ⟨rfl, -⟩ := List.cons.inj hhead
          have hrest : SameByText ts us := by
            intro text
            have hall := h text
            rw [withText_cons, withText_cons] at hall
            by_cases heq : t.render = text
            · rw [if_pos heq, if_pos heq] at hall
              exact (List.cons.inj hall).2
            · rwa [if_neg heq, if_neg heq] at hall
          rw [ih hrest (List.pairwise_cons.1 hts).2 (List.pairwise_cons.1 hus).2]

theorem sameByText_sortByText (ts : List TypeExpr) : SameByText (sortByText ts) ts :=
  fun text => withText_sortByText text ts

theorem SameByText.sortByText_eq (h : SameByText ts us) : sortByText ts = sortByText us := by
  have hsorted : SameByText (sortByText ts) (sortByText us) := by
    intro text
    rw [withText_sortByText, withText_sortByText, h text]
  exact hsorted.eq (ascending_sortByText ts) (ascending_sortByText us)

end ApiModel.TypeExpr
