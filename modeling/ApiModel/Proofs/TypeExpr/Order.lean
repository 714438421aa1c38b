/-
  ApiModel.Proofs.TypeExpr.Order

  When the order of the members does not matter to a union. Repetitions are dropped by equality but
  members are put by text, so the two have to agree: of two unequal types the same one must come
  first by text whichever of the types equal to them stand there. Over types for which this holds
  every order gives an equal union, and over types for which it does not there are orders that give
  unequal ones. Names of classes whose parts have no dots are such types.
-/
import ApiModel.Proofs.TypeExpr.Canonical
import Mathlib.Data.List.Forall2
import Mathlib.Data.List.Pairwise
import Mathlib.Data.List.Sort

namespace ApiModel.TypeExpr

variable {t u : TypeExpr} {ts us ms ns ls : List TypeExpr}

/-! ## Texts that agree with equality -/

/-- Of two unequal types among `ls` the same one comes first by text, whichever of the types equal
    to them are asked. -/
def TextsAgree (ls : List TypeExpr) : Prop :=
  ∀ t ∈ ls, ∀ t' ∈ ls, ∀ u ∈ ls, ∀ u' ∈ ls, t.same t' = true → u.same u' = true →
    t.same u = false → t.render ≤ u.render → t'.render < u'.render

/-- Texts agree with equality where they tell apart what equality does. -/
theorem textsAgree_of_iff (h : ∀ t ∈ ls, ∀ u ∈ ls, t.same u = true ↔ t.render = u.render) :
    TextsAgree ls := by
  intro t ht t' ht' u hu u' hu' htt' huu' hne hle
  rw [← (h t ht t' ht').1 htt', ← (h u hu u' hu').1 huu']
  refine Std.lt_of_le_of_ne hle fun heq => ?_
  rw [(h t ht u hu).2 heq] at hne
  cases hne

/-! ## Orders that do not matter -/

theorem Lists.mem_solid (h : Lists ms ts) (hu : u ∈ ms) : u ∈ solid ts :=
  TypeExpr.mem_solid.2 (h.left u hu)

theorem Lists.same_refl (h : Lists ms ts) (hkeys : ∀ t ∈ ts, t.DistinctKeys) (hu : u ∈ ms) :
    u.same u = true := ((h.left u hu).1.distinctKeys hkeys).same_refl

theorem Lists.strictly_ascending (h : Lists ms ts) (hkeys : ∀ t ∈ ts, t.DistinctKeys)
    (hagree : TextsAgree (solid ts)) : ms.Pairwise fun t u => t.render < u.render := by
  apply List.Pairwise.imp_of_mem _ (h.ascending.and h.unequal)
  intro t u ht hu htu
  exact hagree t (h.mem_solid ht) t (h.mem_solid ht) u (h.mem_solid hu) u (h.mem_solid hu)
    (h.same_refl hkeys ht) (h.same_refl hkeys hu) htu.2.1 htu.1

theorem Lists.eq_of_same (h : Lists ms ts) (ht : t ∈ ms) (hu : u ∈ ms) (hsame : t.same u = true) :
    t = u := by
  by_contra hne
  have hunequal := h.unequal.forall ht hu hne
  rw [hunequal.1] at hsame
  cases hsame

/-- What is left of some types is listed in one way only, up to equality. -/
theorem Lists.forall₂_same (hkeys : ∀ t ∈ ts, t.DistinctKeys) (hagree : TextsAgree (solid ts))
    (hms : Lists ms ts) (hns : Lists ns ts) :
    List.Forall₂ (fun m n => m.same n = true) ms ns := by
  have hpartner : ∀ n ∈ ns, ∃ m, m ∈ ms ∧ m.same n = true := fun n hn =>
    hms.complete n (hns.left n hn).1 (hns.left n hn).2
  choose! f hf using hpartner
  have hback : ∀ n ∈ ns, n.same (f n) = true := fun n hn =>
    ((hms.left _ (hf n hn).1).1.distinctKeys hkeys).same_symm
      ((hns.left n hn).1.distinctKeys hkeys) (hf n hn).2
  -- the partners of `ns` in `ms` ascend as well, and are all of `ms`
  have hascending : (ns.map f).Pairwise fun t u => t.render < u.render := by
    rw [List.pairwise_map]
    apply List.Pairwise.imp_of_mem _ (hns.ascending.and hns.unequal)
    intro n n' hn hn' h
    exact hagree n (hns.mem_solid hn) (f n) (hms.mem_solid (hf n hn).1) n' (hns.mem_solid hn')
      (f n') (hms.mem_solid (hf n' hn').1) (hback n hn) (hback n' hn') h.2.1 h.1
  have hmem : ∀ m, m ∈ ms ↔ m ∈ ns.map f := by
    intro m
    rw [List.mem_map]
    constructor
    · intro hm
      obtain ⟨n, hn, hnm⟩ := hns.complete m (hms.left m hm).1 (hms.left m hm).2
      have hsame := ((hms.left _ (hf n hn).1).1.distinctKeys hkeys).same_trans (hf n hn).2 hnm
      exact ⟨n, hn, hms.eq_of_same (hf n hn).1 hm hsame⟩
    · rintro ⟨n, hn, rfl⟩
      exact (hf n hn).1
  have hlt : Std.Antisymm fun t u : TypeExpr => t.render < u.render :=
    ⟨fun t u htu hut => absurd htu (String.not_lt.2 (Std.le_of_lt hut))⟩
  have hirrefl : Std.Irrefl fun t u : TypeExpr => t.render < u.render :=
    ⟨fun t => String.lt_irrefl t.render⟩
  rw [(hms.strictly_ascending hkeys hagree).eq_of_mem_iff hascending hmem,
    List.forall₂_map_left_iff, List.forall₂_same]
  exact fun n hn => (hf n hn).2

theorem LeftOf.perm (hperm : ts.Perm us) (h : LeftOf ts u) : LeftOf us u := by
  obtain ⟨hu, t, ht, ho⟩ := h
  exact ⟨hu, t, hperm.subset ht, ho⟩

theorem leftOf_perm (hperm : ts.Perm us) : LeftOf ts u ↔ LeftOf us u :=
  ⟨.perm hperm, .perm hperm.symm⟩

theorem admitsNullAny_perm (hperm : ts.Perm us) : admitsNullAny ts = admitsNullAny us := by
  rw [Bool.eq_iff_iff, admitsNullAny_iff, admitsNullAny_iff]
  simp only [hperm.mem_iff]

theorem Lists.perm (hperm : ts.Perm us) (h : Lists ms us) : Lists ms ts where
  left m hm := ⟨(h.left m hm).1.perm hperm.symm, (h.left m hm).2⟩
  complete u hu := h.complete u (hu.perm hperm)
  unequal := h.unequal
  ascending := h.ascending

theorem same_join (h : List.Forall₂ (fun m n => m.same n = true) ms ns) :
    (join ms).same (join ns) = true := by
  cases h with
  | nil => rfl
  | cons hmn hrest =>
      cases hrest with
      | nil => exact hmn
      | cons hmn' hrest => exact same_union_iff.2 ⟨_, rfl, .cons hmn (.cons hmn' hrest)⟩

/-- Types in any order have equal unions where texts agree with equality. -/
theorem same_unionOf_of_perm (hkeys : ∀ t ∈ ts, t.DistinctKeys) (hagree : TextsAgree (solid ts))
    (hperm : ts.Perm us) : (unionOf ts).same (unionOf us) = true := by
  by_cases hany : LeftOf ts .any
  · rw [unionOf_eq_any_iff.2 (mem_leavesAll_iff.2 hany),
      unionOf_eq_any_iff.2 (mem_leavesAll_iff.2 (hany.perm hperm))]
    rfl
  have hkeys' : ∀ t ∈ us, t.DistinctKeys := fun t ht => hkeys t (hperm.mem_iff.2 ht)
  have hcores : List.Forall₂ (fun m n => m.same n = true) (core ts) (core us) :=
    (lists_core hkeys).forall₂_same hkeys hagree ((lists_core hkeys').perm hperm)
  have hnil : core ts = [] ↔ core us = [] := by
    rw [← List.length_eq_zero_iff, hcores.length_eq, List.length_eq_zero_iff]
  rw [unionOf_of_not_any hany, unionOf_of_not_any (mt (leftOf_perm hperm).2 hany)]
  by_cases hcore : core ts = []
  · rw [if_pos hcore, if_pos (hnil.1 hcore)]
    rfl
  rw [if_neg hcore, if_neg (mt hnil.2 hcore), admitsNullAny_perm hperm]
  split
  · exact same_optional_iff.2 ⟨_, rfl, same_join hcores⟩
  · exact same_join hcores

/-! ## Orders that matter -/

/-- A type that unions hold as a member. -/
structure IsMember (t : TypeExpr) : Prop where
  leaf : t.isWrapper = false
  not_any : t ≠ .any
  not_null : t ≠ .null
  keys : t.DistinctKeys

theorem IsMember.leaves (h : t.IsMember) : t.leaves = [t] := (isLeaf_of_not_wrapper h.leaf).1

theorem IsMember.admitsNull (h : t.IsMember) : t.admitsNull = false :=
  Bool.eq_false_iff.2 fun hnull => h.not_null ((isLeaf_of_not_wrapper h.leaf).2 hnull)

theorem solid_of_members (h : ∀ t ∈ ts, t.IsMember) : solid ts = ts := by
  induction ts with
  | nil => rfl
  | cons t ts ih =>
      have ht := h t List.mem_cons_self
      have hnull : t.isNull = false := Bool.eq_false_iff.2 (mt isNull_iff.1 ht.not_null)
      have hrest := ih fun u hu => h u (List.mem_cons_of_mem t hu)
      rw [solid] at hrest ⊢
      rw [leavesAll, ht.leaves, List.singleton_append, List.filter_cons_of_pos (by simp [hnull]),
        hrest]

theorem unionOf_of_members (h : ∀ t ∈ ts, t.IsMember)
    (hcore : sortByText (distinct ts) = [t, u]) : unionOf ts = .union [t, u] := by
  have hany : ¬ LeftOf ts .any := by
    intro hany
    have hmem := mem_solid.2 ⟨hany, nofun⟩
    rw [solid_of_members h] at hmem
    exact (h _ hmem).not_any rfl
  have hnull : admitsNullAny ts = false := by
    rw [← Bool.not_eq_true, admitsNullAny_iff]
    rintro ⟨t, ht, hnull⟩
    rw [(h t ht).admitsNull] at hnull
    cases hnull
  rw [unionOf_of_not_any hany, core_eq, solid_of_members h, hcore, hnull]
  rfl

theorem sortByText_eq_self (h : Ascending ts) : sortByText ts = ts :=
  (sameByText_sortByText ts).eq (ascending_sortByText ts) h

/-- Of two pairs of equal types, those that come first are the union, if they are by text. -/
theorem unionOf_pairs {t' u' : TypeExpr} (ht : t.IsMember) (ht' : t'.IsMember) (hu : u.IsMember)
    (hu' : u'.IsMember) (htt' : t.same t' = true) (huu' : u.same u' = true)
    (htu : t.same u = false) (hle : t.render ≤ u.render) :
    unionOf [t, u, t', u'] = .union [t, u] := by
  have htu' : t.same u' = false := by
    rwa [← same_congr_right ht.keys hu.keys hu'.keys huu']
  have hothers : others t [u, t', u'] = [u, u'] := by simp [others, htu, htt', htu']
  have hothers' : others u [u'] = [] := by simp [others, huu']
  apply unionOf_of_members
  · simp [ht, ht', hu, hu']
  · rw [distinct_cons, hothers, distinct_cons, hothers', distinct_nil]
    exact sortByText_eq_self (List.pairwise_pair.2 hle)

/-- Texts agree with equality just where no order matters. -/
theorem same_of_perm_iff_textsAgree (hmembers : ∀ t ∈ ls, t.IsMember) :
    (∀ ts us : List TypeExpr, (∀ t ∈ ts, t ∈ ls) → ts.Perm us →
      (unionOf ts).same (unionOf us) = true) ↔ TextsAgree ls := by
  constructor
  · intro h t ht t' ht' u hu u' hu' htt' huu' htu hle
    have hmt := hmembers t ht
    have hmt' := hmembers t' ht'
    have hmu := hmembers u hu
    have hmu' := hmembers u' hu'
    have hut' : u'.same t' = false := by
      rw [← same_congr_right hmu'.keys hmt.keys hmt'.keys htt', same_comm hmu'.keys hmt.keys,
        ← same_congr_right hmt.keys hmu.keys hmu'.keys huu', htu]
    rw [← Std.not_le]
    intro hle'
    -- from left to right the first pair is the union, from right to left the second
    have hsame := h [t, u, t', u'] [u', t', u, t] (by simp [ht, ht', hu, hu'])
      (List.reverse_perm [t, u, t', u']).symm
    rw [unionOf_pairs hmt hmt' hmu hmu' htt' huu' htu hle,
      unionOf_pairs hmu' hmu hmt' hmt (hmu.keys.same_symm hmu'.keys huu')
        (hmt.keys.same_symm hmt'.keys htt') hut' hle', same_union_iff] at hsame
    obtain ⟨_, heq, hpair⟩ := hsame
    cases heq
    cases hpair with
    | cons htu' _ =>
        rw [← same_congr_right hmt.keys hmu.keys hmu'.keys huu', htu] at htu'
        cases htu'
  · intro h ts us hts hperm
    apply same_unionOf_of_perm (fun t ht => (hmembers t (hts t ht)).keys) _ hperm
    rw [solid_of_members fun t ht => hmembers t (hts t ht)]
    exact fun t ht t' ht' u hu u' hu' =>
      h t (hts t ht) t' (hts t' ht') u (hts u hu) u' (hts u' hu')

theorem sortByText_swap (h : u.render < t.render) : sortByText [t, u] = [u, t] := by
  have hswap : SameByText [t, u] [u, t] := by
    intro text
    have hne : t.render = text → u.render ≠ text := by
      rintro rfl
      exact Std.ne_of_lt h
    simp only [withText_cons]
    by_cases ht : t.render = text
    · rw [if_pos ht, if_neg (hne ht), if_neg (hne ht), if_pos ht]
    · rw [if_neg ht, if_neg ht]
  rw [hswap.sortByText_eq]
  exact sortByText_eq_self (List.pairwise_pair.2 (Std.le_of_lt h))

/-- The first and the last of these literals are equal up to the order of their keys, and the one
    between them is so by text as well: which of the two comes first decides its place. -/
theorem not_same_unionOf_reordered :
    let ids : TypeExpr := .literal [.obj [("id", .null), ("tag", .null)]]
    let name : TypeExpr := .literal [.obj [("name", .null)]]
    let tags : TypeExpr := .literal [.obj [("tag", .null), ("id", .null)]]
    (unionOf [ids, name, tags]).same (unionOf [tags, name, ids]) = false := by
  intro ids name tags
  have hids : ids.IsMember :=
    ⟨rfl, nofun, nofun, DistinctKeys.literal_iff.2 (by simp [Json.Distinct.null])⟩
  have hname : name.IsMember :=
    ⟨rfl, nofun, nofun, DistinctKeys.literal_iff.2 (by simp [Json.Distinct.null])⟩
  have htags : tags.IsMember :=
    ⟨rfl, nofun, nofun, DistinctKeys.literal_iff.2 (by simp [Json.Distinct.null])⟩
  have hforth : unionOf [ids, name, tags] = .union [ids, name] := by
    apply unionOf_of_members (by simp [hids, hname, htags])
    rw [show distinct [ids, name, tags] = [ids, name] from rfl]
    exact sortByText_eq_self (List.pairwise_pair.2 (by decide +kernel))
  have hback : unionOf [tags, name, ids] = .union [name, tags] := by
    apply unionOf_of_members (by simp [hids, hname, htags])
    rw [show distinct [tags, name, ids] = [tags, name] from rfl]
    exact sortByText_swap (by decide +kernel)
  rw [hforth, hback]
  rfl

end ApiModel.TypeExpr

/-! ## Classes -/

namespace ApiModel.TypeName

/-- The module path and the name, one after the other. -/
def parts (n : TypeName) : List String := n.module ++ [n.name]

/-- No part of a class name has a dot. -/
def Undotted (n : TypeName) : Prop := ∀ s ∈ n.parts, '.' ∉ s.toList

theorem intercalate_concat (s : String) (ss : List String) (last : String) :
    ".".intercalate (s :: ss ++ [last]) = ".".intercalate (s :: ss) ++ "." ++ last := by
  induction ss generalizing s with
  | nil => rw [List.singleton_append, String.intercalate_cons_cons]; rfl
  | cons t ss ih =>
      rw [List.cons_append, List.cons_append, String.intercalate_cons_cons, ← List.cons_append, ih,
        String.intercalate_cons_cons]
      simp only [String.append_assoc]

/-- The text of a class name is its parts with dots between them. -/
theorem render_eq (n : TypeName) : n.render = ".".intercalate n.parts := by
  obtain ⟨module, name⟩ := n
  cases module with
  | nil => rfl
  | cons s ss => exact (intercalate_concat s ss name).symm

/-- Class names without dots in their parts are told apart by their texts. -/
theorem eq_of_render_eq {m n : TypeName} (hm : m.Undotted) (hn : n.Undotted)
    (h : m.render = n.render) : m = n := by
  have hsplit : ∀ n : TypeName, n.Undotted →
      n.render.toList.splitOn '.' = n.parts.map String.toList := by
    intro n hn
    rw [render_eq, String.toList_intercalate]
    apply List.splitOn_intercalate
    · intro cs hcs
      obtain ⟨s, hs, rfl⟩ := List.mem_map.1 hcs
      exact hn s hs
    · simp [parts]
  have hparts : m.parts = n.parts := by
    have htexts := hsplit m hm
    rw [h, hsplit n hn] at htexts
    exact ((List.map_inj_right fun s t => String.toList_inj.1).1 htexts).symm
  obtain ⟨hmodule, hname⟩ := List.append_inj' hparts rfl
  cases m
  cases n
  simp_all

end ApiModel.TypeName

namespace ApiModel.TypeExpr

/-- Classes whose names have no dots in their parts have equal unions in any order. -/
theorem same_unionOf_named_of_perm {ns ms : List TypeName} (hns : ∀ n ∈ ns, n.Undotted)
    (hperm : ns.Perm ms) : (unionOf (ns.map .named)).same (unionOf (ms.map .named)) = true := by
  have hmembers : ∀ t ∈ ns.map TypeExpr.named, t.IsMember := by
    intro t ht
    obtain ⟨n, -, rfl⟩ := List.mem_map.1 ht
    exact ⟨rfl, nofun, nofun, .named n⟩
  have hagree : TextsAgree (ns.map .named) := by
    apply textsAgree_of_iff
    intro t ht u hu
    obtain ⟨m, hm, rfl⟩ := List.mem_map.1 ht
    obtain ⟨n, hn, rfl⟩ := List.mem_map.1 hu
    rw [same_named_iff, render, render, TypeExpr.named.injEq]
    constructor
    · rintro rfl
      rfl
    · exact fun h => (TypeName.eq_of_render_eq (hns m hm) (hns n hn) h).symm
  exact (same_of_perm_iff_textsAgree hmembers).2 hagree _ _ (fun _ ht => ht) (hperm.map _)

end ApiModel.TypeExpr
