/-
  ApiModel.Proofs.Dict

  A finite map seen through its keys. As long as no key repeats, the entries, the values and the
  lookups tell the same story, and two maps with the same entries look up alike.
-/
import ApiModel.Dict
import Mathlib.Data.List.Induction
import Mathlib.Data.List.Perm.Subperm

namespace ApiModel.Dict

variable {κ α : Type} [DecidableEq κ] {d d' : Dict κ α} {k : κ} {v : α}

theorem contains_iff : d.contains k = true ↔ k ∈ d.keys := by
  unfold contains get? keys
  rw [List.lookup_isSome_iff, List.mem_map]
  constructor
  · rintro ⟨e, he, hk⟩
    exact ⟨e, he, (eq_of_beq hk).symm⟩
  · rintro ⟨e, he, rfl⟩
    exact ⟨e, he, beq_self_eq_true e.1⟩

theorem contains_of_get? (h : d.get? k = some v) : d.contains k = true := by
  simp [contains, h]

theorem get?_eq_none_iff : d.get? k = none ↔ k ∉ d.keys := by
  rw [← contains_iff, contains]
  cases d.get? k <;> simp

theorem eq_of_keys_eq_singleton {k' : κ} (hd : d.keys = [k']) (h : d.get? k ≠ none) : k = k' := by
  rwa [ne_eq, get?_eq_none_iff, hd, not_not, List.mem_singleton] at h

theorem mem_entries_of_get? (h : d.get? k = some v) : (k, v) ∈ d.entries := by
  obtain ⟨l₁, l₂, hd, -⟩ := List.lookup_eq_some_iff.1 h
  simp [hd]

theorem mem_values_of_get? (h : d.get? k = some v) : v ∈ d.values :=
  List.mem_map.2 ⟨(k, v), mem_entries_of_get? h, rfl⟩

theorem lookup_of_mem {es : List (κ × α)} (hes : (es.map Prod.fst).Nodup) (h : (k, v) ∈ es) :
    es.lookup k = some v := by
  induction es with
  | nil => simp at h
  | cons e es ih =>
      rw [List.map_cons, List.nodup_cons] at hes
      rw [List.lookup_cons]
      rcases List.mem_cons.1 h with rfl | hmem
      · simp
      · have hne : k ≠ e.1 := by
          rintro rfl
          exact hes.1 (List.mem_map.2 ⟨(e.1, v), hmem, rfl⟩)
        rw [beq_false_of_ne hne]
        exact ih hes.2 hmem

theorem get?_of_mem (hd : d.keys.Nodup) (h : (k, v) ∈ d.entries) : d.get? k = some v :=
  lookup_of_mem hd h

theorem get?_of_mem_values (hd : d.keys.Nodup) (h : v ∈ d.values) : ∃ k, d.get? k = some v := by
  obtain ⟨⟨k, w⟩, he, rfl⟩ := List.mem_map.1 h
  exact ⟨k, get?_of_mem hd he⟩

theorem mem_put {e : κ × α} {es : List (κ × α)} (h : e ∈ put k v es) : e = (k, v) ∨ e ∈ es := by
  induction es with
  | nil => exact .inl (List.mem_singleton.1 h)
  | cons e' es ih =>
      rw [put] at h
      split at h
      · rcases List.mem_cons.1 h with h | h
        · exact .inl h
        · exact .inr (List.mem_cons_of_mem e' h)
      · rcases List.mem_cons.1 h with h | h
        · exact .inr (h ▸ List.mem_cons_self)
        · rcases ih h with h | h
          · exact .inl h
          · exact .inr (List.mem_cons_of_mem e' h)

/-- The values of a map made of a list are values of the list. -/
theorem mem_values_ofList {es : List (κ × α)} (h : v ∈ (ofList es).values) :
    v ∈ es.map Prod.snd := by
  have hgen : ∀ (es : List (κ × α)) (d : Dict κ α), ∀ e ∈
      (es.foldl (fun d e => d.insert e.1 e.2) d).entries, e ∈ d.entries ∨ e ∈ es := by
    intro es
    induction es with
    | nil => exact fun d e he => .inl he
    | cons e' es ih =>
        intro d e he
        rcases ih _ e he with he | he
        · rcases mem_put he with he | he
          · exact .inr (he ▸ List.mem_cons_self)
          · exact .inl he
        · exact .inr (List.mem_cons_of_mem e' he)
  obtain ⟨e, he, rfl⟩ := List.mem_map.1 h
  rcases hgen es empty e he with he | he
  · cases he
  · exact List.mem_map.2 ⟨e, he, rfl⟩

/-! ## Maps made of lists -/

theorem ofList_concat (es : List (κ × α)) (e : κ × α) :
    ofList (es ++ [e]) = (ofList es).insert e.1 e.2 := by
  unfold ofList
  rw [List.foldl_append]
  rfl

/-- A repeated key keeps its first place. -/
theorem keys_ofList (es : List (κ × α)) : (ofList es).keys = (es.map Prod.fst).eraseDups := by
  induction es using List.reverseRecOn with
  | nil => rfl
  | append_singleton es e ih =>
      -- of one further key nothing is left if it has been there
      have hlast : [e.1].removeAll (es.map Prod.fst) =
          if e.1 ∈ es.map Prod.fst then [] else [e.1] := by
        generalize es.map Prod.fst = ks
        by_cases he : e.1 ∈ ks <;> simp [List.removeAll, he]
      rw [ofList_concat, keys_insert, ih, List.map_append, List.map_singleton,
        List.eraseDups_append, hlast]
      simp only [List.mem_eraseDups]
      split
      · exact (List.append_nil _).symm
      · rfl

/-- A repeated key keeps its last value. -/
theorem get?_ofList (es : List (κ × α)) (k : κ) : (ofList es).get? k = es.reverse.lookup k := by
  induction es using List.reverseRecOn with
  | nil => rfl
  | append_singleton es e ih =>
      rw [ofList_concat, get?_insert, ih, List.reverse_append, List.reverse_singleton,
        List.singleton_append, List.lookup_cons]
      by_cases hk : k = e.1
      · simp [hk]
      · rw [if_neg hk, beq_false_of_ne hk]

/-- Where no key repeats, the values are those of the keys, in order. -/
theorem values_eq_filterMap (hd : d.keys.Nodup) : d.values = d.keys.filterMap d.get? := by
  unfold values keys
  rw [List.filterMap_map, ← List.filterMap_eq_map]
  refine List.filterMap_congr fun e he => ?_
  exact (get?_of_mem hd he).symm

theorem nodup_keys_ofList (es : List (κ × α)) : (ofList es).keys.Nodup := by
  induction es using List.reverseRecOn with
  | nil => exact List.nodup_nil
  | append_singleton es e ih =>
      rw [ofList_concat]
      exact nodup_keys_insert ih _ _

/-! ## Order -/

omit [DecidableEq κ] in
/-- Putting the keys in order moves entries about and does nothing else. -/
theorem perm_sortByKey [LT κ] [DecidableLT κ] (d : Dict κ α) :
    d.sortByKey.entries.Perm d.entries :=
  List.mergeSort_perm _ _

/-- Where no key repeats, it does not matter for lookups in which order the entries stand. -/
theorem get?_eq_of_perm (h : d.entries.Perm d'.entries) (hd : d.keys.Nodup) (k : κ) :
    d.get? k = d'.get? k := by
  have hd' : d'.keys.Nodup := (h.map Prod.fst).nodup_iff.1 hd
  cases hk : d.get? k with
  | some v => exact (get?_of_mem hd' (h.mem_iff.1 (mem_entries_of_get? hk))).symm
  | none =>
      refine (get?_eq_none_iff.2 fun hmem => get?_eq_none_iff.1 hk ?_).symm
      exact (h.map Prod.fst).mem_iff.2 hmem

/-- A new key comes last, and a known one changes nothing. -/
theorem entries_prefix_insertIfNew (d : Dict κ α) (k : κ) (v : α) :
    d.entries <+: (d.insertIfNew k v).entries := by
  unfold insertIfNew
  split
  · exact List.prefix_rfl
  · next hk =>
      have hput : ∀ es : List (κ × α), k ∉ es.map Prod.fst → put k v es = es ++ [(k, v)] := by
        intro es hes
        induction es with
        | nil => rfl
        | cons e es ih =>
            rw [List.map_cons, List.mem_cons, not_or] at hes
            rw [put, if_neg (Ne.symm hes.1), ih hes.2, List.cons_append]
      refine ⟨[(k, v)], (hput _ ?_).symm⟩
      exact fun hmem => hk (contains_iff.2 hmem)

/-- Maps with the same entries have the same values under all keys. -/
theorem get?_eq_of_sameEntries [BEq α] [LawfulBEq α] (hd : d.keys.Nodup)
    (h : d.sameEntries d' = true) (k : κ) : d.get? k = d'.get? k := by
  unfold sameEntries at h
  rw [Bool.and_eq_true, List.all_eq_true] at h
  obtain ⟨hsize, hall⟩ := h
  have hsub : d.keys ⊆ d'.keys := by
    intro k hk
    obtain ⟨⟨k, v⟩, he, rfl⟩ := List.mem_map.1 hk
    exact contains_iff.1 (contains_of_get? (eq_of_beq (hall _ he)))
  have hlen : d'.keys.length ≤ d.keys.length := by
    have := eq_of_beq hsize
    simp only [size] at this
    simp [keys, this]
  -- as many keys, all of them among those of the other: the same keys
  have hperm : d.keys.Perm d'.keys := (List.Nodup.subperm hd hsub).perm_of_length_le hlen
  have hsup : d'.keys ⊆ d.keys := hperm.symm.subset
  cases hk : d.get? k with
  | some v => exact (eq_of_beq (hall _ (mem_entries_of_get? hk))).symm
  | none => exact (get?_eq_none_iff.2 fun hmem => get?_eq_none_iff.1 hk (hsup hmem)).symm

/-- Maps with the same values under all keys have the same entries. -/
theorem sameEntries_of_get? [BEq α] [LawfulBEq α] (hd : d.keys.Nodup) (hd' : d'.keys.Nodup)
    (h : ∀ k, d.get? k = d'.get? k) : d.sameEntries d' = true := by
  unfold sameEntries
  rw [Bool.and_eq_true, List.all_eq_true]
  refine ⟨beq_of_eq ?_, fun e he => beq_of_eq ?_⟩
  · have hmem : ∀ k, k ∈ d.keys ↔ k ∈ d'.keys := by
      intro k
      have hnone := get?_eq_none_iff (d := d) (k := k)
      rw [h k, get?_eq_none_iff] at hnone
      exact (not_iff_not.1 hnone).symm
    have hlen := ((List.perm_ext_iff_of_nodup hd hd').2 hmem).length_eq
    simpa [keys, size] using hlen
  · rw [← h]
    exact lookup_of_mem hd he

end ApiModel.Dict
