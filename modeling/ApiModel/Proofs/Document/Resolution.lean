/-
  ApiModel.Proofs.Document.Resolution

  Where references lead. The chain of a pointer is told without the trail that is kept when it is
  followed: it starts at the pointer, and each next pointer is the one that the value there refers
  to. Following references ends at the first place where the chain cannot go on, or comes back to
  where it was; every pointer after the first is written in the document, so one of these happens
  after no more steps than the document has references.
-/
import ApiModel.Proofs.Document
import Mathlib.Data.List.Nodup
import Mathlib.Data.List.Perm.Subperm

namespace ApiModel.Document

variable {document v : Json} {p q t : Pointer} {k j : Nat} {trail : List Pointer}
  {r r' : Except Fault (Pointer × Json)}

/-! ## Chains -/

/-- The pointer that the value at a pointer refers to: it is a reference object, and what it writes
    is a local pointer. -/
def next? (document : Json) (p : Pointer) : Option Pointer := do
  Pointer.parse? (← reference? (← walk? document p.segments))

/-- The chain of references from a pointer on, as far as it goes. -/
def chain (document : Json) (p : Pointer) : Nat → Option Pointer
  | 0 => some p
  | k + 1 => do next? document (← chain document p k)

/-- The chain up to its pointer with number `k`. -/
def chainTo (document : Json) (p : Pointer) (k : Nat) : List (Option Pointer) :=
  (List.range (k + 1)).map (chain document p)

/-- The chain up to its pointer with number `k` comes to no pointer twice. -/
def Unrepeated (document : Json) (p : Pointer) (k : Nat) : Prop := (chainTo document p k).Nodup

theorem chainTo_succ (document : Json) (p : Pointer) (k : Nat) :
    chainTo document p (k + 1) = chainTo document p k ++ [chain document p (k + 1)] := by
  rw [chainTo, List.range_succ, List.map_append]
  rfl

theorem unrepeated_zero : Unrepeated document p 0 := List.nodup_singleton _

theorem unrepeated_succ : Unrepeated document p (k + 1) ↔
    Unrepeated document p k ∧ chain document p (k + 1) ∉ chainTo document p k := by
  unfold Unrepeated
  rw [chainTo_succ, List.nodup_append_comm, List.singleton_append, List.nodup_cons, and_comm]

theorem chain_succ (hq : chain document p k = some q) :
    chain document p (k + 1) = next? document q := by
  rw [chain, hq]
  rfl

theorem exists_of_chain_succ (h : chain document p (k + 1) = some q) :
    ∃ u, chain document p k = some u ∧ next? document u = some q :=
  Option.bind_eq_some_iff.1 h

/-- A chain that goes on at some point has gone on before. -/
theorem chain_ne_none_of_le (h : chain document p k ≠ none) (hjk : j ≤ k) :
    chain document p j ≠ none := by
  induction k with
  | zero => rwa [Nat.le_zero.1 hjk]
  | succ k ih =>
      rcases Nat.le_succ_iff.1 hjk with hjk | rfl
      · obtain ⟨q, hq⟩ := Option.ne_none_iff_exists'.1 h
        obtain ⟨u, hu, -⟩ := exists_of_chain_succ hq
        exact ih (by rw [hu]; exact Option.some_ne_none u) hjk
      · exact h

theorem next?_eq_some : next? document p = some q ↔ ∃ v text, walk? document p.segments = some v ∧
    reference? v = some text ∧ Pointer.parse? text = some q := by
  simp only [next?, Option.bind_eq_bind, Option.bind_eq_some_iff]
  constructor
  · rintro ⟨v, hv, text, htext, hq⟩
    exact ⟨v, text, hv, htext, hq⟩
  · rintro ⟨v, text, hv, htext, hq⟩
    exact ⟨v, hv, text, htext, hq⟩

/-- Every pointer of a chain but the first is written in the document. -/
theorem mem_targets_of_chain (h : chain document p (k + 1) = some q) : q ∈ targets document := by
  obtain ⟨u, -, hnext⟩ := exists_of_chain_succ h
  obtain ⟨v, text, hv, htext, hq⟩ := next?_eq_some.1 hnext
  exact mem_targets (node_eq_ok.2 hv) htext hq

/-- A chain without repetition is no longer than the list of the pointers that the document
    writes. -/
theorem le_length_targets (hk : chain document p k ≠ none) (hn : Unrepeated document p k) :
    k ≤ (targets document).length := by
  -- the pointers after the first are different from each other and among the targets
  have htail : chainTo document p k =
      chain document p 0 :: (List.range k).map (chain document p ∘ Nat.succ) := by
    rw [chainTo, List.range_succ_eq_map, List.map_cons, List.map_map]
  unfold Unrepeated at hn
  rw [htail, List.nodup_cons] at hn
  have hsub : (List.range k).map (chain document p ∘ Nat.succ) ⊆ (targets document).map some := by
    intro o ho
    obtain ⟨j, hj, rfl⟩ := List.mem_map.1 ho
    have hjk : j + 1 ≤ k := List.mem_range.1 hj
    obtain ⟨q, hq⟩ := Option.ne_none_iff_exists'.1 (chain_ne_none_of_le hk hjk)
    exact List.mem_map.2 ⟨q, mem_targets_of_chain hq, hq.symm⟩
  have hle := (hn.2.subperm hsub).length_le
  rwa [List.length_map, List.length_map, List.length_range] at hle

/-! ## How a chain ends -/

/-- A pointer from which a chain cannot go on although no value is reached: there is nothing, or a
    reference to no local pointer. The text is what is reported. -/
def Dangling (document : Json) (q : Pointer) (text : String) : Prop :=
  walk? document q.segments = none ∧ text = q.render ∨
    ∃ v, walk? document q.segments = some v ∧ reference? v = some text ∧
      Pointer.parse? text = none

/-- What comes of a chain that goes no further than its pointer with number `k`. -/
inductive EndsAt (document : Json) (p : Pointer) (k : Nat) :
    Except Fault (Pointer × Json) → Prop
  /-- A value that is no reference. -/
  | reached {t : Pointer} {v : Json} (ht : chain document p k = some t)
      (hv : walk? document t.segments = some v) (href : reference? v = none) :
      EndsAt document p k (.ok (t, v))
  /-- The next pointer is on the chain already. -/
  | repeated {trail : List Pointer} (htrail : trail.map some = chainTo document p (k + 1))
      (hmet : chain document p (k + 1) ∈ chainTo document p k) :
      EndsAt document p k (.error (.referenceCycle trail))
  /-- No next pointer. -/
  | dangling {q : Pointer} {text : String} (hq : chain document p k = some q)
      (htext : Dangling document q text) : EndsAt document p k (.error (.unresolved text))

/-- A value that is no reference has no next pointer. -/
theorem chain_succ_of_value (ht : chain document p k = some t)
    (hv : walk? document t.segments = some v) (href : reference? v = none) :
    chain document p (k + 1) = none := by
  simp [chain_succ ht, next?, hv, href]

theorem Dangling.chain_succ {text : String} (h : Dangling document q text)
    (hq : chain document p k = some q) : chain document p (k + 1) = none := by
  rw [Document.chain_succ hq]
  rcases h with ⟨hnone, -⟩ | ⟨v, hv, htext, hparse⟩
  · simp [next?, hnone]
  · simp [next?, hv, htext, hparse]

/-- What is dangling is a reference, if it is anything. -/
theorem Dangling.reference? {text : String} (h : Dangling document q text)
    (hv : walk? document q.segments = some v) : reference? v = some text := by
  rcases h with ⟨hnone, -⟩ | ⟨w, hw, htext, -⟩
  · cases hv.symm.trans hnone
  · cases hv.symm.trans hw
    exact htext

theorem Dangling.unique {text text' : String} (h : Dangling document q text)
    (h' : Dangling document q text') : text = text' := by
  cases hv : walk? document q.segments with
  | none => simp_all [Dangling]
  | some v => exact Option.some.inj ((h.reference? hv).symm.trans (h'.reference? hv))

/-- A trail has a pointer for every number. -/
theorem chain_ne_none_of_trail (htrail : trail.map some = chainTo document p k) (hjk : j ≤ k) :
    chain document p j ≠ none := by
  have hmem : chain document p j ∈ chainTo document p k :=
    List.mem_map.2 ⟨j, List.mem_range.2 (Nat.lt_succ_of_le hjk), rfl⟩
  rw [← htrail, List.mem_map] at hmem
  obtain ⟨q, -, hq⟩ := hmem
  exact hq ▸ Option.some_ne_none q

theorem EndsAt.chain_ne_none (h : EndsAt document p k r) : chain document p k ≠ none := by
  cases h with
  | reached ht => exact ht ▸ Option.some_ne_none _
  | repeated htrail _ => exact chain_ne_none_of_trail htrail k.le_succ
  | dangling hq => exact hq ▸ Option.some_ne_none _

/-- Beyond its end a chain does not go, or repeats itself. -/
theorem EndsAt.not_later (h : EndsAt document p k r) (hkj : k < j)
    (hj : chain document p j ≠ none) : ¬Unrepeated document p j := by
  have hnext : chain document p (k + 1) ≠ none := chain_ne_none_of_le hj hkj
  cases h with
  | reached ht hv href => exact absurd (chain_succ_of_value ht hv href) hnext
  | repeated _ hmet =>
      intro hn
      -- two numbers have the same pointer, and both lie before `j`
      obtain ⟨i, hi, heq⟩ := List.mem_map.1 hmet
      have hik : i < k + 1 := List.mem_range.1 hi
      have hsame := List.inj_on_of_nodup_map hn (List.mem_range.2 (by omega))
        (List.mem_range.2 (by omega)) heq
      omega
  | dangling hq htext => exact absurd (htext.chain_succ hq) hnext

theorem EndsAt.unique_at (h : EndsAt document p k r) (h' : EndsAt document p k r') : r = r' := by
  cases h with
  | reached ht hv href =>
      have hstop := chain_succ_of_value ht hv href
      cases h' with
      | reached ht' hv' _ =>
          cases ht.symm.trans ht'
          cases hv.symm.trans hv'
          rfl
      | repeated htrail _ => exact absurd hstop (chain_ne_none_of_trail htrail Nat.le.refl)
      | dangling hq htext =>
          cases ht.symm.trans hq
          cases href.symm.trans (htext.reference? hv)
  | repeated htrail _ =>
      have hnext := chain_ne_none_of_trail htrail Nat.le.refl
      cases h' with
      | reached ht hv href => exact absurd (chain_succ_of_value ht hv href) hnext
      | repeated htrail' _ =>
          have hsome : Function.Injective (some : Pointer → _) := fun _ _ => Option.some.inj
          rw [List.map_injective_iff.2 hsome (htrail.trans htrail'.symm)]
      | dangling hq htext => exact absurd (htext.chain_succ hq) hnext
  | dangling hq htext =>
      have hstop := htext.chain_succ hq
      cases h' with
      | reached ht hv href =>
          cases hq.symm.trans ht
          cases href.symm.trans (htext.reference? hv)
      | repeated htrail _ => exact absurd hstop (chain_ne_none_of_trail htrail Nat.le.refl)
      | dangling hq' htext' =>
          cases hq.symm.trans hq'
          rw [htext.unique htext']

/-- A chain ends at one number and in one way. -/
theorem EndsAt.unique (h : EndsAt document p k r) (hk : Unrepeated document p k)
    (h' : EndsAt document p j r') (hj : Unrepeated document p j) : r = r' := by
  rcases Nat.lt_trichotomy k j with hlt | rfl | hlt
  · exact absurd hj (h.not_later hlt h'.chain_ne_none)
  · exact h.unique_at h'
  · exact absurd hk (h'.not_later hlt h.chain_ne_none)

/-! ## Following references -/

/-- The trail one pointer further. -/
theorem trail_next (htrail : trail.map some = chainTo document p k)
    (hnext : chain document p (k + 1) = some q) :
    (trail ++ [q]).map some = chainTo document p (k + 1) := by
  rw [List.map_append, htrail, chainTo_succ, hnext, List.map_singleton]

/-- Following references from the end of a trail goes to the end of the chain. -/
theorem exists_endsAt_resolveFrom (htrail : trail.map some = chainTo document p k)
    (hq : chain document p k = some q) (hk : Unrepeated document p k) :
    ∃ j, Unrepeated document p j ∧ EndsAt document p j (resolveFrom document trail q) := by
  -- the trail is the chain so far, one pointer longer at each step
  fun_induction resolveFrom document trail q generalizing k with
  | case1 trail q e hv =>
      unfold node at hv
      split at hv
      · cases hv
      · next hnone =>
          cases hv
          exact ⟨k, hk, .dangling hq (.inl ⟨hnone, rfl⟩)⟩
  | case2 trail q v hv href => exact ⟨k, hk, .reached hq (node_eq_ok.1 hv) href⟩
  | case3 trail q v hv text href hparse =>
      exact ⟨k, hk, .dangling hq (.inr ⟨v, node_eq_ok.1 hv, href, hparse⟩)⟩
  | case4 trail q v hv text href next hparse hmem =>
      have hnext : chain document p (k + 1) = some next :=
        (chain_succ hq).trans (next?_eq_some.2 ⟨v, text, node_eq_ok.1 hv, href, hparse⟩)
      refine ⟨k, hk, .repeated (trail_next htrail hnext) ?_⟩
      rw [hnext, ← htrail]
      exact List.mem_map_of_mem hmem
  | case5 trail q v hv text href next hparse hmem ih =>
      have hnext : chain document p (k + 1) = some next :=
        (chain_succ hq).trans (next?_eq_some.2 ⟨v, text, node_eq_ok.1 hv, href, hparse⟩)
      refine ih (trail_next htrail hnext) hnext (unrepeated_succ.2 ⟨hk, ?_⟩)
      rw [hnext, ← htrail, List.mem_map]
      rintro ⟨u, hu, heq⟩
      exact hmem (Option.some.inj heq ▸ hu)

/-- Following references comes to an end before it has met more pointers than the document writes,
    and ends as the chain does. -/
theorem endsAt_resolve (document : Json) (p : Pointer) :
    ∃ k ≤ (targets document).length, Unrepeated document p k ∧
      EndsAt document p k (resolve document p) := by
  have htrail : [p].map some = chainTo document p 0 := rfl
  obtain ⟨k, hk, hend⟩ := exists_endsAt_resolveFrom htrail rfl unrepeated_zero
  exact ⟨k, le_length_targets hend.chain_ne_none hk, hk, hend⟩

/-- Following references always comes to an end, after no more steps than the document writes
    pointers. It gives a place and the value there when the chain reaches, without coming to a
    pointer twice, a value that is no reference; it reports a cycle, with the whole trail, when the
    last pointer of the trail is the first that the chain comes to twice; and it reports an
    unresolved reference when, before that, the chain comes to a pointer where there is nothing or
    where a reference is that writes no local pointer. -/
theorem resolve_exact (document : Json) (p : Pointer) :
    (∃ k ≤ (targets document).length, Unrepeated document p k ∧
      EndsAt document p k (resolve document p)) ∧
    (∀ t v, resolve document p = .ok (t, v) ↔ ∃ k, Unrepeated document p k ∧
      chain document p k = some t ∧ walk? document t.segments = some v ∧ reference? v = none) ∧
    (∀ trail, resolve document p = .error (.referenceCycle trail) ↔ ∃ k,
      Unrepeated document p k ∧ trail.map some = chainTo document p (k + 1) ∧
        chain document p (k + 1) ∈ chainTo document p k) ∧
    ∀ text, resolve document p = .error (.unresolved text) ↔ ∃ k q,
      Unrepeated document p k ∧ chain document p k = some q ∧ Dangling document q text := by
  obtain ⟨k, hle, hk, hend⟩ := endsAt_resolve document p
  -- whatever the chain is known to end with is the result
  have hresult : ∀ {j r}, Unrepeated document p j → EndsAt document p j r →
      resolve document p = r := fun hj h => hend.unique hk h hj
  refine ⟨⟨k, hle, hk, hend⟩, fun t v => ⟨fun h => ?_, ?_⟩, fun trail => ⟨fun h => ?_, ?_⟩,
    fun text => ⟨fun h => ?_, ?_⟩⟩
  · rw [h] at hend
    cases hend with
    | reached ht hv href => exact ⟨k, hk, ht, hv, href⟩
  · rintro ⟨j, hj, ht, hv, href⟩
    exact hresult hj (.reached ht hv href)
  · rw [h] at hend
    cases hend with
    | repeated htrail hmet => exact ⟨k, hk, htrail, hmet⟩
  · rintro ⟨j, hj, htrail, hmet⟩
    exact hresult hj (.repeated htrail hmet)
  · rw [h] at hend
    cases hend with
    | dangling hq htext => exact ⟨k, _, hk, hq, htext⟩
  · rintro ⟨j, q, hj, hq, htext⟩
    exact hresult hj (.dangling hq htext)

end ApiModel.Document
