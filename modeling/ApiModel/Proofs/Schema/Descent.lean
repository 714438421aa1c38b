/-
  ApiModel.Proofs.Schema.Descent

  Loading comes to an end. A load inside another starts below the end of a reference, after the
  place where that ends has got its number. So each load that is nested leaves fewer places without
  a number than the one around it, and the supply of calls, which is larger than the number of places
  at the start, is never used up.
-/
import ApiModel.Proofs.Document
import ApiModel.Proofs.Schema.Load
import ApiModel.Proofs.Schema.Site
import Mathlib.Data.Finset.Filter
import Mathlib.Data.Finset.Card

namespace ApiModel.Session

open Document Work

variable {P : Json → Prop} {K : SchemaId → Prop} {n : Nat} {document v : Json} {s t : Session}
  {p q target place : Pointer} {load : Loader} {fields : List (String × Json)}

/-! ## Places without a number -/

/-- The places below `p`, or below the end of a reference, that no schema has been loaded for. -/
def unreserved (document : Json) (p : Pointer) (s : Session) : Finset Pointer :=
  (places document p).toFinset.filter fun q => s.loaded.get? q = none

theorem unreserved_subset (h : Loads n s t) (document : Json) (p : Pointer) :
    unreserved document p t ⊆ unreserved document p s := by
  refine Finset.monotone_filter_right _ fun q _ hq => ?_
  rcases hs : s.loaded.get? q with _ | id
  · rfl
  · cases (h.loaded q id hs).symm.trans hq

/-- A place that gets a number leaves fewer without one. -/
theorem card_unreserved_lt (h : Loads n s t) (hq : Spelled document p q)
    (hs : s.loaded.get? q = none) {id : SchemaId} (ht : t.loaded.get? q = some id) :
    (unreserved document p t).card < (unreserved document p s).card := by
  refine Finset.card_lt_card ((Finset.ssubset_iff_of_subset (unreserved_subset h document p)).2
    ⟨q, ?_, ?_⟩)
  · exact Finset.mem_filter.2 ⟨List.mem_toFinset.2 hq.mem_places, hs⟩
  · intro hmem
    cases ht.symm.trans (Finset.mem_filter.1 hmem).2

theorem card_unreserved_lt_loadBound (document : Json) (p : Pointer) (s : Session) :
    (unreserved document p s).card < loadBound document :=
  Nat.lt_of_le_of_lt (Nat.le_trans (Finset.card_filter_le _ _) (List.toFinset_card_le _))
    (length_places_lt document p)

/-! ## Child schemas -/

/-- However much has been read since `s`, loading the schema at `q` does not use up the calls. -/
def Concludes (P : Json → Prop) (K : SchemaId → Prop) (n : Nat) (load : Loader) (s : Session)
    (q : Pointer) : Prop :=
  ∀ t, Readable P K n t → Loads n s t → Fails (load q) t (· ≠ .exhausted)

theorem Concludes.later (h : Concludes P K n load s q) (hst : Loads n s t) :
    Concludes P K n load t q :=
  fun u hu htu => h u hu (trans_of (Loads n) hst htu)

/-- Loading the schemas at the places inside the value `v` at `place` does not use up the calls. -/
def ConcludesBelow (P : Json → Prop) (K : SchemaId → Prop) (n : Nat) (load : Loader) (s : Session)
    (place : Pointer) (v : Json) : Prop :=
  ∀ path w, Way v path w → Concludes P K n load s ⟨place.segments ++ path⟩

theorem ConcludesBelow.later (h : ConcludesBelow P K n load s place v) (hst : Loads n s t) :
    ConcludesBelow P K n load t place v :=
  fun path w hw => (h path w hw).later hst

theorem fails_loadItems (hs : Readable P K n s)
    (h : ConcludesBelow P K n load s place (.obj fields)) :
    Fails (loadItems load place fields) s (· ≠ .exhausted) := by
  unfold loadItems
  split
  · exact .pure
  · exact nofun
  · next w _ _ =>
      exact .bind_any (h _ w (.field ‹_› (.here w)) s hs (refl_of (Loads n) s)) fun _ _ => .pure

theorem fails_loadExtras (hs : Readable P K n s)
    (h : ConcludesBelow P K n load s place (.obj fields)) :
    Fails (loadExtras load place fields) s (· ≠ .exhausted) := by
  unfold loadExtras
  split
  · exact .pure
  · exact .pure
  · next w _ _ =>
      exact .bind_any (h _ w (.field ‹_› (.here w)) s hs (refl_of (Loads n) s)) fun _ _ => .pure

theorem fails_loadProperties (hload : Reader P K n load) (hs : Readable P K n s)
    (hn : n ≤ s.arena.next) (base : Pointer) {keys : List String} {read : Dict String SchemaId}
    (h : ∀ key ∈ keys, Concludes P K n load s (base.push key)) :
    Fails (loadProperties load base keys read) s (· ≠ .exhausted) := by
  induction keys generalizing read s with
  | nil => exact .pure
  | cons key keys ih =>
      unfold loadProperties
      refine .bind (h key List.mem_cons_self s hs (refl_of (Loads n) s)) (hload _ s hs hn)
        fun id t ht hst _ => ?_
      exact ih ht (Nat.le_trans hn hst.next) fun k hk => (h k (List.mem_cons_of_mem _ hk)).later hst

theorem fails_loadFrom (hload : Reader P K n load) (hs : Readable P K n s) (hn : n ≤ s.arena.next)
    (base : Pointer) (i : Nat) {items : List Json}
    (h : ∀ j < items.length, Concludes P K n load s (base.index (i + j))) :
    Fails (loadFrom load base i items) s (· ≠ .exhausted) := by
  induction items generalizing i s with
  | nil => exact .pure
  | cons v items ih =>
      unfold loadFrom
      refine .bind (h 0 (Nat.zero_lt_succ _) s hs (refl_of (Loads n) s)) (hload _ s hs hn)
        fun id t ht hst _ => ?_
      have hn' := Nat.le_trans hn hst.next
      refine .bind (ih ht hn' (i + 1) fun j hj => ?_)
        (reads_loadFrom hload ht hn' base (i + 1) items) fun _ _ _ _ _ => .pure
      have hlater := (h (j + 1) (Nat.succ_lt_succ hj)).later hst
      rwa [Nat.add_assoc, Nat.add_comm 1]

theorem fails_loadMembers (hload : Reader P K n load) (hs : Readable P K n s)
    (hn : n ≤ s.arena.next) (h : ConcludesBelow P K n load s place (.obj fields))
    (keyword : String) :
    Fails (loadMembers load place fields keyword) s (· ≠ .exhausted) := by
  unfold loadMembers
  split
  · exact .pure
  · next members hmembers =>
      refine fails_loadFrom hload hs hn _ 0 fun j hj => ?_
      have hway : Way (.obj fields) [keyword, Text.decimal j] members[j] :=
        .field hmembers (.item (List.getElem?_eq_getElem hj) (.here _))
      have hconcludes := h _ _ hway
      rw [Nat.zero_add]
      unfold Pointer.index Pointer.push
      rwa [List.append_assoc]
  · exact nofun

/-! ## Schemas -/

/-- The properties that are declared are inside the schema. -/
theorem way_of_mem_propertyNames {key : String} (h : key ∈ propertyNames fields) :
    ∃ w, Way (.obj fields) ["properties", key] w := by
  unfold propertyNames at h
  obtain ⟨v, hv⟩ | hnone := (fields.lookup "properties").eq_none_or_eq_some.symm
  · rw [hv] at h
    cases v with
    | obj properties =>
        have hkey : (properties.lookup key).isSome := by
          rw [List.lookup_isSome_iff]
          obtain ⟨e, he, rfl⟩ := List.mem_map.1 h
          exact ⟨e, he, beq_self_eq_true _⟩
        obtain ⟨w, hw⟩ := Option.isSome_iff_exists.1 hkey
        exact ⟨w, .field hv (.field hw (.here w))⟩
    | _ => cases h
  · rw [hnone] at h
    cases h

theorem fails_readSchema (hload : Reader P K n load) (hs : Readable P K n s)
    (hn : n ≤ s.arena.next) (h : ConcludesBelow P K n load s place v) :
    Fails (readSchema load place v) s (· ≠ .exhausted) := by
  unfold readSchema
  split
  · exact .pure
  · exact .pure
  · next fields =>
      refine .ofExcept_bind (fun _ _ => by simp) fun k _ => ?_
      refine .bind (fails_loadItems hs h) (reads_loadItems hload hs hn) fun _ s₁ hs₁ h₁ _ => ?_
      have hn₁ := Nat.le_trans hn h₁.next
      refine .bind (fails_loadProperties hload hs₁ hn₁ _ fun key hkey => ?_)
        (reads_loadProperties hload hs₁ hn₁ _ ⟨List.nodup_nil, by simp [Dict.values, Dict.empty]⟩)
        fun _ s₂ hs₂ h₂ _ => ?_
      · obtain ⟨w, hw⟩ := way_of_mem_propertyNames hkey
        have hconcludes := (h.later h₁) _ w hw
        unfold Pointer.push
        rwa [List.append_assoc]
      have hn₂ := Nat.le_trans hn₁ h₂.next
      have h₀₂ := (h.later h₁).later h₂
      refine .bind (fails_loadExtras hs₂ h₀₂) (reads_loadExtras hload hs₂ hn₂)
        fun _ s₃ hs₃ h₃ _ => ?_
      have hn₃ := Nat.le_trans hn₂ h₃.next
      have h₀₃ := h₀₂.later h₃
      refine .bind (fails_loadMembers hload hs₃ hn₃ h₀₃ _) (reads_loadMembers hload hs₃ hn₃ "allOf")
        fun _ s₄ hs₄ h₄ _ => ?_
      have hn₄ := Nat.le_trans hn₃ h₄.next
      have h₀₄ := h₀₃.later h₄
      refine .bind (fails_loadMembers hload hs₄ hn₄ h₀₄ _) (reads_loadMembers hload hs₄ hn₄ "anyOf")
        fun _ s₅ hs₅ h₅ _ => ?_
      have hn₅ := Nat.le_trans hn₄ h₅.next
      have h₀₅ := h₀₄.later h₅
      refine .bind (fails_loadMembers hload hs₅ hn₅ h₀₅ _) (reads_loadMembers hload hs₅ hn₅ "oneOf")
        fun _ s₆ _ _ _ => ?_
      -- what is left loads nothing
      have hrest : ∀ (u : Session) (m : Schema),
          Fails (if flag fields "nullable" then allowNull m else return m) u (· ≠ .exhausted) := by
        intro u m
        unfold allowNull
        split
        · split
          · exact .pure
          · split <;> exact trivial
        · exact .pure
      dsimp only
      split
      · exact hrest _ _
      · exact hrest _ _
  · intro h
    cases h

/-! ## Loading -/

/-- The session that has given the next number to the two pointers. -/
def reserved (s : Session) (target p : Pointer) : Session :=
  { s with
    arena := s.arena.push (.blank target)
    loaded := (s.loaded.insert target s.arena.next).insert p s.arena.next }

theorem get?_reserved (s : Session) (target p q : Pointer) :
    (reserved s target p).loaded.get? q =
      if q = p ∨ q = target then some s.arena.next else s.loaded.get? q := by
  show ((s.loaded.insert target s.arena.next).insert p s.arena.next).get? q = _
  rw [Dict.get?_insert, Dict.get?_insert]
  by_cases hq : q = p <;> simp [hq]

theorem readable_reserved (hK : ∀ id, n ≤ id → K id) (hs : Readable P K n s)
    (hn : n ≤ s.arena.next) : Readable P K n (reserved s target p) := by
  have hpush := readable_push hs (read_blank target)
  refine ⟨hpush.proper, fun q id hq => ?_, hpush.links⟩
  rw [get?_reserved] at hq
  split at hq
  · cases hq
    exact ⟨Nat.lt_of_lt_of_eq (Nat.lt_succ_self _) (Arena.next_push _ _).symm, hK _ hn⟩
  · exact hpush.loaded q id hq

theorem loads_reserved (hn : n ≤ s.arena.next) (hp : s.loaded.get? p = none)
    (htarget : s.loaded.get? target = none) : Loads n s (reserved s target p) := by
  have hpush := loads_push hn (.blank target)
  refine ⟨⟨_, _, _, rfl⟩, hpush.next, hpush.schema, fun q id hq => ?_⟩
  rw [get?_reserved, if_neg]
  · exact hq
  · rintro (rfl | rfl)
    · cases hp.symm.trans hq
    · cases htarget.symm.trans hq

theorem fails_loadStep (hK : ∀ id, n ≤ id → K id) (hP : Hereditary P) (hd : P document)
    (hload : Reader P K n load) {calls : Nat}
    (hend : ∀ q s, Readable P K n s → n ≤ s.arena.next → Spelled document p q →
      (unreserved document p s).card < calls → Fails (load q) s (· ≠ .exhausted))
    (hs : Readable P K n s) (hn : n ≤ s.arena.next) (hq : Spelled document p q)
    (hcalls : (unreserved document p s).card < calls + 1) :
    Fails (loadStep document load q) s (· ≠ .exhausted) := by
  unfold loadStep
  refine .view_bind ?_
  split
  · exact .pure
  next hnone =>
  refine .ofExcept_bind nofun fun ⟨target, v⟩ hres => .view_bind ?_
  split
  · exact .modify_bind .pure
  next htarget =>
  show Fails (readSchema load target v >>= fun m => do
    modify fun w => { w with arena := w.arena.replace s.arena.next m }
    return s.arena.next) (reserved s target q) _
  have h₁ : Loads n s (reserved s target q) := loads_reserved hn hnone htarget
  have hs₁ : Readable P K n (reserved s target q) := readable_reserved hK hs hn
  have hn₁ := Nat.le_trans hn h₁.next
  -- the end of the reference has its number now, so there is one place less for its children
  have htaken : (reserved s target q).loaded.get? target = some s.arena.next := by
    rw [get?_reserved, if_pos (.inr rfl)]
  have hless := card_unreserved_lt h₁ (hq.resolve hres) htarget htaken
  have hbelow : ConcludesBelow P K n load (reserved s target q) target v := by
    intro path w hw u hu h₁u
    refine hend _ u hu (Nat.le_trans hn₁ h₁u.next)
      ((hq.resolve hres).below (node_of_resolve hres) hw) ?_
    have hle := Finset.card_le_card (unreserved_subset h₁u document p)
    omega
  refine .bind (fails_readSchema hload hs₁ hn₁ hbelow) (reads_readSchema hK hP hload hs₁ hn₁
    (resolve_of_hereditary hP hd hres)) fun _ _ _ _ _ => ?_
  exact .modify_bind .pure

theorem fails_loadWithin (hK : ∀ id, n ≤ id → K id) (hP : Hereditary P) (hd : P document)
    (p : Pointer) (calls : Nat) :
    ∀ q s, Readable P K n s → n ≤ s.arena.next → Spelled document p q →
      (unreserved document p s).card < calls →
      Fails (loadWithin document calls q) s (· ≠ .exhausted) := by
  induction calls with
  | zero => exact fun _ _ _ _ _ h => absurd h (Nat.not_lt_zero _)
  | succ calls ih =>
      intro q s hs hn hq hcalls
      exact fails_loadStep hK hP hd (reader_loadWithin hK hP hd calls) ih hs hn hq hcalls

/-- Loading comes to an end, with a schema or with a fault of the document. -/
theorem fails_load (hK : ∀ id, n ≤ id → K id) (hP : Hereditary P) (hd : P document)
    (hs : Readable P K n s) (hn : n ≤ s.arena.next) (p : Pointer) :
    Fails (Session.load document p) s (· ≠ .exhausted) :=
  fails_loadWithin hK hP hd p _ p s hs hn (spelled_of_base List.mem_cons_self)
    (card_unreserved_lt_loadBound document p s)

end ApiModel.Session
