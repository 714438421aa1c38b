/-
  ApiModel.Proofs.Document

  The places of a document. A value is reached from another by keys and by indices written in
  decimal; there are as many such ways as there are values inside. A pointer may write an index in
  other ways too, but what is read below the end of a reference is spelled like this, so everything
  that can be read after a pointer lies at one of finitely many places.
-/
import ApiModel.Document.Reference
import ApiModel.Proofs.Text.Natural
import ApiModel.Schema.Load

namespace ApiModel

namespace Document

/-! ## Ways through a value -/

/-- The keys and indices `path` lead from one value to another inside it. -/
inductive Way : Json → List String → Json → Prop
  | here (v : Json) : Way v [] v
  | item {items : List Json} {i : Nat} {v w : Json} {path : List String}
      (hi : items[i]? = some v) (h : Way v path w) : Way (.arr items) (Text.decimal i :: path) w
  | field {fields : List (String × Json)} {k : String} {v w : Json} {path : List String}
      (hk : fields.lookup k = some v) (h : Way v path w) : Way (.obj fields) (k :: path) w

namespace Way

variable {u v w : Json} {path path' : List String}

theorem trans (h : Way u path v) (h' : Way v path' w) : Way u (path ++ path') w := by
  induction h with
  | here => exact h'
  | item hi _ ih => exact .item hi (ih h')
  | field hk _ ih => exact .field hk (ih h')

/-- A walk that goes a way ends where the way does. -/
theorem eq_of_walk? (h : Way u path v) (hw : walk? u path = some w) : w = v := by
  induction h with
  | here =>
      cases hw
      rfl
  | item hi _ ih =>
      simp only [walk?, step?, Option.bind_eq_bind, Option.bind_eq_some_iff] at hw
      obtain ⟨x, ⟨j, hj, hx⟩, hw⟩ := hw
      obtain rfl := Text.eq_of_natural?_decimal hj
      cases hi.symm.trans hx
      exact ih hw
  | field hk _ ih =>
      simp only [walk?, step?, Option.bind_eq_bind, Option.bind_eq_some_iff] at hw
      obtain ⟨x, hx, hw⟩ := hw
      cases hk.symm.trans hx
      exact ih hw

end Way

mutual

/-- All ways through a value. -/
def ways : Json → List (List String)
  | .arr items => [] :: waysOfItems 0 items
  | .obj fields => [] :: waysOfFields fields
  | _ => [[]]

/-- The ways through the items from an index on. -/
def waysOfItems : Nat → List Json → List (List String)
  | _, [] => []
  | i, v :: vs => (ways v).map (Text.decimal i :: ·) ++ waysOfItems (i + 1) vs

/-- The ways through the fields. -/
def waysOfFields : List (String × Json) → List (List String)
  | [] => []
  | (k, v) :: fs => (ways v).map (k :: ·) ++ waysOfFields fs

end

mutual

/-- There is a way to every value inside. -/
theorem length_ways : ∀ v : Json, (ways v).length = Session.valueCount v
  | .null | .bool _ | .num _ | .str _ => rfl
  | .arr items => by
    rw [ways, Session.valueCount, List.length_cons, length_waysOfItems 0 items, Nat.add_comm]
  | .obj fields => by
    rw [ways, Session.valueCount, List.length_cons, length_waysOfFields fields, Nat.add_comm]

theorem length_waysOfItems :
    ∀ (i : Nat) (vs : List Json), (waysOfItems i vs).length = Session.valueCountItems vs
  | _, [] => rfl
  | i, v :: vs => by
    rw [waysOfItems, Session.valueCountItems, List.length_append, List.length_map, length_ways v,
      length_waysOfItems (i + 1) vs]

theorem length_waysOfFields :
    ∀ fs : List (String × Json), (waysOfFields fs).length = Session.valueCountFields fs
  | [] => rfl
  | (_, v) :: fs => by
    rw [waysOfFields, Session.valueCountFields, List.length_append, List.length_map,
      length_ways v, length_waysOfFields fs]

end

theorem nil_mem_ways (v : Json) : [] ∈ ways v := by
  cases v <;> simp [ways]

theorem mem_waysOfItems {items : List Json} {n i : Nat} {v : Json} {path : List String}
    (hi : items[i]? = some v) (hpath : path ∈ ways v) :
    Text.decimal (n + i) :: path ∈ waysOfItems n items := by
  induction items generalizing n i with
  | nil => simp at hi
  | cons w items ih =>
      rw [waysOfItems, List.mem_append, List.mem_map]
      cases i with
      | zero =>
          cases hi
          exact .inl ⟨path, hpath, rfl⟩
      | succ i =>
          have hrest := ih (n := n + 1) (by simpa using hi)
          rw [Nat.add_right_comm] at hrest
          exact .inr hrest

theorem mem_waysOfFields {fields : List (String × Json)} {k : String} {v : Json}
    {path : List String} (hk : fields.lookup k = some v) (hpath : path ∈ ways v) :
    k :: path ∈ waysOfFields fields := by
  induction fields with
  | nil => cases hk
  | cons f fields ih =>
      rw [waysOfFields, List.mem_append, List.mem_map]
      rw [List.lookup_cons] at hk
      split at hk
      · next heq =>
          cases hk
          exact .inl ⟨path, hpath, by rw [eq_of_beq heq]⟩
      · exact .inr (ih hk)

theorem Way.mem_ways {v w : Json} {path : List String} (h : Way v path w) : path ∈ ways v := by
  induction h with
  | here v => exact nil_mem_ways v
  | @item items i v w path hi _ ih =>
      rw [ways]
      exact List.mem_cons_of_mem _ (Nat.zero_add i ▸ mem_waysOfItems hi ih)
  | field hk _ ih =>
      rw [ways]
      exact List.mem_cons_of_mem _ (mem_waysOfFields hk ih)

/-! ## Where references end -/

theorem walk?_append (v : Json) (path path' : List String) :
    walk? v (path ++ path') = (walk? v path).bind (walk? · path') := by
  induction path generalizing v with
  | nil => rfl
  | cons s path ih =>
      simp only [List.cons_append, walk?, Option.bind_eq_bind]
      cases step? v s with
      | none => rfl
      | some w => exact ih w

theorem node_eq_ok {document v : Json} {p : Pointer} :
    node document p = .ok v ↔ walk? document p.segments = some v := by
  unfold node
  split
  · next w hw => rw [hw, Except.ok.injEq, Option.some.injEq]
  · next hnone => simp [hnone]

/-- References end where they start or at a pointer that is written in the document. -/
theorem resolve_mem_targets {document v : Json} {p target : Pointer}
    (h : resolve document p = .ok (target, v)) : target = p ∨ target ∈ targets document := by
  have hfrom : ∀ trail current, resolveFrom document trail current = .ok (target, v) →
      target = current ∨ target ∈ targets document := by
    intro trail current h
    fun_induction resolveFrom document trail current with
    | case1 => cases h
    | case2 trail current w =>
        cases h
        exact .inl rfl
    | case3 => cases h
    | case4 => cases h
    | case5 trail current w hw text ht next hq hn ih =>
        rcases ih h with rfl | hmem
        · exact .inr (mem_targets hw ht hq)
        · exact .inr hmem
  exact hfrom [p] p h

/-! ## The number of values -/

theorem valueCount_pos (v : Json) : 0 < Session.valueCount v := by
  rw [← length_ways]
  exact List.length_pos_of_mem (nil_mem_ways v)

theorem valueCount_le_of_item {items : List Json} {v : Json} (h : v ∈ items) :
    Session.valueCount v ≤ Session.valueCountItems items := by
  induction items with
  | nil => cases h
  | cons w items ih =>
      rw [Session.valueCountItems]
      rcases List.mem_cons.1 h with rfl | h
      · exact Nat.le_add_right _ _
      · exact Nat.le_add_left_of_le (ih h)

theorem valueCount_le_of_lookup {fields : List (String × Json)} {k : String} {v : Json}
    (h : fields.lookup k = some v) : Session.valueCount v ≤ Session.valueCountFields fields := by
  induction fields with
  | nil => cases h
  | cons f fields ih =>
      rw [Session.valueCountFields]
      rw [List.lookup_cons] at h
      split at h
      · cases h
        exact Nat.le_add_right _ _
      · exact Nat.le_add_left_of_le (ih h)

theorem valueCount_le_of_walk? {v w : Json} {path : List String} (h : walk? v path = some w) :
    Session.valueCount w ≤ Session.valueCount v := by
  induction path generalizing v with
  | nil =>
      cases h
      exact Nat.le_refl _
  | cons s path ih =>
      simp only [walk?, Option.bind_eq_bind, Option.bind_eq_some_iff] at h
      obtain ⟨u, hu, hw⟩ := h
      refine Nat.le_trans (ih hw) ?_
      cases v with
      | obj fields =>
          rw [Session.valueCount]
          exact Nat.le_add_left_of_le (valueCount_le_of_lookup hu)
      | arr items =>
          simp only [step?, Option.bind_eq_bind, Option.bind_eq_some_iff] at hu
          obtain ⟨i, -, hi⟩ := hu
          rw [Session.valueCount]
          exact Nat.le_add_left_of_le (valueCount_le_of_item (List.mem_of_getElem? hi))
      | _ => simp [step?] at hu

/-! ## Places -/

/-- The value at a pointer; null where there is none. -/
def valueAt (document : Json) (p : Pointer) : Json := (walk? document p.segments).getD .null

theorem valueCount_valueAt_le (document : Json) (p : Pointer) :
    Session.valueCount (valueAt document p) ≤ Session.valueCount document := by
  unfold valueAt
  cases h : walk? document p.segments with
  | none => exact valueCount_pos document
  | some v => exact valueCount_le_of_walk? h

/-- The pointer `q` goes a way from `p` or from the end of a reference. -/
def Spelled (document : Json) (p q : Pointer) : Prop :=
  ∃ base ∈ p :: targets document, ∃ path v, Way (valueAt document base) path v ∧
    q = ⟨base.segments ++ path⟩

/-- All pointers that go a way from `p` or from the end of a reference. -/
def places (document : Json) (p : Pointer) : List Pointer :=
  (p :: targets document).flatMap fun base =>
    (ways (valueAt document base)).map fun path => ⟨base.segments ++ path⟩

section Spelled

variable {document v w : Json} {p q target : Pointer} {path : List String}

theorem Spelled.mem_places (h : Spelled document p q) : q ∈ places document p := by
  obtain ⟨base, hbase, path, v, hway, rfl⟩ := h
  exact List.mem_flatMap.2 ⟨base, hbase, List.mem_map.2 ⟨path, hway.mem_ways, rfl⟩⟩

/-- The places are no more than the loads that can nest. -/
theorem length_places_lt (document : Json) (p : Pointer) :
    (places document p).length < Session.loadBound document := by
  have hle : ∀ bases : List Pointer, (bases.flatMap fun base =>
      (ways (valueAt document base)).map fun path => (⟨base.segments ++ path⟩ : Pointer)).length ≤
      bases.length * Session.valueCount document := by
    intro bases
    induction bases with
    | nil => exact Nat.zero_le _
    | cons base bases ih =>
        rw [List.flatMap_cons, List.length_append, List.length_map, length_ways, List.length_cons,
          Nat.succ_mul, Nat.add_comm]
        exact Nat.add_le_add ih (valueCount_valueAt_le document base)
  have htargets : (p :: targets document).length ≤ (references document).length + 1 :=
    Nat.succ_le_succ (List.length_filterMap_le _ _)
  refine Nat.lt_of_le_of_lt (Nat.le_trans (hle _) (Nat.mul_le_mul_right _ htargets)) ?_
  exact Nat.lt_add_of_pos_right Nat.two_pos

theorem spelled_of_base (h : q ∈ p :: targets document) : Spelled document p q :=
  ⟨q, h, [], _, .here _, by rw [List.append_nil]⟩

theorem Spelled.resolve (hq : Spelled document p q)
    (h : resolve document q = .ok (target, v)) : Spelled document p target := by
  rcases resolve_mem_targets h with rfl | hmem
  · exact hq
  · exact spelled_of_base (List.mem_cons_of_mem p hmem)

theorem Spelled.below (hq : Spelled document p q) (hv : node document q = .ok v)
    (h : Way v path w) : Spelled document p ⟨q.segments ++ path⟩ := by
  obtain ⟨base, hbase, path', u, hway, rfl⟩ := hq
  rw [node_eq_ok, walk?_append] at hv
  obtain ⟨x, hx, hv⟩ := Option.bind_eq_some_iff.1 hv
  have hvalue : valueAt document base = x := by
    unfold valueAt
    rw [hx]
    rfl
  obtain rfl := hway.eq_of_walk? (hvalue ▸ hv)
  exact ⟨base, hbase, path' ++ path, w, hway.trans h, by rw [List.append_assoc]⟩

end Spelled

end Document

end ApiModel
