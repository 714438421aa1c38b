/-
  ApiModel.Proofs.Schema.Passage

  What the algebra does to an arena. Whatever is worked out, an arena changes in three ways only: a
  schema is added, the memo and the path are rewritten, and a conjunction is put off under a set of
  operands that has no schema yet. A preorder of arenas that holds of each of these changes holds of
  every run, wherever it starts and however it ends.
-/
import ApiModel.Proofs.Effect
import ApiModel.Proofs.Schema.Law

namespace ApiModel.Arena

open Work

/-- One change of an arena. -/
inductive Change (a : Arena) : Arena → Prop where
  /-- A schema is added. -/
  | pushed (s : Schema) : Change a (a.push s)
  /-- Something is noted about normal forms, conjunctions or the path. -/
  | noted (progress : Dict SchemaId Progress) (pending : List SchemaId)
      (conjunctions : Dict (SchemaId × SchemaId × Pointer) (Option SchemaId)) :
      Change a { a with progress := progress, pending := pending, conjunctions := conjunctions }
  /-- A conjunction of several operands that has no schema yet is put off. -/
  | deferred {x y : SchemaId} {os : SortedSet SchemaId} (place : Pointer)
      (hos : (a.operandsOf x).union (a.operandsOf y) = os) (hmany : ∀ c, os.elements ≠ [c])
      (hnew : a.deferred.get? os = none) : Change a (a.addDeferred os place)

/-- From `a` changes lead to `b`: work on `a` passes through `b`, or leaves it. -/
abbrev Changes : Arena → Arena → Prop := Relation.ReflTransGen Change

section Obeys

variable {R : Arena → Arena → Prop} [IsPreorder Arena R] {solve : Solver}

variable (hR : ∀ a b, Change a b → R a b)
include hR

/-! ## Storing and putting off -/

theorem obeys_store (s : Schema) : Obeys R (store s) := by
  unfold store
  dsimp only
  split
  · exact .pure _
  · refine .view_bind fun id => .bind (.modify fun a => ?_) fun _ => .pure _
    exact trans_of R (hR _ _ (.pushed _)) (hR _ _ (.noted _ a.pending a.conjunctions))

theorem obeys_reuseOrStore (x y : SchemaId) (s₁ s₂ out : Schema) :
    Obeys R (reuseOrStore x y s₁ s₂ out) := by
  unfold reuseOrStore
  split
  · exact .pure _
  split
  · exact .pure _
  · exact obeys_store hR out

omit hR in
theorem obeys_combineKeywords (s₁ s₂ : Schema) (place : Pointer) :
    Obeys R (combineKeywords s₁ s₂ place) := by
  have hagreed : ∀ {α : Type} [BEq α] (p : Pointer) (k : String) (text : α → String)
      (v w : Option α), Obeys R (agreed p k text v w) := by
    intro α _ p k text v w
    unfold agreed
    split
    · split
      · exact .pure _
      · exact .fault _
    · exact .pure _
  exact .bind (hagreed _ _ _ _ _) fun _ => .bind (hagreed _ _ _ _ _) fun _ =>
    .bind (hagreed _ _ _ _ _) fun _ => .pure _

theorem obeys_putOff (x y : SchemaId) (place : Pointer) : Obeys R (putOff x y place) := by
  intro a
  unfold putOff
  rw [run_bind, run_view]
  dsimp only
  split
  · exact refl_of R a
  next hmany =>
    rw [run_bind, run_view]
    dsimp only
    split
    · exact refl_of R a
    · next hnew => exact hR _ _ (.deferred place rfl hmany hnew)

/-! ## Child schemas -/

variable (hsolve : ∀ task, Obeys R (solve task))
include hsolve

theorem obeys_conjoinChildren (x y : SchemaId) (place : Pointer) :
    Obeys R (conjoinChildren solve x y place) := by
  unfold conjoinChildren
  split
  · exact .pure _
  refine .view_bind fun _ => ?_
  split
  · exact .bind (obeys_putOff hR x y place) fun _ => .pure _
  refine .bind (hsolve _) fun fx => .bind (hsolve _) fun fy => ?_
  split
  · refine .bind (hsolve _) fun r => ?_
    split <;> exact .pure _
  · exact .pure _

theorem obeys_conjoinItems (s₁ s₂ : Schema) (place : Pointer) :
    Obeys R (conjoinItems solve s₁ s₂ place) := by
  unfold conjoinItems
  split
  · refine .bind (obeys_conjoinChildren hR hsolve _ _ _) fun r => ?_
    split <;> exact .pure _
  · exact .pure _

theorem obeys_conjoinExtras (s₁ s₂ : Schema) (place : Pointer) :
    Obeys R (conjoinExtras solve s₁ s₂ place) := by
  unfold conjoinExtras
  split
  case h_7 =>
    refine .bind (obeys_conjoinChildren hR hsolve _ _ _) fun r => ?_
    split <;> exact .pure _
  all_goals exact .pure _

theorem obeys_conjoinProperties (s₁ s₂ : Schema) (base : Pointer) (keys : List String)
    (merged : Dict String SchemaId) :
    Obeys R (conjoinProperties solve s₁ s₂ base keys merged) := by
  have hproperty : ∀ key place, Obeys R (conjoinProperty solve s₁ s₂ key place) := by
    intro key place
    unfold conjoinProperty
    split
    · exact obeys_conjoinChildren hR hsolve _ _ _
    · split
      · exact obeys_conjoinChildren hR hsolve _ _ _
      · exact .pure _
    · split
      · exact obeys_conjoinChildren hR hsolve _ _ _
      · exact .pure _
    · exact .pure _
  induction keys generalizing merged with
  | nil => exact .pure _
  | cons key keys ih =>
      refine .bind (hproperty key _) fun child => ?_
      split
      · exact ih _
      · exact .pure _

/-! ## Alternatives -/

omit hR in
theorem obeys_crossPairs (place : Pointer) (pairs : List (SchemaId × SchemaId))
    (found : List SchemaId) : Obeys R (crossPairs solve place pairs found) := by
  induction pairs generalizing found with
  | nil => exact .pure _
  | cons e rest ih =>
      refine .bind (hsolve _) fun branch => ?_
      split <;> exact ih _

omit hR in
theorem obeys_cross (left right : List SchemaId) (place : Pointer) :
    Obeys R (cross solve left right place) := obeys_crossPairs hsolve _ _ _

omit hR in
theorem obeys_survivors (own : SchemaId) (group : Pointer) (i : Nat) (ms : List SchemaId) :
    Obeys R (survivors solve own group i ms) := by
  induction ms generalizing i with
  | nil => exact .pure _
  | cons m ms ih => exact .bind (hsolve _) fun _ => .bind (ih _) fun _ => .pure _

/-! ## Conjunctions -/

theorem obeys_conjoinForms (x y : SchemaId) (place : Pointer) :
    Obeys R (conjoinForms solve x y place) := by
  unfold conjoinForms
  refine .view_bind fun s₁ => .view_bind fun s₂ => ?_
  split
  · exact .pure _
  split
  · exact .pure _
  refine .bind (obeys_combineKeywords _ _ _) fun keywords => ?_
  refine .bind (obeys_conjoinItems hR hsolve _ _ _) fun items => ?_
  split
  swap
  · exact .pure _
  refine .bind (obeys_conjoinExtras hR hsolve _ _ _) fun extras => ?_
  refine .bind (obeys_conjoinProperties hR hsolve _ _ _ _ _) fun properties => ?_
  split
  swap
  · exact .pure _
  dsimp only
  split
  · exact obeys_reuseOrStore hR _ _ _ _ _
  refine .bind (obeys_cross hsolve _ _ _) fun branches => ?_
  split
  · exact .pure _
  · exact .pure _
  · exact obeys_reuseOrStore hR _ _ _ _ _

/-- The conjunction of two normal forms, remembered or worked out now. -/
theorem obeys_conjoinRemembered (x y : SchemaId) (place : Pointer) : Obeys R (do
      match ← Work.view fun s => s.conjunctions.get? (x, y, place) with
      | some known => return known
      | none =>
        let result ← conjoinForms solve x y place
        Work.modify fun s =>
          { s with conjunctions := s.conjunctions.insert (x, y, place) result }
        return result) := by
  refine .view_bind fun known => ?_
  split
  · exact .pure _
  · refine .bind (obeys_conjoinForms hR hsolve _ _ _) fun result => ?_
    exact .bind (.modify fun a => hR _ _ (.noted a.progress a.pending _)) fun _ => .pure _

theorem obeys_conjoin (x y : SchemaId) (place : Pointer) : Obeys R (conjoin solve x y place) := by
  unfold conjoin
  refine .bind (hsolve _) fun fx => ?_
  split
  swap
  · exact .pure _
  refine .bind (hsolve _) fun fy => ?_
  split
  swap
  · exact .pure _
  split
  · exact .pure _
  · exact obeys_conjoinRemembered hR hsolve _ _ _

/-! ## Normal forms -/

omit hR in
theorem obeys_conjoinAll (place : Pointer) (own : SchemaId) (ms : List SchemaId) :
    Obeys R (conjoinAll solve place own ms) := by
  induction ms generalizing own with
  | nil => exact .pure _
  | cons m ms ih =>
      refine .bind (hsolve _) fun next => ?_
      split
      · exact ih _
      · exact .pure _

theorem obeys_narrowed (s : Schema) (child : SchemaId) : Obeys R (narrowed solve s child) := by
  unfold narrowed
  refine .bind (hsolve _) fun inner => ?_
  split
  swap
  · exact .pure _
  split
  · exact .pure _
  refine .bind (obeys_store hR _) fun narrowing => ?_
  split
  · exact hsolve _
  · exact .pure _

omit hsolve in
/-- The branches that are left, whichever group they come from. -/
theorem obeys_gather (s : Schema) (own : SchemaId) (branches : List SchemaId) :
    Obeys R (match branches with
      | [] => return if s.anyOf.isEmpty && s.oneOf.isEmpty then some own else none
      | [only] => return some only
      | branches => do
        let demands ← Work.view (·.schema own)
        store { demands with pointer := s.pointer, anyOf := branches }) := by
  split
  · exact .pure _
  · exact .pure _
  · exact .view_bind fun _ => obeys_store hR _

/-- What follows on the survivors of the two groups. -/
theorem obeys_branches (s : Schema) (own : SchemaId) (ofAny ofOne : List SchemaId) :
    Obeys R (do
      if !s.oneOf.isEmpty && ofOne.isEmpty then return none
      let branches ←
        if ofAny.isEmpty then pure ofOne
        else if ofOne.isEmpty then pure ofAny
        else cross solve ofAny ofOne (s.pointer.push "anyOf")
      match branches with
      | [] => return if s.anyOf.isEmpty && s.oneOf.isEmpty then some own else none
      | [only] => return some only
      | branches =>
        let demands ← Work.view (·.schema own)
        store { demands with pointer := s.pointer, anyOf := branches }) := by
  split
  · exact .pure _
  dsimp only
  split
  · exact .bind (.pure _) (obeys_gather hR s own)
  split
  · exact .bind (.pure _) (obeys_gather hR s own)
  · exact .bind (obeys_cross hsolve _ _ _) (obeys_gather hR s own)

theorem obeys_withAlternatives (s : Schema) (own : SchemaId) :
    Obeys R (withAlternatives solve s own) := by
  unfold withAlternatives
  refine .bind (obeys_survivors hsolve _ _ _ _) fun ofAny => ?_
  split
  · exact .pure _
  · exact .bind (obeys_survivors hsolve _ _ _ _) fun ofOne =>
      obeys_branches hR hsolve s own ofAny ofOne

theorem obeys_normalForm (x : SchemaId) : Obeys R (normalForm solve x) := by
  unfold normalForm
  refine .view_bind fun s => ?_
  split
  · exact .pure _
  split
  · exact obeys_narrowed hR hsolve s _
  refine .bind (obeys_store hR _) fun start => ?_
  split
  swap
  · exact .pure _
  refine .bind (obeys_conjoinAll hsolve _ _ _) fun own => ?_
  split
  · exact obeys_withAlternatives hR hsolve s _
  · exact .pure _

theorem obeys_normalize (x : SchemaId) : Obeys R (normalize solve x) := by
  unfold normalize
  refine .view_bind fun known => ?_
  split
  · exact .pure _
  · exact .view_bind fun _ => .fault _
  refine .bind (.modify fun a => hR _ _ (.noted _ _ a.conjunctions)) fun _ => ?_
  refine .thenAlways (obeys_normalForm hR hsolve x) fun r a => ?_
  rw [settle_eq]
  exact hR _ _ (.noted _ _ a.conjunctions)

omit hsolve in
/-- Every supply of nested calls leads through changes alone. -/
theorem obeys_solve (calls : Nat) (task : Task) : Obeys R (Arena.solve calls task) := by
  induction calls generalizing task with
  | zero => exact .exhausted
  | succ calls ih =>
      cases task with
      | normalize x => exact obeys_normalize hR ih x
      | conjoin x y place => exact obeys_conjoin hR ih x y place

end Obeys

end ApiModel.Arena
