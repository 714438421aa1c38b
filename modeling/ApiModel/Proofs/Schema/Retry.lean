/-
  ApiModel.Proofs.Schema.Retry

  Names for another try. A normalization that failed has left schemas behind; started again, it stores
  new ones, which need other names. No value depends on these names: a schema whose normalization has
  failed has no normal form, and no value takes that of a schema that has none.
-/
import ApiModel.Proofs.Schema.Labels

namespace ApiModel.Arena

/-! ## Values that are still there -/

section Below

variable {α β : Type} {o o' : Option α} {f f' : α → Option β}

/-- A value of `o` is one of `o'`. -/
def Below (o o' : Option α) : Prop := ∀ r, o = some r → o' = some r

theorem Below.refl (o : Option α) : Below o o := fun _ h => h

theorem below_none (o : Option α) : Below none o := nofun

theorem Below.bind (h : Below o o') (hf : ∀ r, Below (f r) (f' r)) :
    Below (o >>= f) (o' >>= f') := by
  intro q hq
  obtain ⟨r, hr, hq⟩ := Option.bind_eq_some_iff.1 hq
  exact Option.bind_eq_some_iff.2 ⟨r, h r hr, hf r q hq⟩

theorem Below.map (h : Below o o') (g : α → β) : Below (o.map g) (o'.map g) := by
  intro q hq
  obtain ⟨r, hr, rfl⟩ := Option.map_eq_some_iff.1 hq
  exact congrArg (Option.map g) (h r hr)

/-- What has a value has it in any other way of working it out that gives no less. -/
theorem Settles.transfer {cx cy : Nat → Option α} {r : α} (h : Settles cx r)
    (hle : ∀ n, Below (cx n) (cy n)) (hmono : ∀ n, Below (cy n) (cy (n + 1))) :
    Settles cy r := by
  obtain ⟨n, hn⟩ := h.1
  have hlater : ∀ k m, Below (cy k) (cy (k + m)) := fun k m => by
    induction m with
    | zero => exact .refl _
    | succ m ih => exact fun r hr => hmono _ r (ih r hr)
  refine ⟨⟨n, fun m hm => hle m r (hn m hm)⟩, fun k r' hr' => ?_⟩
  -- with enough calls both are the value
  have hr := hle (k + n) r (hn (k + n) (Nat.le_add_left n k))
  exact Option.some.inj ((hlater k n r' hr').symm.trans hr)

end Below

/-! ## More answers give more values -/

namespace Asker

variable {ask ask' : Asker}

/-- Every answer of `ask` is one of `ask'`. -/
def Le (ask ask' : Asker) : Prop := ∀ task, Below (ask task) (ask' task)

variable (h : ask.Le ask')
include h

theorem below_children (x y : SchemaId) (place : Pointer) :
    Below (ask.children x y place) (ask'.children x y place) := by
  unfold children
  split
  · exact .refl _
  refine (h _).bind fun nx => (h _).bind fun ny => ?_
  split
  · exact (h _).bind fun r => .refl _
  · exact .refl _

theorem below_items (a b : Schema) (place : Pointer) :
    Below (ask.items a b place) (ask'.items a b place) := by
  unfold items
  split
  · exact (below_children h _ _ _).bind fun z => .refl _
  · exact .refl _

theorem below_extras (a b : Schema) (place : Pointer) :
    Below (ask.extras a b place) (ask'.extras a b place) := by
  unfold extras
  split
  case h_7 => exact (below_children h _ _ _).bind fun z => .refl _
  all_goals exact .refl _

theorem below_property (a b : Schema) (key : String) (place : Pointer) :
    Below (ask.property a b key place) (ask'.property a b key place) := by
  unfold property
  split
  · exact below_children h _ _ _
  · split
    · exact below_children h _ _ _
    · exact .refl _
  · split
    · exact below_children h _ _ _
    · exact .refl _
  · exact .refl _

theorem below_properties (a b : Schema) (base : Pointer) (keys : List String)
    (merged : Dict String SchemaId) :
    Below (ask.properties a b base keys merged) (ask'.properties a b base keys merged) := by
  induction keys generalizing merged with
  | nil => exact .refl _
  | cons key keys ih =>
      unfold properties
      refine (below_property h _ _ _ _).bind fun child => ?_
      split
      · exact ih _
      · exact .refl _

theorem below_crossPairs (place : Pointer) (pairs : List (SchemaId × SchemaId))
    (found : List SchemaId) :
    Below (ask.crossPairs place pairs found) (ask'.crossPairs place pairs found) := by
  induction pairs generalizing found with
  | nil => exact .refl _
  | cons e pairs ih =>
      unfold crossPairs
      refine (h _).bind fun branch => ?_
      split <;> exact ih _

theorem below_sides (x y : SchemaId) (a b own : Schema) (place : Pointer) :
    Below (ask.sides x y a b own place) (ask'.sides x y a b own place) := by
  unfold sides
  split
  · exact .refl _
  · exact (below_crossPairs h _ _ _).bind fun bs => .refl _

theorem below_survivors (own : SchemaId) (group : Pointer) (i : Nat) (ms : List SchemaId) :
    Below (ask.survivors own group i ms) (ask'.survivors own group i ms) := by
  induction ms generalizing i with
  | nil => exact .refl _
  | cons m ms ih =>
      unfold survivors
      exact (h _).bind fun branch => (ih _).bind fun others => .refl _

theorem below_conjoinAll (place : Pointer) (own : SchemaId) (ms : List SchemaId) :
    Below (ask.conjoinAll place own ms) (ask'.conjoinAll place own ms) := by
  induction ms generalizing own with
  | nil => exact .refl _
  | cons m ms ih =>
      unfold conjoinAll
      refine (h _).bind fun next => ?_
      split
      · exact ih _
      · exact .refl _

end Asker

namespace Nomenclature

variable {ν : Nomenclature} {ask ask' : Asker} (h : ask.Le ask')
include h

theorem below_plan (x y : SchemaId) (place : Pointer) :
    Below (ν.plan ask x y place) (ν.plan ask' x y place) := by
  unfold plan
  dsimp only
  split
  · exact .refl _
  split
  · exact .refl _
  refine (Below.refl _).bind fun keywords => (Asker.below_items h _ _ _).bind fun items => ?_
  split
  · refine (Asker.below_extras h _ _ _).bind fun extras =>
      (Asker.below_properties h _ _ _ _ _).bind fun properties => ?_
    split
    · exact Asker.below_sides h _ _ _ _ _ _
    · exact .refl _
  · exact .refl _

theorem below_forms (x y : SchemaId) (place : Pointer) :
    Below (ν.forms ask x y place) (ν.forms ask' x y place) := (below_plan h x y place).map _

theorem below_conjoin (x y : SchemaId) (place : Pointer) :
    Below (ν.conjoin ask x y place) (ν.conjoin ask' x y place) := by
  unfold conjoin
  refine (h _).bind fun a => ?_
  split
  · refine (h _).bind fun b => ?_
    split
    · split
      · exact .refl _
      · exact below_forms h _ _ _
    · exact .refl _
  · exact .refl _

theorem below_narrowed (m : SchemaId) (s : Schema) (child : SchemaId) :
    Below (ν.narrowed ask m s child) (ν.narrowed ask' m s child) := by
  unfold narrowed
  refine (h _).bind fun inner => ?_
  split
  · split
    · exact .refl _
    · refine (Below.refl _).bind fun narrowing => ?_
      split
      · exact h _
      · exact .refl _
  · exact .refl _

theorem below_withAlternatives (m : SchemaId) (s : Schema) (own : SchemaId) :
    Below (ν.withAlternatives ask m s own) (ν.withAlternatives ask' m s own) := by
  unfold withAlternatives
  refine (Asker.below_survivors h _ _ _ _).bind fun as => ?_
  split
  · exact .refl _
  refine (Asker.below_survivors h _ _ _ _).bind fun os => ?_
  split
  · exact .refl _
  dsimp only
  split
  · exact .refl _
  split
  · exact .refl _
  · exact (Asker.below_crossPairs h _ _ _).bind fun bs => .refl _

theorem below_normalForm (m : SchemaId) :
    Below (ν.normalForm ask m) (ν.normalForm ask' m) := by
  unfold normalForm
  dsimp only
  split
  · exact .refl _
  split
  · exact below_narrowed h _ _ _
  refine (Below.refl _).bind fun start => ?_
  split
  · refine (Asker.below_conjoinAll h _ _ _).bind fun own => ?_
    split
    · exact below_withAlternatives h _ _ _
    · exact .refl _
  · exact .refl _

theorem below_step : (ν.step ask).Le (ν.step ask')
  | .normalize m => by
      unfold step normalize
      dsimp only
      split
      · exact .refl _
      · exact below_normalForm h m
  | .conjoin x y place => below_conjoin h x y place

omit h in
/-- More calls give more values. -/
theorem below_eval (ν : Nomenclature) (n : Nat) : (ν.eval n).Le (ν.eval (n + 1)) := by
  induction n with
  | zero => exact fun _ => below_none _
  | succ n ih => exact below_step ih

end Nomenclature

/-! ## Another try -/

namespace Nomenclature

variable (ν : Nomenclature) {m : SchemaId}

/-- The schema `m` has no normal form, however many calls there are. -/
def Fails (m : SchemaId) : Prop := ∀ n, ν.normalForm (ν.eval n) m = none

open Classical in
/-- The names for another try at all normalizations that fail. -/
noncomputable def retry : Nomenclature :=
  { ν with failures := fun m => if ν.Fails m then ν.failures m + 1 else ν.failures m }

theorem failures_retry_of_fails (hm : ν.Fails m) : ν.retry.failures m = ν.failures m + 1 :=
  if_pos hm

theorem failures_retry (hm : ¬ν.Fails m) : ν.retry.failures m = ν.failures m := if_neg hm

/-- What a normalization that does not fail comes to is named as before. -/
theorem normalForm_retry (hm : ¬ν.Fails m) (ask : Asker) :
    ν.retry.normalForm ask m = ν.normalForm ask m := by
  have hown : ν.retry.own m = ν.own m := by
    funext part
    exact congrArg (Origin.own m part) (ν.failures_retry hm)
  have hkeep : ν.retry.keep = ν.keep := rfl
  have hcontent : ν.retry.content = ν.content := rfl
  unfold normalForm narrowed withAlternatives gather
  rw [hown, hkeep, hcontent]

/-- No value is lost when the names for another try are taken. -/
theorem below_retry (n : Nat) : (ν.eval n).Le (ν.retry.eval n) := by
  induction n with
  | zero => exact fun _ => below_none _
  | succ n ih =>
  intro task
  cases task with
  | conjoin x y place => exact below_conjoin ih x y place
  | normalize m =>
      by_cases hform : ν.IsForm m
      · rw [show ν.eval (n + 1) (.normalize m) = some (some m) from if_pos hform,
          show ν.retry.eval (n + 1) (.normalize m) = some (some m) from if_pos hform]
        exact .refl _
      · rw [ν.eval_normalize hform, ν.retry.eval_normalize hform]
        intro r hr
        have hm : ¬ν.Fails m := fun hfails => by
          cases (hfails n).symm.trans hr
        rw [ν.normalForm_retry hm]
        exact below_normalForm ih m r hr

variable {ν}

theorem settles_retry {task : Task} {r : Option SchemaId}
    (h : Settles (fun n => ν.eval n task) r) : Settles (fun n => ν.retry.eval n task) r :=
  h.transfer (fun n => ν.below_retry n task) fun n => ν.retry.below_eval n task

theorem settles_forms_retry {x y : SchemaId} {place : Pointer} {r : Option SchemaId}
    (h : Settles (fun n => ν.forms (ν.eval n) x y place) r) :
    Settles (fun n => ν.retry.forms (ν.retry.eval n) x y place) r :=
  h.transfer (fun n => below_forms (ν.below_retry n) x y place)
    fun n => below_forms (ν.retry.below_eval n) x y place

end Nomenclature

/-- Labels that are right but for normalizations given up are right with the names for another
    try. -/
theorem tracks_retry {O : Set SchemaId} {ν : Nomenclature} {ℓ : Labels} {a : Arena}
    (h : TracksBut O ν (fun _ _ _ => False) ν.Fails ℓ a) : Tracks O ν.retry ℓ a where
  inj := h.inj
  content := h.content
  form := h.form
  done i r hr hi := Nomenclature.settles_retry (h.done i r hr hi)
  memo x y p r hr hx hy := Nomenclature.settles_forms_retry (h.memo x y p r hr hx hy)
  own i m part k s hi hs := by
    have hk := h.own i m part k s hi hs
    by_cases hm : ν.Fails m
    · refine .inl ?_
      rw [ν.failures_retry_of_fails hm]
      exact Nat.lt_succ_of_le (hk.elim Nat.le_of_lt fun heq => Nat.le_of_eq heq.1)
    · rw [ν.failures_retry hm]
      exact hk.imp_right (.imp_right fun hor => .inr (hor.resolve_left hm))
  both := h.both
  other := h.other

end ApiModel.Arena
