/-
  ApiModel.Proofs.Schema.Memoless

  Normal forms and conjunctions as a function of names. The functions here work out the tasks of the
  algebra with nothing remembered and nothing stored: a new schema is its name, which says what it is
  made of. They know no schema under normalization either, so a cycle of combinators makes them ask
  for ever: what they give depends on a supply of calls, and none is enough for a cycle.
-/
import ApiModel.Proofs.Schema.Nomenclature
import ApiModel.Proofs.Schema.Outcome

namespace ApiModel.Arena

/-! ## Values that depend on a supply of calls -/

section Supply

variable {α β γ : Type} {cx : Nat → Option α} {cf : Nat → α → Option β} {cy : Nat → Option γ}
  {r : α} {q : β}

/-- With enough calls the value is `r`, and it is never another one. -/
def Settles (cx : Nat → Option α) (r : α) : Prop :=
  (∃ n, ∀ m, n ≤ m → cx m = some r) ∧ ∀ n r', cx n = some r' → r' = r

/-- There is no value of `cx` without one of `cy` for fewer calls. -/
def Needs (cx : Nat → Option α) (cy : Nat → Option γ) : Prop :=
  ∀ n, (cx n).isSome → ∃ m < n, (cy m).isSome

theorem settles_pure (r : α) : Settles (fun _ => some r) r :=
  ⟨⟨0, fun _ _ => rfl⟩, fun _ _ h => (Option.some.inj h).symm⟩

theorem Settles.bind (hx : Settles cx r) (hf : Settles (fun n => cf n r) q) :
    Settles (fun n => cx n >>= cf n) q := by
  obtain ⟨⟨n₁, h₁⟩, hx⟩ := hx
  obtain ⟨⟨n₂, h₂⟩, hf⟩ := hf
  refine ⟨⟨max n₁ n₂, fun m hm => ?_⟩, fun n q' h => ?_⟩
  · dsimp only
    rw [h₁ m (by omega)]
    exact h₂ m (by omega)
  · obtain ⟨r', hr', hq'⟩ := Option.bind_eq_some_iff.1 h
    exact hf n q' (hx n r' hr' ▸ hq')

theorem Settles.map (hx : Settles cx r) (f : α → β) :
    Settles (fun n => (cx n).map f) (f r) := by
  obtain ⟨⟨n, h⟩, hx⟩ := hx
  refine ⟨⟨n, fun m hm => congrArg (Option.map f) (h m hm)⟩, fun m q' hq => ?_⟩
  obtain ⟨r', hr', rfl⟩ := Option.map_eq_some_iff.1 hq
  rw [hx m r' hr']

theorem Settles.unique {r' : α} (h : Settles cx r) (h' : Settles cx r') : r = r' := by
  obtain ⟨n, hn⟩ := h.1
  exact h'.2 n r (hn n (Nat.le_refl n))

/-- Calls that are made in any case do not matter. -/
theorem settles_succ {cz : Nat → Option α} (hsucc : ∀ n, cz (n + 1) = cx n) (hzero : cz 0 = none)
    (h : Settles cx r) : Settles cz r := by
  obtain ⟨⟨n, hn⟩, hx⟩ := h
  refine ⟨⟨n + 1, fun m hm => ?_⟩, fun m r' hr' => ?_⟩
  · obtain ⟨m, rfl⟩ := Nat.exists_eq_add_of_le' (Nat.le_trans (Nat.le_add_left 1 n) hm)
    rw [hsucc]
    exact hn m (by omega)
  · cases m with
    | zero => rw [hzero] at hr'; cases hr'
    | succ m => exact hx m r' (hsucc m ▸ hr')

theorem Settles.not_never (h : Settles cx r) : ¬∀ n, cx n = none := by
  obtain ⟨n, hn⟩ := h.1
  intro hnever
  cases (hnever n).symm.trans (hn n (Nat.le_refl n))

theorem Needs.bind (h : Needs cx cy) : Needs (fun n => cx n >>= cf n) cy := by
  intro n hn
  obtain ⟨q, hq⟩ := Option.isSome_iff_exists.1 hn
  obtain ⟨r, hr, -⟩ := Option.bind_eq_some_iff.1 hq
  exact h n (Option.isSome_of_eq_some hr)

theorem Needs.after (hx : Settles cx r) (h : Needs (fun n => cf n r) cy) :
    Needs (fun n => cx n >>= cf n) cy := by
  intro n hn
  obtain ⟨q, hq⟩ := Option.isSome_iff_exists.1 hn
  obtain ⟨r', hr', hq⟩ := Option.bind_eq_some_iff.1 hq
  obtain rfl := hx.2 n r' hr'
  exact h n (Option.isSome_of_eq_some hq)

theorem needs_succ {cz : Nat → Option α} (hsucc : ∀ n, cz (n + 1) = cx n) (hzero : cz 0 = none)
    (h : Needs cx cy) : Needs cz cy := by
  intro n hn
  cases n with
  | zero => rw [hzero] at hn; cases hn
  | succ n =>
      obtain ⟨m, hm, hy⟩ := h n (hsucc n ▸ hn)
      exact ⟨m, Nat.lt_succ_of_lt hm, hy⟩

theorem Needs.trans {δ : Type} {cz : Nat → Option δ} (h : Needs cx cy) (h' : Needs cy cz) :
    Needs cx cz := by
  intro n hn
  obtain ⟨m, hm, hy⟩ := h n hn
  obtain ⟨k, hk, hz⟩ := h' m hy
  exact ⟨k, Nat.lt_trans hk hm, hz⟩

theorem Needs.never_of (h : Needs cx cy) (hnever : ∀ n, cy n = none) (n : Nat) : cx n = none := by
  by_contra hne
  obtain ⟨m, -, hy⟩ := h n (Option.isSome_iff_ne_none.2 hne)
  rw [hnever m] at hy
  cases hy

/-- What needs itself has no value. -/
theorem Needs.never (h : Needs cy cy) (n : Nat) : cy n = none := by
  induction n using Nat.strong_induction_on with
  | _ n ih =>
      by_contra hne
      obtain ⟨m, hm, hy⟩ := h n (Option.isSome_iff_ne_none.2 hne)
      rw [ih m hm] at hy
      cases hy

end Supply

/-! ## The tasks, worked out on names -/

/-- A way of asking for the answer to a task; the question may be left open. -/
abbrev Asker := Task → Option (Option SchemaId)

/-- What the conjunction of two normal forms comes to before anything is stored. -/
inductive Plan where
  | answer (r : Option SchemaId)
  /-- A schema with these demands. -/
  | demands (own : Schema)

/-- The value of a keyword on which both sides have to agree. -/
def agreement {α : Type} [BEq α] (x y : Option α) : Option (Option α) :=
  match x, y with
  | some v, some w => if v == w then some (some v) else none
  | x, y => some (x.or y)

/-- The demands that do not concern child schemas, if the sides agree where they have to. -/
def keywordsOf (a b : Schema) (place : Pointer) : Option Schema := do
  let multipleOf ← agreement a.multipleOf b.multipleOf
  let pattern ← agreement a.pattern b.pattern
  let format ← agreement a.format b.format
  return joinKeywords a b place multipleOf pattern format

namespace Asker

variable (ask : Asker)

/-- The conjunction of two child schemas. -/
def children (x y : SchemaId) (place : Pointer) : Option (Option SchemaId) := do
  if x = y then return some x
  let formX ← ask (.normalize x)
  let formY ← ask (.normalize y)
  match formX, formY with
  | some nx, some ny =>
    match ← ask (.conjoin nx ny place) with
    | none => return none
    | some r => return some (if r = nx then x else if r = ny then y else r)
  | _, _ => return none

def items (a b : Schema) (place : Pointer) : Option (Option (Option SchemaId)) := do
  match a.items, b.items with
  | some x, some y =>
    match ← ask.children x y (place.push "items") with
    | some z => return some (some z)
    | none => return none
  | x, y => return some (x.or y)

def extras (a b : Schema) (place : Pointer) : Option (Option Extras) := do
  match a.extras, b.extras with
  | none, other | some (.allowed true), other => return other
  | other, none | other, some (.allowed true) => return other
  | some (.allowed false), _ | _, some (.allowed false) => return some (.allowed false)
  | some (.matching x), some (.matching y) =>
    match ← ask.children x y (place.push "additionalProperties") with
    | some z => return some (.matching z)
    | none => return some (.allowed false)

def property (a b : Schema) (key : String) (place : Pointer) : Option (Option SchemaId) :=
  match a.properties.get? key, b.properties.get? key with
  | some x, some y => ask.children x y place
  | some x, none =>
    match extraSchema? b with
    | some extra => ask.children x extra place
    | none => return some x
  | none, some y =>
    match extraSchema? a with
    | some extra => ask.children extra y place
    | none => return some y
  | none, none => return none

def properties (a b : Schema) (base : Pointer) :
    List String → Dict String SchemaId → Option (Option (Dict String SchemaId))
  | [], merged => return some merged
  | key :: keys, merged => do
    let some child ← ask.property a b key (base.push key) | return none
    properties a b base keys (merged.insert key child)

def crossPairs (place : Pointer) :
    List (SchemaId × SchemaId) → List SchemaId → Option (List SchemaId)
  | [], found => return found
  | (l, r) :: rest, found => do
    match ← ask (.conjoin l r (place.index found.length)) with
    | some branch =>
      crossPairs place rest (if found.contains branch then found else found ++ [branch])
    | none => crossPairs place rest found

def cross (left right : List SchemaId) (place : Pointer) : Option (List SchemaId) :=
  ask.crossPairs place (left.flatMap fun l => right.map fun r => (l, r)) []

/-- What the conjunction of two normal forms with the demands `own` comes to by its alternatives. -/
def sides (x y : SchemaId) (a b own : Schema) (place : Pointer) : Option Plan := do
  if a.anyOf.isEmpty && b.anyOf.isEmpty then return .demands own
  let left := if a.anyOf.isEmpty then [x] else a.anyOf
  let right := if b.anyOf.isEmpty then [y] else b.anyOf
  match ← ask.cross left right (place.push "anyOf") with
  | [] => return .answer none
  | [only] => return .answer (some only)
  | branches => return .demands { own with anyOf := branches }

def survivors (own : SchemaId) (group : Pointer) :
    Nat → List SchemaId → Option (List SchemaId)
  | _, [] => return []
  | i, member :: rest => do
    let branch ← ask (.conjoin member own (group.index i))
    let others ← survivors own group (i + 1) rest
    return branch.toList ++ others

def conjoinAll (place : Pointer) : SchemaId → List SchemaId → Option (Option SchemaId)
  | current, [] => return some current
  | current, member :: rest => do
    let some next ← ask (.conjoin current member place) | return none
    conjoinAll place next rest

end Asker

namespace Nomenclature

variable (ν : Nomenclature) (ask : Asker)

/-- The name of a schema that is stored unless it matches nothing. -/
def keep (o : Origin) (s : Schema) : Option SchemaId :=
  if (trimValues s).isBottom then none else some (ν.stored o (trimValues s))

/-- What the conjunction of two normal forms comes to before anything is stored. -/
def plan (x y : SchemaId) (place : Pointer) : Option Plan := do
  let a := ν.content x
  let b := ν.content y
  if b.isUnconstrained then return .answer (some x)
  if a.isUnconstrained then return .answer (some y)
  let keywords ← keywordsOf a b place
  let some items ← ask.items a b place | return .answer none
  let extras ← ask.extras a b place
  let some properties ←
    ask.properties a b (place.push "properties") (mergedKeys a b) .empty | return .answer none
  ask.sides x y a b { keywords with items := items, extras := extras, properties := properties }
    place

/-- What comes of a plan for the conjunction of two normal forms. -/
def finish (x y : SchemaId) (place : Pointer) : Plan → Option SchemaId
  | .answer r => r
  | .demands own =>
    if own.sameDemands (ν.content x) then some x
    else if own.sameDemands (ν.content y) then some y
    else ν.keep (.both x y place) own

/-- The conjunction of two normal forms. -/
def forms (x y : SchemaId) (place : Pointer) : Option (Option SchemaId) :=
  (ν.plan ask x y place).map (ν.finish x y place)

/-- The conjunction of two schemas, by way of their normal forms. -/
def conjoin (x y : SchemaId) (place : Pointer) : Option (Option SchemaId) := do
  let some a ← ask (.normalize x) | return none
  let some b ← ask (.normalize y) | return none
  if a = b then return some a
  ν.forms ask a b place

/-- The normal form of `m` when it only narrows the kinds of `child`. -/
def narrowed (m : SchemaId) (s : Schema) (child : SchemaId) : Option (Option SchemaId) := do
  let some inner ← ask (.normalize child) | return none
  match s.kinds with
  | none => return some inner
  | some kinds =>
    let some narrowing ← some (ν.keep (ν.own m .narrowing) (kindsAlone s.pointer kinds))
      | return none
    ask (.conjoin inner narrowing s.pointer)

/-- What the alternatives that are left of `m` come to. -/
def gather (m : SchemaId) (s : Schema) (own : SchemaId) (branches : List SchemaId) :
    Option SchemaId :=
  match branches with
  | [] => if s.anyOf.isEmpty && s.oneOf.isEmpty then some own else none
  | [only] => some only
  | branches =>
    ν.keep (ν.own m .whole) { ν.content own with pointer := s.pointer, anyOf := branches }

/-- The normal form of `m` whose demands besides the alternatives are those of `own`. -/
def withAlternatives (m : SchemaId) (s : Schema) (own : SchemaId) :
    Option (Option SchemaId) := do
  let ofAny ← ask.survivors own (s.pointer.push "anyOf") 0 s.anyOf
  if !s.anyOf.isEmpty && ofAny.isEmpty then return none
  let ofOne ← ask.survivors own (s.pointer.push "oneOf") 0 s.oneOf
  if !s.oneOf.isEmpty && ofOne.isEmpty then return none
  let branches ←
    if ofAny.isEmpty then pure ofOne
    else if ofOne.isEmpty then pure ofAny
    else ask.cross ofAny ofOne (s.pointer.push "anyOf")
  return ν.gather m s own branches

/-- The normal form of the schema `m`, which is no normal form itself. -/
def normalForm (m : SchemaId) : Option (Option SchemaId) := do
  let s := ν.content m
  if s.isBottom then return none
  match s.soleChild? with
  | some child => ν.narrowed ask m s child
  | none =>
    let some start ← some (ν.keep (ν.own m .base) (baseOf s)) | return none
    let some own ← ask.conjoinAll s.pointer start s.allOf | return none
    ν.withAlternatives ask m s own

open Classical in
/-- The normal form of the schema `m`. -/
noncomputable def normalize (m : SchemaId) : Option (Option SchemaId) :=
  if ν.IsForm m then some (some m) else ν.normalForm ask m

/-- The answer to one task. -/
noncomputable def step : Asker
  | .normalize m => ν.normalize ask m
  | .conjoin x y place => ν.conjoin ask x y place

/-- The answer to a task with a supply of calls. -/
noncomputable def eval : Nat → Asker
  | 0, _ => none
  | calls + 1, task => ν.step (eval calls) task

theorem eval_normalize {m : SchemaId} (hm : ¬ν.IsForm m) (n : Nat) :
    ν.eval (n + 1) (.normalize m) = ν.normalForm (ν.eval n) m :=
  if_neg hm

/-- A conjunction of schemas takes the plan for the conjunction of their normal forms. -/
theorem needs_plan {x y a b : SchemaId} {place : Pointer}
    (hx : Settles (fun n => ν.eval n (.normalize x)) (some a))
    (hy : Settles (fun n => ν.eval n (.normalize y)) (some b)) (hne : a ≠ b) :
    Needs (fun n => ν.eval n (.conjoin x y place)) fun n => ν.plan (ν.eval n) a b place := by
  intro n hn
  cases n with
  | zero => cases hn
  | succ n =>
  refine ⟨n, Nat.lt_succ_self n, ?_⟩
  obtain ⟨r, hr⟩ := Option.isSome_iff_exists.1 hn
  obtain ⟨fx, hfx, hr⟩ :=
    Option.bind_eq_some_iff.1 (show ν.conjoin (ν.eval n) x y place = some r from hr)
  obtain rfl := hx.2 n fx hfx
  obtain ⟨fy, hfy, hr⟩ := Option.bind_eq_some_iff.1 hr
  obtain rfl := hy.2 n fy hfy
  dsimp only at hr
  rw [if_neg hne] at hr
  obtain ⟨p, hp, -⟩ := Option.map_eq_some_iff.1 hr
  exact Option.isSome_of_eq_some hp

end Nomenclature

end ApiModel.Arena
