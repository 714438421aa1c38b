/-
  ApiModel.Proofs.Schema.Follow

  Computations on an arena that follow a value worked out on names. From right labels such a
  computation comes to right labels and to a result that is the value, and where it fails, there is
  no value. This holds as long as no conjunction is put off but of schemas that lead to something that
  is left out of account: putting off is what the functions on names know nothing of.
-/
import ApiModel.Proofs.Schema.Labels
import ApiModel.Proofs.Schema.Passage
import ApiModel.Proofs.Schema.Provenance

namespace ApiModel.Arena

open Mentions (ids rename)

variable {α β : Type} {solve : Solver}

/-! ## Conjunctions put off -/

/-- No conjunction has been put off. -/
def Prompt (a : Arena) : Prop := ∀ id, a.operands.get? id = none

theorem prompt_of_isEmpty {a : Arena} (h : a.operands.isEmpty = true) : a.Prompt := by
  intro id
  unfold Dict.isEmpty at h
  unfold Dict.get?
  rw [List.isEmpty_iff.1 h]
  rfl

/-- Conjunctions have been put off only where they lead to something in `O`. -/
def PromptBut (O : Set SchemaId) (a : Arena) : Prop :=
  ∀ d, a.operands.get? d ≠ none → ¬Inner O a d

theorem promptBut_settle {O : Set SchemaId} {a : Arena} {id : SchemaId}
    {out : Except Failure (Option SchemaId)} : (settle id out a).PromptBut O ↔ a.PromptBut O := by
  have hoperands : (settle id out a).operands = a.operands := by rw [settle_eq]
  unfold PromptBut
  simp only [hoperands, inner_settle]

/-- The schemas of `a`, and what they stand for, are there in `b`. -/
structure Retains (a b : Arena) : Prop where
  next : a.next ≤ b.next
  schema : ∀ i, i < a.next → b.schema i = a.schema i
  operands : ∀ i, i < a.next → b.operands.get? i = a.operands.get? i

instance : IsPreorder Arena Retains where
  refl _ := ⟨Nat.le_refl _, fun _ _ => rfl, fun _ _ => rfl⟩
  trans _ _ _ hab hbc := ⟨Nat.le_trans hab.next hbc.next,
    fun i hi => (hbc.schema i (Nat.lt_of_lt_of_le hi hab.next)).trans (hab.schema i hi),
    fun i hi => (hbc.operands i (Nat.lt_of_lt_of_le hi hab.next)).trans (hab.operands i hi)⟩

/-- No change of an arena touches the schemas that there are. -/
theorem Change.retains (a b : Arena) (h : Change a b) : Retains a b := by
  cases h with
  | pushed s =>
      refine ⟨next_push a s ▸ Nat.le_succ _, fun i hi => ?_, fun _ _ => rfl⟩
      rw [schema_push, if_neg (Nat.ne_of_lt hi)]
  | noted => exact ⟨Nat.le_refl _, fun _ _ => rfl, fun _ _ => rfl⟩
  | @deferred x y os place =>
      refine ⟨next_addDeferred a os place ▸ Nat.le_succ _, fun i hi => ?_, fun i hi => ?_⟩
      · rw [schema_addDeferred, if_neg (Nat.ne_of_lt hi)]
      · rw [operands_addDeferred, if_neg (Nat.ne_of_lt hi)]

/-- Whatever comes of `x`, the schemas that there were are there. -/
abbrev Keeps (x : ArenaWork α) : Prop := Work.Obeys Retains x

theorem keeps_pure (r : α) : Keeps (pure r) := .pure r

/-- What was put off before is put off afterwards. -/
theorem promptBut_of_retains {P : Json → Prop} {O : Set SchemaId} {a b : Arena} (ha : a.WellFormed P)
    (h : Retains a b) (hb : b.PromptBut O) : a.PromptBut O := by
  intro d hd hinner
  have hlt := hinner.lt
  exact hb d (h.operands d hlt ▸ hd) ((inner_iff ha h.next h.schema hlt).2 hinner)

/-! ## What a computation adds -/

/-- What a computation may add besides the schemas of normalizations that it starts itself and the
    conjunctions that its tasks ask for. -/
structure Allowance where
  own : SchemaId → Part → Prop
  key : SchemaId → SchemaId → Pointer → Prop

namespace Allowance

/-- Nothing besides. -/
def none : Allowance := ⟨fun _ _ => False, fun _ _ _ => False⟩

/-- All that `A` allows is allowed by `B`. -/
structure Within (A B : Allowance) : Prop where
  own : ∀ m part, A.own m part → B.own m part
  key : ∀ x y p, A.key x y p → B.key x y p

theorem Within.refl (A : Allowance) : A.Within A := ⟨fun _ _ h => h, fun _ _ _ h => h⟩

theorem Within.of_none (A : Allowance) : none.Within A :=
  ⟨fun _ _ => False.elim, fun _ _ _ => False.elim⟩

end Allowance

variable {ν : Nomenclature} {A B : Allowance} {ℓ ℓ' ℓ'' : Labels} {a b c : Arena}
  {P : Json → Prop} {O : Set SchemaId} {cx : Nat → Option α} {cf : Nat → α → Option β}

/-- The labels `ℓ'` for the arena `b` go on from the labels `ℓ` for `a`, and all that is new is
    stored. -/
structure Carries (ν : Nomenclature) (ℓ ℓ' : Labels) (a b : Arena) : Prop where
  ext : Extends a ℓ ℓ'
  form : ∀ i, a.next ≤ i → i < b.next → ν.IsForm (ℓ' i)

theorem Carries.refl (a : Arena) (ℓ : Labels) : Carries ν ℓ ℓ a a where
  ext := .refl a ℓ
  form _ hle hlt := absurd hlt (Nat.not_lt.2 hle)

theorem Carries.trans (hab : a.next ≤ b.next) (h : Carries ν ℓ ℓ' a b)
    (h' : Carries ν ℓ' ℓ'' b c) : Carries ν ℓ ℓ'' a c where
  ext := h.ext.trans hab h'.ext
  form i hle hlt := by
    rcases Nat.lt_or_ge i b.next with hib | hib
    · exact h'.ext i hib ▸ h.form i hle hib
    · exact h'.form i hib hlt

/-- From the arena `a` with the labels `ℓ` to the arena `b` with the labels `ℓ'`, by a computation
    of the value `cx`. -/
structure Moves (ν : Nomenclature) (A : Allowance) (ℓ ℓ' : Labels) (a b : Arena)
    (cx : Nat → Option α) : Prop extends Carries ν ℓ ℓ' a b where
  /-- A normalization of a schema that has been started before stores nothing by itself. -/
  own : ∀ i m part k s, a.next ≤ i → i < b.next → ℓ' i = ν.stored (.own m part k) s →
    A.own m part ∨ ∀ j, j < a.next → ℓ j = m → a.progress.get? j = none
  /-- The value of `cx` takes that of every conjunction remembered. -/
  key : ∀ x y p, a.conjunctions.get? (x, y, p) = none → b.conjunctions.get? (x, y, p) ≠ none →
    A.key (ℓ' x) (ℓ' y) p ∨ Needs cx fun n => ν.plan (ν.eval n) (ℓ' x) (ℓ' y) p

theorem Moves.refl (a : Arena) (ℓ : Labels) (cx : Nat → Option α) : Moves ν A ℓ ℓ a a cx where
  toCarries := .refl a ℓ
  own _ _ _ _ _ hle hlt := absurd hlt (Nat.not_lt.2 hle)
  key _ _ _ hnone hsome := absurd hnone hsome

theorem Moves.widen (h : Moves ν A ℓ ℓ' a b cx) (hAB : A.Within B) : Moves ν B ℓ ℓ' a b cx :=
  { h with
    own := fun i m part k s hle hlt hs =>
      (h.own i m part k s hle hlt hs).imp_left (hAB.own m part)
    key := fun x y p hnone hsome => (h.key x y p hnone hsome).imp_left (hAB.key _ _ p) }

/-- What has been started stays started. -/
theorem progress_eq_none (ha : a.WellFormed P) (hb : b.WellFormed P) (hab : Advances a b)
    {id : SchemaId} (h : b.progress.get? id = none) : a.progress.get? id = none := by
  match hp : a.progress.get? id with
  | none => rfl
  | some .inProgress =>
      rw [ha.pending, ← hab.pending, ← hb.pending, h] at hp
      cases hp
  | some (.done r) =>
      rw [hab.done id r hp] at h
      cases h

/-- The schemas under normalization are the same after a task. -/
theorem inProgress_iff (ha : a.WellFormed P) (hb : b.WellFormed P) (hab : Advances a b)
    {id : SchemaId} :
    b.progress.get? id = some .inProgress ↔ a.progress.get? id = some .inProgress := by
  rw [ha.pending, hb.pending, hab.pending]

theorem Moves.trans {r : α} (hb : b.WellFormed P) (ha : a.WellFormed P) (hab : Advances a b)
    (hAB : A.Within B) (h : Moves ν A ℓ ℓ' a b cx) (hr : Settles cx r)
    (h' : Moves ν B ℓ' ℓ'' b c fun n => cf n r) :
    Moves ν B ℓ ℓ'' a c fun n => cx n >>= cf n where
  toCarries := h.toCarries.trans hab.next h'.toCarries
  own i m part k s hle hlt hs := by
    rcases Nat.lt_or_ge i b.next with hib | hib
    · rw [h'.ext i hib] at hs
      exact (h.own i m part k s hle hib hs).imp_left (hAB.own m part)
    · refine (h'.own i m part k s hib hlt hs).imp_right fun hnone j hj hm => ?_
      refine progress_eq_none ha hb hab (hnone j (Nat.lt_of_lt_of_le hj hab.next) ?_)
      rw [h.ext j hj, hm]
  key x y p hnone hsome := by
    by_cases hxy : b.conjunctions.get? (x, y, p) = none
    · exact (h'.key x y p hxy hsome).imp_right (.after hr)
    · obtain ⟨q, hq⟩ := Option.ne_none_iff_exists'.1 hxy
      obtain ⟨hx, hy, -⟩ := hb.memo x y p q hq
      rw [h'.ext x (hb.isForm_lt hx), h'.ext y (hb.isForm_lt hy)]
      exact (h.key x y p hnone hxy).imp (hAB.key _ _ p) .bind

/-! ## Following a value -/

/-- There is no value: either none at all, or it would take that of a schema under normalization. -/
def Blocked (O : Set SchemaId) (ν : Nomenclature) (ℓ : Labels) (a : Arena)
    (cx : Nat → Option α) : Prop :=
  (∀ n, cx n = none) ∨ ∃ z, Inner O a z ∧ a.progress.get? z = some .inProgress ∧
    Needs cx fun n => ν.normalForm (ν.eval n) (ℓ z)

theorem Blocked.bind (h : Blocked O ν ℓ a cx) : Blocked O ν ℓ a fun n => cx n >>= cf n := by
  rcases h with hnever | ⟨z, hinner, hz, hneeds⟩
  · refine .inl fun n => ?_
    dsimp only
    rw [hnever n]
    rfl
  · exact .inr ⟨z, hinner, hz, hneeds.bind⟩

/-- What is blocked after a computation was blocked before it. -/
theorem Blocked.before (ha : a.WellFormed P) (hb : b.WellFormed P) (hab : Advances a b)
    (hext : Extends a ℓ ℓ') (h : Blocked O ν ℓ' b cx) : Blocked O ν ℓ a cx := by
  refine h.imp_right fun ⟨z, hinner, hz, hneeds⟩ => ?_
  rw [inProgress_iff ha hb hab] at hz
  have hlt := ha.known z _ hz
  exact ⟨z, (inner_iff ha hab.next hab.schema hlt).1 hinner, hz, hext z hlt ▸ hneeds⟩

theorem Blocked.after {r : α} (hr : Settles cx r) (h : Blocked O ν ℓ a fun n => cf n r) :
    Blocked O ν ℓ a fun n => cx n >>= cf n := by
  rcases h with hnever | ⟨z, hinner, hz, hneeds⟩
  · refine .inl fun n => Option.bind_eq_none_iff.2 fun r' hr' => ?_
    exact hr.2 n r' hr' ▸ hnever n
  · exact .inr ⟨z, hinner, hz, hneeds.after hr⟩

/-- What a computation leaves when it fails. The labels `ℓ'` are right for it, but normalizations
    that have been started may have been given up, as they have no value. -/
structure Wreck (O : Set SchemaId) (ν : Nomenclature) (ℓ ℓ' : Labels) (a b : Arena) : Prop extends
    Carries ν ℓ ℓ' a b where
  tracks : TracksBut O ν (fun _ _ _ => False)
    (fun m => Blocked O ν ℓ a fun n => ν.normalForm (ν.eval n) m) ℓ' b

theorem Wreck.refl (h : Tracks O ν ℓ a) : Wreck O ν ℓ ℓ a a where
  toCarries := .refl a ℓ
  tracks := h.mono (fun _ _ _ => id) fun _ => False.elim

/-- A failure after a computation that succeeded. -/
theorem Wreck.after (ha : a.WellFormed P) (hb : b.WellFormed P) (hab : Advances a b)
    (h : Carries ν ℓ ℓ' a b) (hw : Wreck O ν ℓ' ℓ'' b c) : Wreck O ν ℓ ℓ'' a c where
  toCarries := h.trans hab.next hw.toCarries
  tracks := hw.tracks.mono (fun _ _ _ => id) fun _ hm => hm.before ha hb hab h.ext

variable [Mentions α] [Mentions β]

/-- A result `r` in the arena `b`, with right labels under which it is the value `r'` of `cx`. -/
structure Reached (O : Set SchemaId) (ν : Nomenclature) (A : Allowance) (ℓ : Labels) (a : Arena)
    (cx : Nat → Option α) (r : α) (b : Arena) (ℓ' : Labels) (r' : α) : Prop where
  moves : Moves ν A ℓ ℓ' a b cx
  inner : ∀ i, Inner O a i → Inner O b i
  tracks : Tracks O ν ℓ' b
  named : Held O ℓ' b r r'
  settles : Settles cx r'

/-- What had a name before has it still. -/
theorem Reached.carry {γ : Type} [Mentions γ] {r r' : α} {w w' : γ}
    (h : Reached O ν A ℓ a cx r b ℓ' r') (hw : Held O ℓ a w w') : Held O ℓ' b w w' :=
  NamedBy.mono hw h.inner fun i hi => h.moves.ext i hi.lt

/-- From the arena `a` with the labels `ℓ`, the computation `x` comes to the value `cx`, unless it
    puts off a conjunction or runs out of calls; where it fails, there is no value. -/
def Follows (O : Set SchemaId) (ν : Nomenclature) (A : Allowance) (ℓ : Labels) (a : Arena)
    (x : ArenaWork α) (cx : Nat → Option α) : Prop :=
  x.Ends a (fun r b => b.PromptBut O → ∃ ℓ' r', Reached O ν A ℓ a cx r b ℓ' r')
    fun e b => b.PromptBut O → e = .exhausted ∨ Blocked O ν ℓ a cx ∧ ∃ ℓ', Wreck O ν ℓ ℓ' a b

/-- Answers are held to come from what they answer, and to nothing else. -/
abbrev Law.traced : Law fun _ : Json => True := provenance

/-- A lawful arena with right labels, and what is left out of account there. -/
structure Labelled (O : Set SchemaId) (ν : Nomenclature) (ℓ : Labels) (a : Arena) : Prop extends
    a.Lawful Law.traced where
  tracks : Tracks O ν ℓ a
  outer : ∀ z ∈ O, z < a.next ∧ a.Raw z

/-- The arena `b`, with right labels, after a task of `a`. -/
theorem Labelled.after (ha : Labelled O ν ℓ a) (hb : b.Lawful Law.traced)
    (hab : a.Grows b) (htracks : Tracks O ν ℓ' b) : Labelled O ν ℓ' b where
  toLawful := hb
  tracks := htracks
  outer z hz := by
    obtain ⟨hlt, hraw⟩ := ha.outer z hz
    exact ⟨Nat.lt_of_lt_of_le hlt hab.next, (hab.raw_iff hlt).2 hraw⟩

/-- What leads to nothing else than followed schemas do is followed. -/
theorem Labelled.inner_of_leads (ha : Labelled O ν ℓ a) {n x y : SchemaId} (hn : n < a.next)
    (hx : Inner O a x) (hy : Inner O a y)
    (h : ∀ z, a.Leads n z → a.Leads x z ∨ a.Leads y z) : Inner O a n := by
  refine ⟨hn, fun z hz hnz => ?_⟩
  rcases h z ⟨hnz, (ha.outer z hz).2⟩ with hxz | hyz
  · exact hx.apart z hz hxz.1
  · exact hy.apart z hz hyz.1

/-- What is known anyway of a computation and where it leads. -/
abbrev Steps (x : ArenaWork α) (a : Arena) (post : α → Arena → Prop) : Prop :=
  Runs Law.traced (fun _ => True) x a post

namespace Follows

variable {x : ArenaWork α} {f : α → ArenaWork β} {post : α → Arena → Prop}

theorem pure {r r' : α} (h : Tracks O ν ℓ a) (hr : Held O ℓ a r r') :
    Follows O ν A ℓ a (Pure.pure r) fun _ => some r' :=
  fun _ => ⟨ℓ, r', .refl a ℓ _, fun _ hi => hi, h, hr, settles_pure r'⟩

/-- An answer that is known already. -/
theorem known {r r' : α} (h : Tracks O ν ℓ a) (hr : Held O ℓ a r r') (hval : Settles cx r') :
    Follows O ν A ℓ a (Pure.pure r) cx :=
  fun _ => ⟨ℓ, r', .refl a ℓ _, fun _ hi => hi, h, hr, hval⟩

theorem fault {e : Fault} (h : Tracks O ν ℓ a) (hcx : Blocked O ν ℓ a cx) :
    Follows O ν A ℓ a (Work.fault e : ArenaWork α) cx := fun _ => .inr ⟨hcx, ℓ, .refl h⟩

theorem view_bind {γ : Type} {g : Arena → γ} {f : γ → ArenaWork β} {cy : Nat → Option β}
    (h : Follows O ν A ℓ a (f (g a)) cy) : Follows O ν A ℓ a (Work.view g >>= f) cy := h

/-- One computation after another. -/
theorem bind (ha : Labelled O ν ℓ a) (hAB : A.Within B) (hx : Follows O ν A ℓ a x cx)
    (hruns : Steps x a post) (hkeeps : ∀ r, Keeps (f r))
    (hf : ∀ r b ℓ' r', Labelled O ν ℓ' b → Advances a b → post r b →
      Reached O ν A ℓ a cx r b ℓ' r' → Follows O ν B ℓ' b (f r) fun n => cf n r') :
    Follows O ν B ℓ a (x >>= f) fun n => cx n >>= cf n := by
  refine Work.ends_bind.2 ?_
  unfold Follows Steps Runs Work.Yields Work.Ends at *
  rcases hrun : x.run a with ⟨e | r, b⟩ <;> rw [hrun] at hx hruns
  · exact fun hp => (hx hp).imp_right (.imp_left .bind)
  obtain ⟨⟨hb, hab⟩, hpost⟩ := hruns
  have hkeep := hkeeps r b
  dsimp only at hx hkeep ⊢
  -- what the second computation leaves tells whether the first one put anything off
  rcases hrunf : (f r).run b with ⟨e | q, c⟩ <;> rw [hrunf] at hkeep
  · intro hp
    obtain ⟨ℓ', r', hreached⟩ := hx (promptBut_of_retains hb.toWellFormed hkeep hp)
    have hfollows := hf r b ℓ' r' (ha.after hb hab.toGrows hreached.tracks) hab.toAdvances hpost
      hreached
    rw [hrunf] at hfollows
    refine (hfollows hp).imp_right fun ⟨hblocked, ℓ'', hwreck⟩ =>
      ⟨.after hreached.settles ?_, ℓ'', ?_⟩
    · exact hblocked.before ha.toWellFormed hb.toWellFormed hab.toAdvances hreached.moves.ext
    · exact hwreck.after ha.toWellFormed hb.toWellFormed hab.toAdvances hreached.moves.toCarries
  · intro hp
    obtain ⟨ℓ', r', hreached⟩ := hx (promptBut_of_retains hb.toWellFormed hkeep hp)
    have hfollows := hf r b ℓ' r' (ha.after hb hab.toGrows hreached.tracks) hab.toAdvances hpost
      hreached
    rw [hrunf] at hfollows
    obtain ⟨ℓ'', q', hreached'⟩ := hfollows hp
    refine ⟨ℓ'', q', ?_, fun i hi => hreached'.inner i (hreached.inner i hi), hreached'.tracks,
      hreached'.named, hreached.settles.bind hreached'.settles⟩
    exact .trans hb.toWellFormed ha.toWellFormed hab.toAdvances hAB hreached.moves
      hreached.settles hreached'.moves

/-- A computation first that leaves the arena alone and gives the value itself. -/
theorem after_value {γ : Type} {w : ArenaWork γ} {cw : Option γ} {f : γ → ArenaWork β}
    {cf : Nat → γ → Option β} (h : Tracks O ν ℓ a)
    (hw : w.Ends a (fun r b => b = a ∧ cw = some r) fun _ b => b = a ∧ cw = none)
    (hf : ∀ r, cw = some r → Follows O ν A ℓ a (f r) fun n => cf n r) :
    Follows O ν A ℓ a (w >>= f) fun n => cw >>= cf n := by
  refine Work.ends_bind.2 (Work.Ends.mono hw ?_ ?_)
  · rintro r b ⟨rfl, rfl⟩
    exact hf r rfl
  · rintro e b ⟨rfl, rfl⟩ _
    exact .inr ⟨.inl fun _ => rfl, ℓ, .refl h⟩

theorem widen (h : Follows O ν A ℓ a x cx) (hAB : A.Within B) : Follows O ν B ℓ a x cx :=
  Work.Ends.mono h
    (fun _ _ hok hp => (hok hp).imp fun _ => .imp fun _ h =>
      { h with moves := h.moves.widen hAB })
    fun _ _ hbad => hbad

/-- What a task asks for takes one call less than the task. -/
theorem task {cz : Nat → Option α} (hsucc : ∀ n, cz (n + 1) = cx n) (hzero : cz 0 = none)
    (hown : ∀ m part, ¬A.own m part)
    (hkey : ∀ x y p, A.key x y p → Needs cz fun n => ν.plan (ν.eval n) x y p)
    (h : Follows O ν A ℓ a x cx) : Follows O ν .none ℓ a x cz := by
  refine Work.Ends.mono h ?_ ?_
  · intro r b hok hp
    obtain ⟨ℓ', r', hmoves, hinner, htracks, hnamed, hsettles⟩ := hok hp
    refine ⟨ℓ', r', ⟨hmoves.toCarries, ?_, ?_⟩, hinner, htracks, hnamed,
      settles_succ hsucc hzero hsettles⟩
    · intro i m part k s hle hlt hs
      exact .inr ((hmoves.own i m part k s hle hlt hs).resolve_left (hown m part))
    · intro x y p hnone hsome
      rcases hmoves.key x y p hnone hsome with hA | hneeds
      · exact .inr (hkey _ _ p hA)
      · exact .inr (needs_succ hsucc hzero hneeds)
  · intro e b hbad hp
    refine (hbad hp).imp_right (.imp_left fun hblocked => ?_)
    rcases hblocked with hnever | ⟨z, hinner, hz, hneeds⟩
    · refine .inl fun n => ?_
      cases n with
      | zero => exact hzero
      | succ n => exact (hsucc n).trans (hnever n)
    · exact .inr ⟨z, hinner, hz, needs_succ hsucc hzero hneeds⟩

end Follows

end ApiModel.Arena
