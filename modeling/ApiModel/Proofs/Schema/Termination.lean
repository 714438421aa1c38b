/-
  ApiModel.Proofs.Schema.Termination

  Work on schemas ends. The measure is the depth first: the parts of a schema are less deep, and so
  are their normal forms and conjunctions, however many new schemas these take. On one depth the
  conjunction of two normal forms comes back to pairs of alternatives, of which one at least is a
  member of an operand; and a normalization comes back to members of the schema.
-/
import ApiModel.Proofs.Halting
import ApiModel.Proofs.Schema.Depth

namespace ApiModel.Arena

open Work (Halts)
open Filter (atTop)

variable {P : Json → Prop} {a b : Arena} {c l m n r x y own : SchemaId} {d : Nat}

/-! ## Tasks that are worked out -/

/-- With enough nested calls work on the task ends. -/
def Finishes (a : Arena) (task : Task) : Prop := Halts atTop (fun calls => solve calls task) a

/-- Work on the task ends now and in every later arena. -/
structure Resolves (P : Json → Prop) (a : Arena) (task : Task) : Prop where
  valid : a.Valid task
  finishes : ∀ {b : Arena}, b.Lawful (depth (P := P)) → Grows a b → b.Finishes task

theorem Valid.mono {task : Task} (h : a.Valid task) (hab : Grows a b) : b.Valid task := by
  cases task with
  | normalize x => exact Nat.lt_of_lt_of_le h hab.next
  | conjoin x y _ =>
      exact ⟨Nat.lt_of_lt_of_le h.1 hab.next, Nat.lt_of_lt_of_le h.2 hab.next⟩

theorem Resolves.mono {task : Task} (h : Resolves P a task) (hab : Grows a b) :
    Resolves P b task :=
  ⟨h.valid.mono hab, fun hc hbc => h.finishes hc (hab.trans hbc)⟩

section Bind

variable {β : Type} {f : Nat → Option SchemaId → ArenaWork β}

theorem Resolves.normalize_bind (h : Resolves P a (.normalize x))
    (ha : a.Lawful (depth (P := P)))
    (hf : ∀ o b, b.Lawful (depth (P := P)) → Grows a b →
      b.progress.get? x = some (.done o) → Halts atTop (fun calls => f calls o) b) :
    Halts atTop (fun calls => solve calls (.normalize x) >>= f calls) a := by
  refine .bind (h.finishes ha (.refl a)) (fun calls => (sound_solve upheld_depth calls).normalize
    (Q := fun _ => True) ha h.valid fun _ _ => trivial) fun o b hb hab ho => ?_
  exact hf o b hb hab.toGrows ho

theorem Resolves.conjoin_bind {place : Pointer} (h : Resolves P a (.conjoin x y place))
    (ha : a.Lawful (depth (P := P)))
    (hf : ∀ o b, b.Lawful (depth (P := P)) → Grows a b →
      Joined (depth (P := P)) b x y o → Halts atTop (fun calls => f calls o) b) :
    Halts atTop (fun calls => solve calls (.conjoin x y place) >>= f calls) a := by
  refine .bind (h.finishes ha (.refl a)) (fun calls => (sound_solve upheld_depth calls).conjoin
    (Q := fun _ => True) ha h.valid.1 h.valid.2 fun _ _ => trivial) fun o b hb hab ho => ?_
  exact hf o b hb hab.toGrows ho

end Bind

/-- A schema whose progress is known is looked up, or closes a cycle. -/
theorem finishes_of_known {p : Progress} (h : a.progress.get? x = some p) :
    a.Finishes (.normalize x) := by
  apply Halts.of_step
  show Halts atTop (fun calls => normalize (solve calls) x) a
  unfold normalize
  apply Halts.view_bind
  rw [h]
  cases p with
  | inProgress => exact .view_bind .fault
  | done o => exact .pure

/-! ## Child schemas -/

/-- All work on schemas of a depth ends. -/
structure Solved (P : Json → Prop) (d : Nat) : Prop where
  normalize : ∀ {a : Arena} {x : SchemaId}, a.Lawful (depth (P := P)) → a.Shallow d x →
    a.Finishes (.normalize x)
  conjoin : ∀ {a : Arena} {x y : SchemaId} (place : Pointer), a.Lawful (depth (P := P)) →
    a.Shallow d x → a.Shallow d y → a.Finishes (.conjoin x y place)

namespace Solved

theorem resolves_normalize (h : Solved P d) (hx : a.Shallow d x) : Resolves P a (.normalize x) :=
  ⟨hx.lt, fun hb hab => h.normalize hb (hx.grows hab)⟩

theorem resolves_conjoin (h : Solved P d) (place : Pointer) (hx : a.Shallow d x)
    (hy : a.Shallow d y) : Resolves P a (.conjoin x y place) :=
  ⟨⟨hx.lt, hy.lt⟩, fun hb hab => h.conjoin place hb (hx.grows hab) (hy.grows hab)⟩

end Solved

theorem halts_conjoinChildren (h : Solved P d) (ha : a.Lawful (depth (P := P)))
    (hx : a.Shallow d x) (hy : a.Shallow d y) (place : Pointer) :
    Halts atTop (fun calls => conjoinChildren (solve calls) x y place) a := by
  unfold conjoinChildren
  refine .ite (fun _ => .pure) fun _ => .view_bind (.ite (fun _ => ?_) fun _ => ?_)
  · exact .of_fails (.bind_any (fails_putOff place _) fun _ _ => .pure)
  refine (h.resolves_normalize hx).normalize_bind ha fun fx b hb hab hfx => ?_
  have hxb := hx.grows hab
  have hyb := hy.grows hab
  refine (h.resolves_normalize hyb).normalize_bind hb fun fy t ht hbt hfy => ?_
  cases fx with
  | none => exact .pure
  | some nx =>
  cases fy with
  | none => exact .pure
  | some ny =>
  -- the normal forms are no deeper than the children
  have hnx : t.Shallow d nx := .of_done ht (hbt.done x _ hfx) (hxb.grows hbt)
  have hny : t.Shallow d ny := .of_done ht hfy (hyb.grows hbt)
  refine (h.resolves_conjoin place hnx hny).conjoin_bind ht fun o _ _ _ _ => ?_
  cases o with
  | none => exact .pure
  | some o => exact .pure

/-- A schema whose parts are of a depth. -/
structure PartsWithin (P : Json → Prop) (d : Nat) (a : Arena) (s : Schema) : Prop where
  proper : s.Proper P a.next
  parts : ∀ c ∈ s.parts, a.Shallow d c

theorem PartsWithin.mono {s : Schema} (h : PartsWithin P d a s) (hab : Grows a b) : PartsWithin P d b s :=
  ⟨h.proper.mono hab.next, fun c hc => (h.parts c hc).grows hab⟩

section Parts

variable {s₁ s₂ : Schema}

theorem halts_conjoinItems (h : Solved P d) (ha : a.Lawful (depth (P := P)))
    (h₁ : PartsWithin P d a s₁) (h₂ : PartsWithin P d a s₂) (place : Pointer) :
    Halts atTop (fun calls => conjoinItems (solve calls) s₁ s₂ place) a := by
  unfold conjoinItems
  cases hx : s₁.items with
  | none => exact .pure
  | some x =>
  cases hy : s₂.items with
  | none => exact .pure
  | some y =>
  have hchild := halts_conjoinChildren h ha (h₁.parts x (Schema.mem_parts_of_items hx))
    (h₂.parts y (Schema.mem_parts_of_items hy)) (place.push "items")
  refine hchild.bind_any fun o _ => ?_
  cases o with
  | none => exact .pure
  | some z => exact .pure

theorem halts_conjoinExtras (h : Solved P d) (ha : a.Lawful (depth (P := P)))
    (h₁ : PartsWithin P d a s₁) (h₂ : PartsWithin P d a s₂) (place : Pointer) :
    Halts atTop (fun calls => conjoinExtras (solve calls) s₁ s₂ place) a := by
  unfold conjoinExtras
  rcases hx : s₁.extras with _ | (_ | _) | x <;> rcases hy : s₂.extras with _ | (_ | _) | y
  case some.matching.some.matching =>
    have hchild := halts_conjoinChildren h ha (h₁.parts x (Schema.mem_parts_of_extras hx))
      (h₂.parts y (Schema.mem_parts_of_extras hy)) (place.push "additionalProperties")
    refine hchild.bind_any fun o _ => ?_
    cases o with
    | none => exact .pure
    | some z => exact .pure
  all_goals exact .pure

theorem halts_conjoinProperty (h : Solved P d) (ha : a.Lawful (depth (P := P)))
    (h₁ : PartsWithin P d a s₁) (h₂ : PartsWithin P d a s₂) (key : String) (place : Pointer) :
    Halts atTop (fun calls => conjoinProperty (solve calls) s₁ s₂ key place) a := by
  have hextra : ∀ {s : Schema} {e}, extraSchema? s = some e → e ∈ s.parts := fun he =>
    Schema.mem_parts_of_extras (extraSchema?_eq_some.1 he)
  unfold conjoinProperty
  cases hx : s₁.properties.get? key with
  | none =>
      cases hy : s₂.properties.get? key with
      | none => exact .pure
      | some y =>
          dsimp only
          cases he : extraSchema? s₁ with
          | none => exact .pure
          | some e =>
              exact halts_conjoinChildren h ha (h₁.parts e (hextra he))
                (h₂.parts y (Schema.mem_parts_of_property hy)) place
  | some x =>
      have hxs := h₁.parts x (Schema.mem_parts_of_property hx)
      cases hy : s₂.properties.get? key with
      | none =>
          dsimp only
          cases he : extraSchema? s₂ with
          | none => exact .pure
          | some e => exact halts_conjoinChildren h ha hxs (h₂.parts e (hextra he)) place
      | some y =>
          exact halts_conjoinChildren h ha hxs (h₂.parts y (Schema.mem_parts_of_property hy)) place

theorem halts_conjoinProperties (h : Solved P d) (ha : a.Lawful (depth (P := P)))
    (h₁ : PartsWithin P d a s₁) (h₂ : PartsWithin P d a s₂) {keys : List String}
    (hkeys : ∀ k ∈ keys, k ∈ mergedKeys s₁ s₂) (merged : Dict String SchemaId) (base : Pointer) :
    Halts atTop (fun calls => conjoinProperties (solve calls) s₁ s₂ base keys merged) a := by
  induction keys generalizing merged a with
  | nil => exact .pure
  | cons key keys ih =>
      unfold conjoinProperties
      have hscope : Scoped a s₁ s₂ base fun _ => True := fun _ _ _ _ _ _ => trivial
      refine .bind (halts_conjoinProperty h ha h₁ h₂ key _) (fun calls => runs_conjoinProperty
        (sound_solve upheld_depth calls) ha h₁.proper h₂.proper hscope (hkeys key (by simp))
        fun _ hq => ⟨key, hq⟩) fun child b hb hab _ => ?_
      cases child with
      | none => exact .pure
      | some child =>
          exact ih hb (h₁.mono hab.toGrows) (h₂.mono hab.toGrows)
            (fun k hk => hkeys k (by simp [hk])) _

end Parts

/-! ## Alternatives -/

theorem halts_crossPairs (ha : a.Lawful (depth (P := P))) (place : Pointer)
    {pairs : List (SchemaId × SchemaId)} (found : List SchemaId)
    (hpairs : ∀ e ∈ pairs, ∀ p, Resolves P a (.conjoin e.1 e.2 p)) :
    Halts atTop (fun calls => crossPairs (solve calls) place pairs found) a := by
  induction pairs generalizing found a with
  | nil => exact .pure
  | cons e rest ih =>
      obtain ⟨l, r⟩ := e
      unfold crossPairs
      refine (hpairs (l, r) (by simp) _).conjoin_bind ha fun branch b hb hab _ => ?_
      have hrest : ∀ e ∈ rest, ∀ p, Resolves P b (.conjoin e.1 e.2 p) := fun e he p =>
        (hpairs e (by simp [he]) p).mono hab
      cases branch with
      | none => exact ih hb found hrest
      | some branch => exact ih hb _ hrest

theorem halts_cross (ha : a.Lawful (depth (P := P))) (place : Pointer)
    {left right : List SchemaId}
    (h : ∀ l ∈ left, ∀ r ∈ right, ∀ p, Resolves P a (.conjoin l r p)) :
    Halts atTop (fun calls => cross (solve calls) left right place) a := by
  refine halts_crossPairs ha place [] fun e he p => ?_
  simp only [List.mem_flatMap, List.mem_map] at he
  obtain ⟨l, hl, r, hr, rfl⟩ := he
  exact h l hl r hr p

theorem halts_survivors (ha : a.Lawful (depth (P := P))) (group : Pointer) (i : Nat)
    {ms : List SchemaId} (hms : ∀ m ∈ ms, ∀ p, Resolves P a (.conjoin m own p)) :
    Halts atTop (fun calls => survivors (solve calls) own group i ms) a := by
  induction ms generalizing i a with
  | nil => exact .pure
  | cons m ms ih =>
      unfold survivors
      refine (hms m (by simp) _).conjoin_bind ha fun branch b hb hab _ => ?_
      have hmsb : ∀ m ∈ ms, ∀ p, Resolves P b (.conjoin m own p) := fun m hm p =>
        (hms m (by simp [hm]) p).mono hab
      exact (ih hb (i + 1) hmsb).bind_any fun _ _ => .pure

/-! ## Conjunctions -/

/-- A conjunction ends when that of the normal forms does. -/
theorem finishes_conjoin {place : Pointer} (ha : a.Lawful (depth (P := P)))
    (hx : Resolves P a (.normalize x)) (hy : Resolves P a (.normalize y))
    (hforms : ∀ {b : Arena} {nx ny}, b.Lawful (depth (P := P)) → Grows a b →
      b.progress.get? x = some (.done (some nx)) → b.progress.get? y = some (.done (some ny)) →
      Halts atTop (fun calls => conjoinForms (solve calls) nx ny place) b) :
    a.Finishes (.conjoin x y place) := by
  apply Halts.of_step
  show Halts atTop (fun calls => conjoin (solve calls) x y place) a
  unfold conjoin
  refine hx.normalize_bind ha fun fx b hb hab hfx => ?_
  cases fx with
  | none => exact .pure
  | some nx =>
  refine (hy.mono hab).normalize_bind hb fun fy t ht hbt hfy => ?_
  cases fy with
  | none => exact .pure
  | some ny =>
  refine .ite (fun _ => .pure) fun _ => .view_bind ?_
  cases t.conjunctions.get? (nx, ny, place) with
  | some known => exact .pure
  | none =>
      have hforms' := hforms ht (hab.trans hbt) (hbt.done x _ hfx) hfy
      exact hforms'.bind_any fun _ _ => .modify_bind .pure

theorem resolves_form (ha : a.WellFormed P) (hx : a.IsForm x) : Resolves P a (.normalize x) :=
  ⟨ha.isForm_lt hx, fun _ hab => finishes_of_known (hab.form hx)⟩

/-- The last part of a conjunction comes back to pairs of alternatives. -/
theorem halts_conjoinSides (ha : a.Lawful (depth (P := P))) {s₁ s₂ out : Schema}
    (h₁ : a.schema x = s₁) (h₂ : a.schema y = s₂) (place : Pointer)
    (hpairs : s₁.anyOf ≠ [] ∨ s₂.anyOf ≠ [] →
      ∀ l ∈ a.sides x, ∀ r ∈ a.sides y, ∀ p, Resolves P a (.conjoin l r p)) :
    Halts atTop (fun calls => if s₁.anyOf.isEmpty && s₂.anyOf.isEmpty
      then reuseOrStore x y s₁ s₂ out
      else do
        match ← cross (solve calls) (if s₁.anyOf.isEmpty then [x] else s₁.anyOf)
          (if s₂.anyOf.isEmpty then [y] else s₂.anyOf) place with
        | [] => return none
        | [only] => return some only
        | branches => reuseOrStore x y s₁ s₂ { out with anyOf := branches }) a := by
  refine .ite (fun _ => .of_fails (fails_reuseOrStore _ _ _ _)) fun hany => ?_
  rw [Bool.and_eq_true, List.isEmpty_iff, List.isEmpty_iff, not_and_or] at hany
  have hlr := hpairs hany
  unfold sides at hlr
  rw [h₁, h₂] at hlr
  refine (halts_cross ha place hlr).bind_any fun bs _ => ?_
  rcases bs with _ | ⟨only, _ | ⟨_, _⟩⟩
  · exact .pure
  · exact .pure
  · exact .of_fails (fails_reuseOrStore _ _ _ _)

/-- The conjunction of two normal forms comes back to their parts, which are less deep, and to pairs
    of alternatives. -/
theorem halts_conjoinForms (h : Solved P d) (ha : a.Lawful (depth (P := P))) (hx : a.IsForm x)
    (hy : a.IsForm y) (hsx : a.Shallow (d + 1) x) (hsy : a.Shallow (d + 1) y) (place : Pointer)
    (hpairs : (a.schema x).anyOf ≠ [] ∨ (a.schema y).anyOf ≠ [] →
      ∀ l ∈ a.sides x, ∀ r ∈ a.sides y, ∀ p, Resolves P a (.conjoin l r p)) :
    Halts atTop (fun calls => conjoinForms (solve calls) x y place) a := by
  have h₁ : PartsWithin P d a (a.schema x) := ⟨ha.proper x, fun c hc => hsx.part hc⟩
  have h₂ : PartsWithin P d a (a.schema y) := ⟨ha.proper y, fun c hc => hsy.part hc⟩
  have hscope : ∀ {t : Arena},
      Scoped t (a.schema x) (a.schema y) place fun _ => True := fun _ _ _ _ _ _ => trivial
  have hsound := sound_solve (upheld_depth (P := P))
  unfold conjoinForms
  refine .view_bind (.view_bind (.ite (fun _ => .pure) fun _ => .ite (fun _ => .pure) fun _ => ?_))
  -- part after part, in the arena that the last one left
  refine .bind (.of_fails (fails_combineKeywords (fun _ _ he => by cases he) _ _ place))
    (fun _ => runs_combineKeywords (Q := fun _ => True) ha _ _ place) fun k b hb hab _ => ?_
  have h₁ := h₁.mono hab.toGrows
  have h₂ := h₂.mono hab.toGrows
  refine .bind (halts_conjoinItems h hb h₁ h₂ place) (fun calls =>
    runs_conjoinItems (hsound calls) hb h₁.proper h₂.proper hscope) fun i t ht hbt _ => ?_
  cases i with
  | none => exact .pure
  | some i =>
  have h₁ := h₁.mono hbt.toGrows
  have h₂ := h₂.mono hbt.toGrows
  refine .bind (halts_conjoinExtras h ht h₁ h₂ place) (fun calls =>
    runs_conjoinExtras (hsound calls) ht h₁.proper h₂.proper hscope) fun e u hu htu _ => ?_
  have h₁ := h₁.mono htu.toGrows
  have h₂ := h₂.mono htu.toGrows
  refine .bind (halts_conjoinProperties h hu h₁ h₂ (fun _ hk => hk) .empty _) (fun calls =>
    runs_conjoinProperties (hsound calls) hu h₁.proper h₂.proper hscope (fun _ hk => hk) .empty
      fun q hq => ⟨_, hq⟩) fun ps v hv huv _ => ?_
  cases ps with
  | none => exact .pure
  | some ps =>
  have hav : Grows a v := ((hab.toGrows.trans hbt.toGrows).trans htu.toGrows).trans huv.toGrows
  have hsx' := hav.schema x (ha.isForm_lt hx)
  have hsy' := hav.schema y (ha.isForm_lt hy)
  refine halts_conjoinSides hv hsx' hsy' _ fun hany l hl r hr p => ?_
  unfold sides at hl hr
  rw [hsx'] at hl
  rw [hsy'] at hr
  exact (hpairs hany l hl r hr p).mono hav

/-- Conjoining normal forms of a depth ends. -/
def Joins (P : Json → Prop) (d : Nat) : Prop :=
  ∀ {a : Arena} {x y : SchemaId} (place : Pointer), a.Lawful (depth (P := P)) → a.IsForm x →
    a.IsForm y → a.Shallow d x → a.Shallow d y →
    Halts atTop (fun calls => conjoinForms (solve calls) x y place) a

/-- An alternative that a normal form counts as its own is the form itself or a member of it. -/
theorem eq_or_member_of_mem_sides (hc : c ∈ a.sides x) :
    (c = x ∧ (a.schema x).anyOf = []) ∨ a.Member x c := by
  unfold sides at hc
  split at hc
  · next hempty => exact .inl ⟨List.mem_singleton.1 hc, List.isEmpty_iff.1 hempty⟩
  · exact .inr (by simp [Member, Schema.members, hc])

/-- A pair of alternatives has a member of one operand at least, so the members of both come to an
    end. -/
theorem joins_succ (h : Solved P d) : Joins P (d + 1) := by
  intro a x y place ha hx hy hsx hsy
  -- lexicographic: the second operand may be any when the first one is replaced by a member
  suffices hall : ∀ y, a.Shallow (d + 1) y → ∀ b, b.Lawful (depth (P := P)) → Grows a b →
      b.IsForm x → b.IsForm y → ∀ place,
      Halts atTop (fun calls => conjoinForms (solve calls) x y place) b from
    hall y hsy a ha (.refl a) hx hy place
  refine hsx.induction (C := fun x => ∀ y, a.Shallow (d + 1) y → ∀ b,
    b.Lawful (depth (P := P)) → Grows a b → b.IsForm x → b.IsForm y → ∀ place,
    Halts atTop (fun calls => conjoinForms (solve calls) x y place) b) ?_
  intro x hsx ihx y hsy
  refine hsy.induction (C := fun y => ∀ b, b.Lawful (depth (P := P)) → Grows a b →
    b.IsForm x → b.IsForm y → ∀ place,
    Halts atTop (fun calls => conjoinForms (solve calls) x y place) b) ?_
  intro y hsy ihy b hb hab hx hy place
  have hschemax := hab.schema x hsx.lt
  have hschemay := hab.schema y hsy.lt
  refine halts_conjoinForms h hb hx hy (hsx.grows hab) (hsy.grows hab) place ?_
  intro hany l hl r hr p
  have hforml := isForm_of_mem_sides hb.toWellFormed hx l hl
  have hformr := isForm_of_mem_sides hb.toWellFormed hy r hr
  have hresl := resolves_form hb.toWellFormed hforml
  have hresr := resolves_form hb.toWellFormed hformr
  refine ⟨⟨hresl.valid, hresr.valid⟩, fun {t} ht hbt => ?_⟩
  refine finishes_conjoin ht (hresl.mono hbt) (hresr.mono hbt) fun {u nx ny} hu htu hnx hny => ?_
  -- the alternatives are their own normal forms
  have hbu := hbt.trans htu
  obtain rfl : l = nx := by simpa [hbu.done l _ hforml] using hnx
  obtain rfl : r = ny := by simpa [hbu.done r _ hformr] using hny
  have hau := hab.trans hbu
  have hmemberl := eq_or_member_of_mem_sides hl
  have hmemberr := eq_or_member_of_mem_sides hr
  rw [Member, hschemax] at hmemberl
  rw [Member, hschemay] at hmemberr
  have hsr : a.Shallow (d + 1) r := by
    rcases hmemberr with ⟨rfl, -⟩ | hr
    · exact hsy
    · exact hsy.member hr
  rcases hmemberl with ⟨rfl, hnone⟩ | hl
  · rcases hmemberr with ⟨rfl, hnone'⟩ | hr
    · rw [hschemax, hschemay, hnone, hnone'] at hany
      simp at hany
    · exact ihy r hr u hu hau (hbu.form hx) (hbu.form hformr) p
  · exact ihx l hl r hsr u hu hau (hbu.form hforml) (hbu.form hformr) p

/-! ## Normal forms -/

/-- A schema of a depth whose normal form is worked out. -/
structure Tractable (P : Json → Prop) (d : Nat) (a : Arena) (x : SchemaId) : Prop where
  shallow : a.Shallow d x
  normal : Resolves P a (.normalize x)

theorem Tractable.mono (h : Tractable P d a x) (hab : Grows a b) : Tractable P d b x :=
  ⟨h.shallow.grows hab, h.normal.mono hab⟩

theorem tractable_form (ha : a.WellFormed P) (hx : a.IsForm x) (hs : a.Shallow d x) :
    Tractable P d a x :=
  ⟨hs, resolves_form ha hx⟩

/-- What can be normalized can be conjoined. -/
theorem Joins.resolves (h : Joins P d) (hx : Tractable P d a x) (hy : Tractable P d a y)
    (place : Pointer) : Resolves P a (.conjoin x y place) := by
  refine ⟨⟨hx.normal.valid, hy.normal.valid⟩, fun {b} hb hab => ?_⟩
  refine finishes_conjoin hb (hx.normal.mono hab) (hy.normal.mono hab) fun ht hbt hnx hny => ?_
  have hat := hab.trans hbt
  exact h place ht (ht.form _ _ hnx) (ht.form _ _ hny) (.of_done ht hnx (hx.shallow.grows hat))
    (.of_done ht hny (hy.shallow.grows hat))

theorem halts_conjoinAll (h : Joins P d) (ha : a.Lawful (depth (P := P)))
    (hown : Tractable P d a own) (place : Pointer) {ms : List SchemaId}
    (hms : ∀ m ∈ ms, Tractable P d a m) :
    Halts atTop (fun calls => conjoinAll (solve calls) place own ms) a := by
  induction ms generalizing own a with
  | nil => exact .pure
  | cons m ms ih =>
      unfold conjoinAll
      have hm := hms m (by simp)
      refine (h.resolves hown hm place).conjoin_bind ha fun next b hb hab hnext => ?_
      cases next with
      | none => exact .pure
      | some next =>
          have hshallow : b.Shallow d next :=
            .of_joined hb hnext (hown.shallow.grows hab) (hm.shallow.grows hab)
          exact ih hb (tractable_form hb.toWellFormed hnext.isForm hshallow) fun m hm =>
            (hms m (by simp [hm])).mono hab

theorem halts_narrowed (h : Joins P (d + 1)) (ha : a.Lawful (depth (P := P))) {s : Schema}
    (hproper : s.Proper P a.next) (hc : Tractable P (d + 1) a c) :
    Halts atTop (fun calls => narrowed (solve calls) s c) a := by
  unfold narrowed
  refine hc.normal.normalize_bind ha fun fc b hb hab hfc => ?_
  cases fc with
  | none => exact .pure
  | some n =>
  dsimp only
  cases hk : s.kinds with
  | none => exact .pure
  | some ks =>
  refine .bind (.of_fails (fails_store _ _)) (fun _ => runs_store (Q := fun _ => True) hb
    (storable_kindsAlone s.pointer (hproper.kinds ks hk))) fun o t ht hbt ho => ?_
  cases o with
  | none => exact .pure
  | some m =>
  -- the kinds alone refer to nothing
  have hm : t.Shallow (d + 1) m := .of_stored ht.toWellFormed ho (by rintro c ⟨⟩) (by rintro c ⟨⟩)
  have hn : t.Shallow (d + 1) n :=
    (Shallow.of_done hb hfc (hc.shallow.grows hab)).grows hbt.toGrows
  have hformn := hbt.form (hb.form _ _ hfc)
  exact (h.resolves (tractable_form ht.toWellFormed hformn hn)
    (tractable_form ht.toWellFormed ho.isForm hm) _).finishes ht (.refl t)

theorem halts_withAlternatives (h : Joins P d) (ha : a.Lawful (depth (P := P))) {s : Schema}
    (hown : Tractable P d a own) (hms : ∀ m ∈ s.members, Tractable P d a m) :
    Halts atTop (fun calls => withAlternatives (solve calls) s own) a := by
  have hany : ∀ m ∈ s.anyOf, Tractable P d a m := fun m hm => hms m (by simp [Schema.members, hm])
  have hone : ∀ m ∈ s.oneOf, Tractable P d a m := fun m hm => hms m (by simp [Schema.members, hm])
  have hsound := sound_solve (upheld_depth (P := P))
  unfold withAlternatives
  refine .bind (halts_survivors ha _ 0 fun m hm p => h.resolves (hany m hm) hown p)
    (fun calls => runs_survivors (Q := fun _ => True) (hsound calls) ha hown.shallow.lt _ 0
      (fun m hm => (hany m hm).shallow.lt) fun _ _ => trivial) fun as b hb hab has => ?_
  refine .ite (fun _ => .pure) fun _ => ?_
  have hownb := hown.mono hab.toGrows
  have honeb : ∀ m ∈ s.oneOf, Tractable P d b m := fun m hm => (hone m hm).mono hab.toGrows
  refine .bind (halts_survivors hb _ 0 fun m hm p => h.resolves (honeb m hm) hownb p)
    (fun calls => runs_survivors (Q := fun _ => True) (hsound calls) hb hownb.shallow.lt _ 0
      (fun m hm => (honeb m hm).shallow.lt) fun _ _ => trivial) fun os t ht hbt hos => ?_
  refine .ite (fun _ => .pure) fun _ => ?_
  -- the survivors are normal forms, no deeper than the members and the schema's own demands
  have has' : ∀ m ∈ as, Tractable P d t m := by
    intro m hm
    have hs : b.Shallow d m := Shallow.of_crossed hb
      (fun l hl => (hany l hl).shallow.grows hab.toGrows)
      (fun r hr => List.mem_singleton.1 hr ▸ hownb.shallow) has m hm
    exact (tractable_form hb.toWellFormed (has.isForm m hm) hs).mono hbt.toGrows
  have hos' : ∀ m ∈ os, Tractable P d t m := by
    intro m hm
    have hs : t.Shallow d m := Shallow.of_crossed ht
      (fun l hl => (honeb l hl).shallow.grows hbt.toGrows)
      (fun r hr => List.mem_singleton.1 hr ▸ (hownb.shallow.grows hbt.toGrows)) hos m hm
    exact tractable_form ht.toWellFormed (hos.isForm m hm) hs
  dsimp only
  refine .ite (fun _ => ?_) fun _ => .ite (fun _ => ?_) fun _ => ?_
  · exact .of_fails (.bind_any .pure fun bs _ => fails_gather s own bs _)
  · exact .of_fails (.bind_any .pure fun bs _ => fails_gather s own bs _)
  · have hcross := halts_cross ht (s.pointer.push "anyOf") fun l hl r hr p =>
      h.resolves (has' l hl) (hos' r hr) p
    exact hcross.bind_any fun bs _ => .of_fails (fails_gather s own bs _)

/-- A normalization comes back to the members of the schema, and conjoins what comes of them. -/
theorem halts_normalForm (h : Joins P (d + 1)) (ha : a.Lawful (depth (P := P)))
    (hx : a.Shallow (d + 1) x) (hms : ∀ m, a.Member x m → Tractable P (d + 1) a m) :
    Halts atTop (fun calls => normalForm (solve calls) x) a := by
  have hproper := ha.proper x
  unfold normalForm
  refine .view_bind (.ite (fun _ => .pure) fun _ => ?_)
  cases hc : (a.schema x).soleChild? with
  | some c => exact halts_narrowed h ha hproper (hms c (Schema.mem_members_of_soleChild? hc))
  | none =>
  refine .bind (.of_fails (fails_store _ _)) (fun _ => runs_store (Q := fun _ => True) ha
    (storable_baseOf hproper)) fun base b hb hab hbase => ?_
  cases base with
  | none => exact .pure
  | some base =>
  have hmsb : ∀ m ∈ (a.schema x).members, Tractable P (d + 1) b m := fun m hm =>
    (hms m hm).mono hab.toGrows
  have hallOf : ∀ m ∈ (a.schema x).allOf, Tractable P (d + 1) b m := fun m hm =>
    hmsb m (by simp [Schema.members, hm])
  -- the base has the parts of the schema and no members
  have hbase' : Tractable P (d + 1) b base := by
    refine tractable_form hb.toWellFormed hbase.isForm (.of_stored hb.toWellFormed hbase ?_ ?_)
    · exact fun c hc => (hx.part hc).grows hab.toGrows
    · rintro m ⟨⟩
  refine .bind (halts_conjoinAll h hb hbase' _ hallOf) (fun calls => runs_conjoinAll
    (Q := fun _ => True) (sound_solve upheld_depth calls) hb hbase.isForm _
    (fun m hm => (hallOf m hm).shallow.lt) fun _ _ => trivial) fun own t ht hbt hown => ?_
  cases own with
  | none => exact .pure
  | some own =>
  have hown' : t.Shallow (d + 1) own := by
    by_contra hdeep
    rcases Trait.of_allJoined (k := d + 1) ht hown hdeep with hdeep | ⟨m, hm, hdeep⟩
    · exact hdeep (hbase'.shallow.grows hbt.toGrows)
    · exact hdeep ((hallOf m hm).shallow.grows hbt.toGrows)
  have hform := hown.isForm (hbt.form hbase.isForm)
  exact halts_withAlternatives h ht (tractable_form ht.toWellFormed hform hown') fun m hm =>
    (hmsb m hm).mono hbt.toGrows

theorem finishes_normalize (h : Joins P (d + 1)) (ha : a.Lawful (depth (P := P)))
    (hx : a.Shallow (d + 1) x) : a.Finishes (.normalize x) := by
  refine hx.induction (C := fun x => ∀ b, b.Lawful (depth (P := P)) → Grows a b →
    b.Finishes (.normalize x)) (fun x hx ih b hb hab => ?_) a ha (.refl a)
  cases hp : b.progress.get? x with
  | some p => exact finishes_of_known hp
  | none =>
      apply Halts.of_step
      show Halts atTop (fun calls => normalize (solve calls) x) b
      unfold normalize
      apply Halts.view_bind
      rw [hp]
      have hxb := hx.grows hab
      have hgrows := grows_enter hb.toWellFormed hp
      have hlawful := lawful_enter hb hxb.lt hp
      refine .modify_bind (.thenAlways (halts_normalForm h hlawful (hxb.grows hgrows) ?_))
      intro m hm
      -- the members are those that the schema had from the start
      have hm' : m ∈ ((b.enter x).schema x).members := hm
      rw [(hab.trans hgrows).schema x hx.lt] at hm'
      have hs : (b.enter x).Shallow (d + 1) m := (hxb.grows hgrows).member hm
      exact ⟨hs, hs.lt, fun ht hbt => ih m hm' _ ht ((hab.trans hgrows).trans hbt)⟩

/-! ## All depths -/

theorem solved_succ (h : Joins P (d + 1)) : Solved P (d + 1) := by
  have htractable : ∀ {a : Arena} {x}, a.Shallow (d + 1) x → Tractable P (d + 1) a x :=
    fun hx => ⟨hx, hx.lt, fun hb hab => finishes_normalize h hb (hx.grows hab)⟩
  refine ⟨fun ha hx => finishes_normalize h ha hx, fun {a x y} place ha hx hy => ?_⟩
  exact (h.resolves (htractable hx) (htractable hy) place).finishes ha (.refl a)

/-- Work on schemas of any depth ends. -/
theorem solved (P : Json → Prop) (d : Nat) : Solved P d := by
  induction d with
  | zero => exact ⟨fun _ hx => (nomatch hx), fun _ _ hx => (nomatch hx)⟩
  | succ d ih => exact solved_succ (joins_succ ih)

/-- Where no schema of the document leads back to itself, work on any schemas ends. -/
theorem CycleFree.finishes (h : a.CycleFree) (ha : a.Lawful (depth (P := P))) {task : Task}
    (hvalid : a.Valid task) : a.Finishes task := by
  cases task with
  | normalize x =>
      obtain ⟨d, hx⟩ := h.exists_shallow ha.toWellFormed hvalid
      exact (solved P d).normalize ha hx
  | conjoin x y place =>
      obtain ⟨d, hx⟩ := h.exists_shallow ha.toWellFormed hvalid.1
      obtain ⟨e, hy⟩ := h.exists_shallow ha.toWellFormed hvalid.2
      exact (solved P (max d e)).conjoin place ha (hx.mono (Nat.le_max_left d e))
        (hy.mono (Nat.le_max_right d e))

end ApiModel.Arena
