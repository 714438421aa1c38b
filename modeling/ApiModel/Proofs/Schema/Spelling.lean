/-
  ApiModel.Proofs.Schema.Spelling

  What types are spelled out with. The type of a normal form is made of the types of its
  alternatives, or, where it lists no values, of those of its items and its further properties; a
  class is only named. The normal forms that a type is spelled with are found on the way, by
  normalizing, so the graph of them grows with the arena. Where everything that a normal form is
  spelled with is known and spelled out itself, nothing leads back to itself.
-/
import ApiModel.Proofs.Schema.Settled
import ApiModel.Proofs.Schema.Termination
import Mathlib.Data.Set.Finite.Basic

namespace ApiModel

/-- The schemas whose normal forms the values of one kind are spelled with. -/
def Schema.spelledBy (s : Schema) : Kind → List SchemaId
  | .array => s.items.toList
  | .object => if s.properties.isEmpty then (Arena.extraSchema? s).toList else []
  | _ => []

/-- The schemas whose normal forms the type of a schema is spelled with, besides its alternatives. -/
def Schema.spelled (s : Schema) : List SchemaId :=
  if s.anyOf.isEmpty && s.values.isNone then s.effectiveKinds.toList.flatMap s.spelledBy else []

theorem Schema.mem_parts_of_spelledBy {s : Schema} {k : Kind} {c : SchemaId}
    (hc : c ∈ s.spelledBy k) : c ∈ s.parts := by
  unfold Schema.parts
  cases k with
  | array => exact List.mem_append_left _ (List.mem_append_left _ hc)
  | object =>
      change c ∈ if s.properties.isEmpty then (Arena.extraSchema? s).toList else [] at hc
      split at hc
      · exact List.mem_append_right _ hc
      · cases hc
  | _ => cases hc

theorem Schema.mem_spelled {s : Schema} {c : SchemaId} : c ∈ s.spelled ↔
    s.anyOf = [] ∧ s.values = none ∧ ∃ k ∈ s.effectiveKinds.toList, c ∈ s.spelledBy k := by
  unfold Schema.spelled
  split
  · next h =>
      rw [Bool.and_eq_true, List.isEmpty_iff, Option.isNone_iff_eq_none] at h
      rw [List.mem_flatMap]
      exact ⟨fun hc => ⟨h.1, h.2, hc⟩, fun hc => hc.2.2⟩
  · next h =>
      refine iff_of_false (by simp) fun hc => h ?_
      rw [hc.1, hc.2.1]
      rfl

namespace Arena

variable {P : Json → Prop} {a b : Arena} {n x y c : SchemaId} {l : List SchemaId}

/-! ## The graph -/

/-- The type of the normal form `x` is spelled with that of the normal form `y`. -/
inductive Spells (a : Arena) (x y : SchemaId) : Prop
  | branch (h : y ∈ (a.schema x).anyOf)
  | part {c : SchemaId} (hc : c ∈ (a.schema x).spelled)
      (hform : a.progress.get? c = some (.done (some y)))

/-- Normal forms, starting with `n`, each of which spells the next. -/
structure Walk (a : Arena) (n : SchemaId) (l : List SchemaId) : Prop where
  chain : l.IsChain a.Spells
  head : l.head? = some n

/-- Some normal form below `n` leads back to itself. -/
def CycleBelow (a : Arena) (n : SchemaId) : Prop :=
  ∃ x, Relation.ReflTransGen a.Spells n x ∧ Relation.TransGen a.Spells x x

/-- Everything that the normal form `x` is spelled with has been found, and is spelled out itself. -/
inductive SpelledOut (a : Arena) : SchemaId → Prop
  | mk {x : SchemaId} (found : ∀ c ∈ (a.schema x).spelled, ∃ r, a.progress.get? c = some (.done r))
      (below : ∀ y, a.Spells x y → a.SpelledOut y) : a.SpelledOut x

theorem lt_of_spelled (ha : a.WellFormed P) (hc : c ∈ (a.schema x).spelled) : c < a.next := by
  obtain ⟨-, -, k, -, hck⟩ := Schema.mem_spelled.1 hc
  exact (ha.proper x).links c (Schema.mem_links_of_part (Schema.mem_parts_of_spelledBy hck))

/-- What a normal form is spelled with is a normal form. -/
theorem Spells.isForm (h : a.Spells x y) (ha : a.WellFormed P) (hx : a.IsForm x) : a.IsForm y := by
  cases h with
  | branch hb => exact (ha.normal x hx).2 y hb
  | part _ hform => exact ha.form _ y hform

/-- Only a schema that exists is spelled with others. -/
theorem lt_of_mem_spelled (hc : c ∈ (a.schema x).spelled) : x < a.next := by
  refine Nat.lt_of_not_le fun hle => ?_
  obtain ⟨-, -, k, -, hck⟩ := Schema.mem_spelled.1 hc
  have hlink := Schema.mem_links_of_part (Schema.mem_parts_of_spelledBy hck)
  rw [a.schema_of_le hle, Schema.links_blank] at hlink
  cases hlink

theorem Spells.lt (h : a.Spells x y) : x < a.next := by
  cases h with
  | branch hb =>
      refine Nat.lt_of_not_le fun hle => ?_
      rw [a.schema_of_le hle] at hb
      cases hb
  | part hc _ => exact lt_of_mem_spelled hc

theorem Spells.mono (h : a.Spells x y) (hab : Grows a b) : b.Spells x y := by
  have hschema := hab.schema x h.lt
  cases h with
  | branch hb => exact .branch (by rwa [hschema])
  | part hc hform => exact .part (by rwa [hschema]) (hab.done _ _ hform)

theorem CycleBelow.mono (h : a.CycleBelow n) (hab : Grows a b) : b.CycleBelow n := by
  obtain ⟨x, hreach, hcycle⟩ := h
  have hmono : ∀ y z, a.Spells y z → b.Spells y z := fun _ _ hyz => hyz.mono hab
  exact ⟨x, Relation.ReflTransGen.mono hmono _ _ hreach, Relation.TransGen.mono hmono _ _ hcycle⟩

theorem Walk.mono (h : a.Walk n l) (hab : Grows a b) : b.Walk n l :=
  ⟨h.chain.imp fun _ _ hxy => hxy.mono hab, h.head⟩

/-- A walk that has come to `x` may go on with what `x` is spelled with. -/
theorem Walk.snoc (h : a.Walk n l) (hlast : l.getLast? = some x) (hxy : a.Spells x y) :
    a.Walk n (l ++ [y]) where
  chain := by
    refine List.isChain_append.2 ⟨h.chain, List.isChain_singleton y, fun z hz w hw => ?_⟩
    rw [hlast] at hz
    cases hz
    cases hw
    exact hxy
  head := by rw [List.head?_append, h.head]; rfl

/-- A walk may be broken off. -/
theorem Walk.front {l' : List SchemaId} (h : a.Walk n (l ++ l')) (hl : l ≠ []) : a.Walk n l where
  chain := (List.isChain_append.1 h.chain).1
  head := by
    obtain ⟨x, l, rfl⟩ := List.exists_cons_of_ne_nil hl
    exact h.head

/-- Everything on a walk can be reached from its start. -/
theorem Walk.reach (h : a.Walk n l) (hx : x ∈ l) : Relation.ReflTransGen a.Spells n x := by
  induction l generalizing n with
  | nil => cases hx
  | cons y l ih =>
      obtain rfl : y = n := Option.some_inj.1 h.head
      rcases List.mem_cons.1 hx with rfl | hx
      · exact .refl
      · obtain ⟨z, l, rfl⟩ := List.exists_cons_of_ne_nil (List.ne_nil_of_mem hx)
        obtain ⟨hyz, hchain⟩ := List.isChain_cons_cons.1 h.chain
        exact .head hyz (ih ⟨hchain, rfl⟩ hx)

/-! ## Normal forms that are spelled out -/

theorem SpelledOut.reach (h : a.SpelledOut x) (hxy : Relation.ReflTransGen a.Spells x y) :
    a.SpelledOut y := by
  induction hxy with
  | refl => exact h
  | tail _ hyz ih =>
      cases ih with
      | mk _ below => exact below _ hyz

/-- What is spelled out does not come back to itself. -/
theorem SpelledOut.irreflexive (h : a.SpelledOut x) : ¬Relation.TransGen a.Spells x x := by
  induction h with
  | mk _ _ ih =>
      intro hcycle
      obtain ⟨y, hxy, hyx⟩ := Relation.TransGen.head'_iff.1 hcycle
      exact ih y hxy (.tail' hyx hxy)

theorem SpelledOut.not_cycleBelow (h : a.SpelledOut n) : ¬a.CycleBelow n :=
  fun ⟨_, hreach, hcycle⟩ => (h.reach hreach).irreflexive hcycle

/-- What is spelled out stays so: nothing new is found below it. -/
theorem SpelledOut.mono (h : a.SpelledOut x) (ha : a.WellFormed P) (hab : Grows a b)
    (hx : a.IsForm x) : b.SpelledOut x := by
  induction h with
  | @mk x found _ ih =>
      have hschema := hab.schema x (ha.isForm_lt hx)
      have hback : ∀ y, b.Spells x y → a.Spells x y := by
        intro y hxy
        cases hxy with
        | branch hb => exact .branch (by rwa [← hschema])
        | part hc hform =>
            rw [hschema] at hc
            obtain ⟨r, hr⟩ := found _ hc
            have hr' := hab.done _ r hr
            rw [hform] at hr'
            cases hr'
            exact .part hc hr
      refine .mk (fun c hc => ?_) fun y hxy => ih y (hback y hxy) ((hback y hxy).isForm ha hx)
      rw [hschema] at hc
      obtain ⟨r, hr⟩ := found c hc
      exact ⟨r, hab.done c r hr⟩

/-- The normal form of a schema has been found, and is spelled out if there is one. -/
def Settled (a : Arena) (c : SchemaId) : Prop :=
  ∃ r, a.progress.get? c = some (.done r) ∧ ∀ y ∈ r, a.SpelledOut y

theorem Settled.mono (h : a.Settled c) (ha : a.WellFormed P) (hab : Grows a b) : b.Settled c := by
  obtain ⟨r, hr, hout⟩ := h
  refine ⟨r, hab.done c r hr, fun y hy => (hout y hy).mono ha hab ?_⟩
  cases hy
  exact ha.form c y hr

theorem spelledOut_of_settled (hbranches : ∀ y ∈ (a.schema x).anyOf, a.SpelledOut y)
    (hparts : ∀ c ∈ (a.schema x).spelled, a.Settled c) : a.SpelledOut x := by
  refine .mk (fun c hc => (hparts c hc).imp fun _ h => h.1) fun y hxy => ?_
  cases hxy with
  | branch hb => exact hbranches y hb
  | part hc hform =>
      obtain ⟨r, hr, hout⟩ := hparts _ hc
      rw [hform] at hr
      cases hr
      exact hout y rfl

/-! ## Looking for more of the graph -/

/-- From `a`, normalizing schemas that are found to be spelled below `n` leads to `b`. -/
inductive Explores (n : SchemaId) (a : Arena) : Arena → Prop
  | refl : Explores n a a
  | step {b b' : Arena} {x c : SchemaId} {calls : Nat} {r : Option SchemaId}
      (h : Explores n a b) (hx : Relation.ReflTransGen b.Spells n x)
      (hc : c ∈ (b.schema x).spelled) (hrun : (solve calls (.normalize c)).run b = (.ok r, b')) :
      Explores n a b'

/-- However it is looked for, the part of the graph below `n` is finite, and no normalization on the
    way fails. -/
structure Traversable (a : Arena) (n : SchemaId) : Prop where
  finite : {x | ∃ b, Explores n a b ∧ Relation.ReflTransGen b.Spells n x}.Finite
  finishes : ∀ b x c, Explores n a b → Relation.ReflTransGen b.Spells n x →
    c ∈ (b.schema x).spelled → b.Finishes (.normalize c)
  faultless : ∀ b x c, Explores n a b → Relation.ReflTransGen b.Spells n x →
    c ∈ (b.schema x).spelled → ∀ calls f, ((solve calls (.normalize c)).run b).1 ≠ .error (.fault f)

/-- Where everything below `n` has been found already, nothing more is found. -/
theorem Explores.eq_of_found
    (hfound : ∀ x, Relation.ReflTransGen a.Spells n x → ∀ c ∈ (a.schema x).spelled,
      ∃ r, a.progress.get? c = some (.done r))
    (h : Explores n a b) : b = a := by
  induction h with
  | refl => rfl
  | @step b b' x c calls r _ hx hc hrun ih =>
      subst ih
      obtain ⟨r', hr'⟩ := hfound x hx c hc
      cases calls with
      | zero => cases hrun
      | succ calls =>
          rw [run_solve_of_done hr'] at hrun
          exact (Prod.mk.inj hrun).2.symm

theorem traversable_of_found (hfin : {x | Relation.ReflTransGen a.Spells n x}.Finite)
    (hfound : ∀ x, Relation.ReflTransGen a.Spells n x → ∀ c ∈ (a.schema x).spelled,
      ∃ r, a.progress.get? c = some (.done r)) : a.Traversable n where
  finite := hfin.subset fun x ⟨_, hb, hx⟩ => by
    rw [hb.eq_of_found hfound] at hx
    exact hx
  finishes b x c hb hx hc := by
    obtain rfl := hb.eq_of_found hfound
    obtain ⟨r, hr⟩ := hfound x hx c hc
    exact .of_step ⟨.ok r, b, .of_forall (run_solve_of_done hr), by simp⟩
  faultless b x c hb hx hc calls f := by
    obtain rfl := hb.eq_of_found hfound
    obtain ⟨r, hr⟩ := hfound x hx c hc
    cases calls with
    | zero => exact nofun
    | succ calls =>
        rw [run_solve_of_done hr]
        exact nofun

end Arena

end ApiModel
