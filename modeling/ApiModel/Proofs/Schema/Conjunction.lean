/-
  ApiModel.Proofs.Schema.Conjunction

  What the steps of a conjunction do, when the tasks that come up are worked out by a sound solver.
  Each step keeps the arena lawful, ends as its relation says, and remembers conjunctions of bare
  schemas below its own place only. The last point is what makes an answer about bare schemas
  permanent: no task inside a conjunction comes back to the place of that conjunction.
-/
import ApiModel.Proofs.Work
import ApiModel.Proofs.Schema.Outcome

namespace ApiModel

/-! ## Places -/

namespace Pointer

/-- `q` is the place `p` or lies below it. -/
def Covers (p q : Pointer) : Prop := p.segments <+: q.segments

/-- `q` lies below the place `p`. -/
def Above (p q : Pointer) : Prop := ∃ s, (p.push s).Covers q

theorem Covers.refl (p : Pointer) : p.Covers p := List.prefix_rfl

theorem Covers.of_push {p q : Pointer} {s : String} (h : (p.push s).Covers q) : p.Covers q :=
  (List.prefix_append _ _).trans h

theorem Above.covers {p q : Pointer} (h : p.Above q) : p.Covers q := by
  obtain ⟨s, hs⟩ := h
  exact hs.of_push

theorem not_above_self (p : Pointer) : ¬p.Above p := by
  rintro ⟨s, hs⟩
  have hlen := hs.length_le
  rw [push, List.length_append, List.length_singleton] at hlen
  exact Nat.lt_irrefl _ hlen

end Pointer

namespace Arena

/-! ## Confined work -/

/-- The arena advances, and answers about conjunctions change at places in `Q` only. -/
structure Confined (Q : Pointer → Prop) (a b : Arena) : Prop extends Advances a b where
  conjunctions : ∀ k, ¬Q k.2.2 → b.conjunctions.get? k = a.conjunctions.get? k

instance (Q : Pointer → Prop) : IsPreorder Arena (Confined Q) where
  refl a := { refl_of Advances a with conjunctions := fun _ _ => rfl }
  trans _ _ _ hab hbc :=
    { trans_of Advances hab.toAdvances hbc.toAdvances with
      conjunctions := fun k hk => (hbc.conjunctions k hk).trans (hab.conjunctions k hk) }

theorem Confined.mono {Q Q' : Pointer → Prop} {a b : Arena} (h : Confined Q a b)
    (hQ : ∀ q, Q q → Q' q) : Confined Q' a b :=
  { h with conjunctions := fun k hk => h.conjunctions k fun hq => hk (hQ _ hq) }

variable {P : Json → Prop}

/-- `x`, started in `a`, keeps the arena lawful and remembers conjunctions at places in `Q` only; a
    result is as `post` says of the arena that it leaves. -/
abbrev Runs {α : Type} (L : Law P) (Q : Pointer → Prop) (x : ArenaWork α) (a : Arena)
    (post : α → Arena → Prop) : Prop :=
  Work.Yields (Lawful L) (Confined Q) x a post

theorem Runs.widen {α : Type} {L : Law P} {Q Q' : Pointer → Prop} {x : ArenaWork α} {a : Arena}
    {post : α → Arena → Prop} (h : Runs L Q x a post) (hQ : ∀ q, Q q → Q' q) :
    Runs L Q' x a post :=
  Work.Yields.weaken h fun _ _ hst => hst.mono hQ

/-! ## Sound solvers -/

/-- The schemas of a task exist. -/
def Valid (a : Arena) : Task → Prop
  | .normalize id => id < a.next
  | .conjoin x y _ => x < a.next ∧ y < a.next

/-- The places at which a task may remember conjunctions. -/
def Scope (a : Arena) : Task → Pointer → Prop
  | .normalize id, _ => (a.schema id).members ≠ []
  | .conjoin x y place, q => a.Bare x → a.Bare y → place.Covers q

/-- The answer to a task is right in an arena. -/
def Answered (L : Law P) (t : Arena) : Task → Option SchemaId → Prop
  | .normalize id, r => t.progress.get? id = some (.done r)
  | .conjoin x y _, r => Joined L t x y r

/-- A solver that gives right answers, from every lawful arena. -/
def Sound (L : Law P) (solve : Solver) : Prop :=
  ∀ task a, a.Lawful L → a.Valid task →
    Runs L (a.Scope task) (solve task) a fun r t => Answered L t task r

variable {L : Law P} {solve : Solver} {a t : Arena} {Q : Pointer → Prop}

/-- The normal form of a schema, where the work is part of work with a wider scope. -/
theorem Sound.normalize (hsolve : Sound L solve) (ha : a.Lawful L) {id : SchemaId}
    (hid : id < a.next) (hQ : (a.schema id).members ≠ [] → ∀ q, Q q) :
    Runs L Q (solve (.normalize id)) a fun r t => t.progress.get? id = some (.done r) :=
  Runs.widen (hsolve (.normalize id) a ha hid) fun q hq => hQ hq q

/-- The conjunction of two schemas, where the work is part of work with a wider scope. -/
theorem Sound.conjoin (hsolve : Sound L solve) (ha : a.Lawful L) {x y : SchemaId}
    {place : Pointer} (hx : x < a.next) (hy : y < a.next)
    (hQ : ∀ q, (a.Bare x → a.Bare y → place.Covers q) → Q q) :
    Runs L Q (solve (.conjoin x y place)) a fun r t => Joined L t x y r :=
  Runs.widen (hsolve (.conjoin x y place) a ha ⟨hx, hy⟩) hQ

/-! ## Storing -/

/-- A schema that can be stored as a normal form unless it matches nothing. -/
structure Storable (P : Json → Prop) (a : Arena) (s : Schema) : Prop where
  proper : s.Proper P a.next
  allOf : s.allOf = []
  oneOf : s.oneOf = []
  kinds : s.kinds ≠ none
  anyOf : s.anyOf.length ≠ 1
  forms : ∀ c ∈ s.anyOf, a.IsForm c

/-- Trimming concerns the listed values alone. -/
theorem trimValues_eq (s : Schema) : ∃ vs, trimValues s = { s with values := vs } ∧
    (∀ ws, vs = some ws → ∃ us, s.values = some us ∧ ∀ v ∈ ws, v ∈ us) := by
  unfold trimValues
  split
  · next us ks hus hks =>
      exact ⟨_, rfl, by rintro _ ⟨⟩; exact ⟨us, hus, fun v hv => (List.mem_filter.1 hv).1⟩⟩
  · exact ⟨s.values, rfl, fun ws hws => ⟨ws, hws, fun _ hv => hv⟩⟩

theorem links_trimValues (s : Schema) : (trimValues s).links = s.links := by
  obtain ⟨vs, hvs, -⟩ := trimValues_eq s
  rw [hvs]
  rfl

theorem members_trimValues (s : Schema) : (trimValues s).members = s.members := by
  obtain ⟨vs, hvs, -⟩ := trimValues_eq s
  rw [hvs]
  rfl

theorem Storable.trim {s : Schema} (h : Storable P a s) : Storable P a (trimValues s) := by
  obtain ⟨vs, hvs, hsub⟩ := trimValues_eq s
  rw [hvs]
  refine { h with proper := { h.proper with values := ?_ } }
  intro ws hws v hv
  obtain ⟨us, hus, hmem⟩ := hsub ws hws
  exact h.proper.values us hus v (hmem v hv)

/-- After trimming every listed value is of the kinds of the schema. -/
theorem accepts_of_mem_trimValues {s : Schema} {ks : KindSet} {vs : List Json}
    (hks : (trimValues s).kinds = some ks) (hvs : (trimValues s).values = some vs) :
    ∀ v ∈ vs, ks.accepts v = true := by
  unfold trimValues at hks hvs
  split at hks
  · next us js hus hjs =>
      simp only [hus, hjs, Option.some.injEq] at hks hvs
      subst hvs
      intro v hv
      exact hks ▸ (List.mem_filter.1 hv).2
  · next hnot =>
      split at hvs
      · next us js hus hjs => exact absurd hjs (hnot us js hus)
      · exact absurd hks (hnot vs ks hvs)

theorem Storable.isNormal {s : Schema} (h : Storable P a s)
    (hsat : (trimValues s).isBottom = false) : (trimValues s).IsNormal where
  allOf := h.trim.allOf
  oneOf := h.trim.oneOf
  kinds := h.trim.kinds
  satisfiable := hsat
  values _ _ hks hvs := accepts_of_mem_trimValues hks hvs
  anyOf := h.trim.anyOf

/-- The listed values of a normal form have been trimmed. -/
theorem trimValues_of_isNormal {s : Schema} (h : s.IsNormal) : trimValues s = s := by
  unfold trimValues
  split
  · next vs js hvs hjs => rw [List.filter_eq_self.2 (h.values js vs hjs hvs), ← hvs]
  · rfl

theorem confined_addForm (h : a.WellFormed P) (s : Schema) : Confined Q a (a.addForm s) :=
  { advances_addForm h s with conjunctions := fun _ _ => rfl }

theorem runs_store (ha : a.Lawful L) {s : Schema} (hs : Storable P a s) :
    Runs L Q (store s) a fun r t => Stored t s r := by
  unfold store
  by_cases hsat : (trimValues s).isBottom = true
  · simp only [hsat, if_true]
    exact .pure ha (.bottom hsat)
  · simp only [hsat, Bool.false_eq_true, if_false]
    rw [Bool.not_eq_true] at hsat
    refine .view_bind ?_
    have hadd := lawful_addForm ha hs.trim.proper (hs.isNormal hsat) hs.trim.forms
    have hstored : Stored (a.addForm (trimValues s)) s (some a.next) := by
      refine .stored hsat (isForm_addForm a _) ?_
      rw [schema_addForm, if_pos rfl]
    refine .modify_bind ?_ ?_ ?_
    · exact hadd
    · exact confined_addForm ha.toWellFormed _
    · exact .pure hadd hstored

/-! ## Combining keywords -/

theorem runs_agreed {α : Type} [BEq α] (ha : a.Lawful L) (place : Pointer) (keyword : String)
    (text : α → String) (x y : Option α) :
    Runs L Q (agreed place keyword text x y) a fun z _ => Agreed x y z := by
  unfold agreed
  split
  · next v w =>
      split
      · next heq => exact .pure ha ⟨rfl, by rintro _ _ ⟨⟩ ⟨⟩; exact heq⟩
      · exact .fault ha
  · next hnot => exact .pure ha ⟨rfl, fun v w hv hw => (hnot v w hv hw).elim⟩

theorem runs_combineKeywords (ha : a.Lawful L) (s₁ s₂ : Schema) (place : Pointer) :
    Runs L Q (combineKeywords s₁ s₂ place) a fun k _ => KeywordsJoined s₁ s₂ k := by
  unfold combineKeywords
  refine .bind (runs_agreed ha _ _ _ _ _) fun m b hb _ hm => ?_
  refine .bind (runs_agreed hb _ _ _ _ _) fun p c hc _ hp => ?_
  refine .bind (runs_agreed hc _ _ _ _ _) fun f d hd _ hf => ?_
  exact .pure hd ⟨place, m, p, f, rfl, hm, hp, hf⟩

/-! ## Child schemas -/

/-- The operands of an existing schema exist. -/
theorem operandsOf_lt (h : a.WellFormed P) {x : SchemaId} (hx : x < a.next) :
    ∀ c ∈ (a.operandsOf x).elements, c < a.next := by
  intro c hc
  unfold operandsOf at hc
  cases hops : a.operands.get? x with
  | none =>
      simp only [hops, Option.getD_none, SortedSet.singleton, List.mem_singleton] at hc
      exact hc ▸ hx
  | some os =>
      simp only [hops, Option.getD_some] at hc
      obtain ⟨-, p, hp⟩ := h.operands x os hops
      refine (h.proper x).links c ?_
      rw [hp, Schema.links_conjunction]
      exact hc

/-- What a schema stands for was not put off itself. -/
theorem operands_of_mem_operandsOf (h : a.WellFormed P) {x c : SchemaId}
    (hc : c ∈ (a.operandsOf x).elements) : a.operands.get? c = none := by
  unfold operandsOf at hc
  cases hops : a.operands.get? x with
  | none =>
      simp only [hops, Option.getD_none, SortedSet.singleton, List.mem_singleton] at hc
      exact hc ▸ hops
  | some os =>
      simp only [hops, Option.getD_some] at hc
      exact h.flat x os hops c hc

theorem union_operandsOf_lt (h : a.WellFormed P) {x y : SchemaId} (hx : x < a.next)
    (hy : y < a.next) : ∀ c ∈ ((a.operandsOf x).union (a.operandsOf y)).elements, c < a.next := by
  intro c hc
  rcases SortedSet.mem_union.1 hc with hcx | hcy
  · exact operandsOf_lt h hx c hcx
  · exact operandsOf_lt h hy c hcy

theorem ChildJoined.lt (h : a.WellFormed P) {x y z : SchemaId} (hx : x < a.next)
    (hy : y < a.next) (hj : ChildJoined L a x y (some z)) : z < a.next := by
  generalize hr : some z = r at hj
  cases hj with
  | same _ => cases hr; exact hx
  | single hd => cases hr; exact union_operandsOf_lt h hx hy _ (by simp [hd])
  | putOff hd => cases hr; exact (h.operands _ _ hd).1
  | unmatched _ _ _ _ => cases hr
  | @joined nx ny r _ _ _ hr' =>
      obtain ⟨n, hn, hz⟩ := Option.map_eq_some_iff.1 hr.symm
      subst hn
      rw [← hz]
      split
      · exact hx
      · split
        · exact hy
        · exact h.isForm_lt hr'.isForm

theorem confined_addDeferred (h : a.WellFormed P) (os : SortedSet SchemaId) (place : Pointer) :
    Confined Q a (a.addDeferred os place) :=
  { advances_addDeferred h os place with conjunctions := fun _ _ => rfl }

theorem runs_putOff (ha : a.Lawful L) {x y : SchemaId} (hx : x < a.next) (hy : y < a.next)
    (place : Pointer) :
    Runs L Q (putOff x y place) a fun d t => ChildJoined L t x y (some d) := by
  unfold putOff
  refine .view_bind ?_
  have hlt := union_operandsOf_lt ha.toWellFormed hx hy
  split
  · next only honly => exact .pure ha (.single honly)
  · refine .view_bind ?_
    split
    · next d hd => exact .pure ha (.putOff (ha.deferred _ _ hd))
    · refine .view_bind ?_
      have hflat : ∀ c ∈ ((a.operandsOf x).union (a.operandsOf y)).elements,
          a.operands.get? c = none := fun c hc =>
        (SortedSet.mem_union.1 hc).elim (operands_of_mem_operandsOf ha.toWellFormed)
          (operands_of_mem_operandsOf ha.toWellFormed)
      generalize hos : (a.operandsOf x).union (a.operandsOf y) = os at hlt hflat ⊢
      -- neither a schema with these operands nor one that stands for them: a new one is made
      have hadd : (a.addDeferred os place).Lawful L :=
        lawful_addDeferred ha fun c hc => ⟨hlt c hc, hflat c hc⟩
      have hconf : Confined Q a (a.addDeferred os place) :=
        confined_addDeferred ha.toWellFormed os place
      have hjoined : ChildJoined L (a.addDeferred os place) x y (some a.next) := by
        refine .putOff ?_
        rw [operandsOf_of_grows hconf.toGrows hx, operandsOf_of_grows hconf.toGrows hy, hos,
          operands_addDeferred, if_pos rfl]
      refine .modify_bind ?_ ?_ ?_
      · exact hadd
      · exact hconf
      · exact .pure hadd hjoined

/-- The conjunction of two children, at a place of their own. -/
theorem runs_conjoinChildren (hsolve : Sound L solve) (ha : a.Lawful L) {x y : SchemaId}
    {place : Pointer} (hx : x < a.next) (hy : y < a.next)
    (hQ : ∀ q, (a.Bare x → a.Bare y → place.Covers q) → Q q) :
    Runs L Q (conjoinChildren solve x y place) a fun r t => ChildJoined L t x y r := by
  unfold conjoinChildren
  split
  · next heq => exact .pure ha (.same heq)
  next hne =>
  refine .view_bind ?_
  split
  · refine .bind (runs_putOff ha hx hy place) fun d t ht _ hd => ?_
    exact .pure ht hd
  -- a schema with combinators is not bare, so its normalization has the whole arena for its scope
  refine .bind (hsolve.normalize ha hx ?_) fun fx b hb hab hfx => ?_
  · intro hm q
    exact hQ q fun hbare => absurd hbare.members hm
  have hy' : y < b.next := Nat.lt_of_lt_of_le hy hab.next
  refine .bind (hsolve.normalize hb hy' ?_) fun fy c hc hbc hfy => ?_
  · intro hm q
    rw [hab.schema y hy] at hm
    exact hQ q fun _ hbare => absurd hbare.members hm
  have hfx' := hbc.done _ _ hfx
  have hac := hab.toGrows.trans hbc.toGrows
  split
  · next nx ny =>
      have hnx := hc.form _ _ hfx'
      have hny := hc.form _ _ hfy
      -- both children have a normal form
      refine .bind (hsolve.conjoin hc (hc.isForm_lt hnx) (hc.isForm_lt hny) ?_)
        fun r t ht hct hr => ?_
      · intro q hq
        refine hQ q fun hbx hby => hq ?_ ?_
        · exact hc.bare_form (hac.bare x hx hbx) hfx'
        · exact hc.bare_form (hac.bare y hy hby) hfy
      have hjoined := ChildJoined.joined hne (hct.done _ _ hfx') (hct.done _ _ hfy) hr
      cases r with
      | none => exact .pure ht hjoined
      | some r => exact .pure ht hjoined
  · next hnot =>
      -- one child matches nothing, and so does the conjunction
      refine .pure hc (.unmatched hne hfx' hfy ?_)
      cases fx with
      | none => exact .inl rfl
      | some nx =>
          cases fy with
          | none => exact .inr rfl
          | some ny => exact absurd rfl (hnot nx ny rfl)

/-! ## The demands on parts -/

/-- The parts of two schemas may be conjoined below `place` within the scope `Q`. -/
def Scoped (a : Arena) (s₁ s₂ : Schema) (place : Pointer) (Q : Pointer → Prop) : Prop :=
  ∀ c ∈ s₁.links, ∀ d ∈ s₂.links, ∀ q, (a.Bare c → a.Bare d → place.Above q) → Q q

/-- A merged name is named by one side at least, and by each side that is closed. -/
theorem mem_mergedKeys {s₁ s₂ : Schema} {k : String} : k ∈ mergedKeys s₁ s₂ ↔
    (s₁.properties.contains k = true ∨ s₂.properties.contains k = true) ∧
      (isClosed s₁ = true → s₁.properties.contains k = true) ∧
      (isClosed s₂ = true → s₂.properties.contains k = true) := by
  unfold mergedKeys
  rw [List.mem_filter, List.mem_append, List.mem_filter, ← Dict.contains_iff, ← Dict.contains_iff]
  by_cases h : s₁.properties.contains k = true <;> cases isClosed s₁ <;> cases isClosed s₂ <;>
    simp [h]

theorem named_of_mem_mergedKeys {s₁ s₂ : Schema} {k : String} (hk : k ∈ mergedKeys s₁ s₂) :
    s₁.properties.contains k = true ∨ s₂.properties.contains k = true :=
  (mem_mergedKeys.1 hk).1

/-- The outcome for one more name, which comes before the others. -/
theorem PropertiesJoined.cons {s₁ s₂ : Schema} {key : String} {keys : List String}
    {merged : Dict String SchemaId} {child : SchemaId} {r : Option (Dict String SchemaId)}
    (h : PropertiesJoined L t s₁ s₂ keys (merged.insert key child) r)
    (hchild : PropertyJoined L t s₁ s₂ key (some child)) :
    PropertiesJoined L t s₁ s₂ (key :: keys) merged r := by
  cases h with
  | clash hk hp => exact .clash (by simp [hk]) hp
  | all hd hin hout =>
      refine .all (fun hm => hd (Dict.nodup_keys_insert hm key child)) ?_ ?_
      · intro k hk
        by_cases hmem : k ∈ keys
        · exact hin k hmem
        · obtain rfl := (List.mem_cons.1 hk).resolve_right hmem
          exact ⟨child, by rw [hout k hmem, Dict.get?_insert_self], hchild⟩
      · intro k hk
        simp only [List.mem_cons, not_or] at hk
        rw [hout k hk.2, Dict.get?_insert_of_ne _ hk.1]

section Parts

variable {s₁ s₂ : Schema} {place : Pointer}

theorem Scoped.mono {b : Arena} (h : Scoped a s₁ s₂ place Q) (hg : Grows a b)
    (h₁ : s₁.Proper P a.next) (h₂ : s₂.Proper P a.next) : Scoped b s₁ s₂ place Q := by
  intro c hc d hd q hq
  refine h c hc d hd q fun hbc hbd => hq ?_ ?_
  · exact hg.bare c (h₁.links c hc) hbc
  · exact hg.bare d (h₂.links d hd) hbd

/-- Parts `x` and `y` of the two schemas conjoined at a place below. -/
theorem runs_conjoinParts (hsolve : Sound L solve) (ha : a.Lawful L) {x y : SchemaId}
    {p : Pointer} (h₁ : s₁.Proper P a.next) (h₂ : s₂.Proper P a.next)
    (hQ : Scoped a s₁ s₂ place Q) (hp : ∀ q, p.Covers q → place.Above q)
    (hx : x ∈ s₁.links) (hy : y ∈ s₂.links) :
    Runs L Q (conjoinChildren solve x y p) a fun r t => ChildJoined L t x y r := by
  refine runs_conjoinChildren hsolve ha (h₁.links x hx) (h₂.links y hy) fun q hq => ?_
  exact hQ x hx y hy q fun hbx hby => hp q (hq hbx hby)

theorem runs_conjoinItems (hsolve : Sound L solve) (ha : a.Lawful L)
    (h₁ : s₁.Proper P a.next) (h₂ : s₂.Proper P a.next) (hQ : Scoped a s₁ s₂ place Q) :
    Runs L Q (conjoinItems solve s₁ s₂ place) a fun r t => ItemsJoined L t s₁ s₂ r := by
  unfold conjoinItems
  split
  · next x y hx hy =>
      refine .bind (runs_conjoinParts hsolve ha h₁ h₂ hQ (fun q hq => ⟨_, hq⟩)
        (Schema.mem_links_of_items hx) (Schema.mem_links_of_items hy)) fun r t ht _ hr => ?_
      have hjoined := ItemsJoined.both hx hy hr
      cases r with
      | none => exact .pure ht hjoined
      | some z => exact .pure ht hjoined
  · next hnot =>
      refine .pure ha (.one ?_)
      cases hx : s₁.items with
      | none => exact .inl rfl
      | some x =>
          cases hy : s₂.items with
          | none => exact .inr rfl
          | some y => exact (hnot x y hx hy).elim

theorem runs_conjoinExtras (hsolve : Sound L solve) (ha : a.Lawful L)
    (h₁ : s₁.Proper P a.next) (h₂ : s₂.Proper P a.next) (hQ : Scoped a s₁ s₂ place Q) :
    Runs L Q (conjoinExtras solve s₁ s₂ place) a fun r t => ExtrasJoined L t s₁ s₂ r := by
  unfold conjoinExtras
  split
  · next h => exact .pure ha (.left (.inl h))
  · next h => exact .pure ha (.left (.inr h))
  · next h _ _ => exact .pure ha (.right (.inl h))
  · next h _ _ => exact .pure ha (.right (.inr h))
  · next h _ _ => exact .pure ha (.closed (.inl (by simp [isClosed, h])))
  · next h _ _ _ => exact .pure ha (.closed (.inr (by simp [isClosed, h])))
  · next x y hx hy =>
      refine .bind (runs_conjoinParts hsolve ha h₁ h₂ hQ (fun q hq => ⟨_, hq⟩)
        (Schema.mem_links_of_extras hx) (Schema.mem_links_of_extras hy)) fun r t ht _ hr => ?_
      have hjoined := ExtrasJoined.both hx hy hr
      cases r with
      | none => exact .pure ht hjoined
      | some z => exact .pure ht hjoined

theorem runs_conjoinProperty (hsolve : Sound L solve) (ha : a.Lawful L)
    (h₁ : s₁.Proper P a.next) (h₂ : s₂.Proper P a.next) (hQ : Scoped a s₁ s₂ place Q)
    {key : String} (hkey : key ∈ mergedKeys s₁ s₂) {p : Pointer}
    (hp : ∀ q, p.Covers q → place.Above q) :
    Runs L Q (conjoinProperty solve s₁ s₂ key p) a fun r t =>
      PropertyJoined L t s₁ s₂ key r := by
  unfold conjoinProperty
  split
  · next x y hx hy =>
      -- both sides name the property
      exact (runs_conjoinParts hsolve ha h₁ h₂ hQ hp (Schema.mem_links_of_property hx)
        (Schema.mem_links_of_property hy)).mono fun _ _ _ _ hr => .both hx hy hr
  · next x hx hy =>
      -- only one side names it: the other speaks with its schema for further properties, if any
      split
      · next e he =>
          have he := extraSchema?_eq_some.1 he
          exact (runs_conjoinParts hsolve ha h₁ h₂ hQ hp (Schema.mem_links_of_property hx)
            (Schema.mem_links_of_extras he)).mono fun _ _ _ _ hr => .leftExtra hx hy he hr
      · next he => exact .pure ha (.left hx hy he)
  · next y hx hy =>
      split
      · next e he =>
          have he := extraSchema?_eq_some.1 he
          exact (runs_conjoinParts hsolve ha h₁ h₂ hQ hp (Schema.mem_links_of_extras he)
            (Schema.mem_links_of_property hy)).mono fun _ _ _ _ hr => .rightExtra hx hy he hr
      · next he => exact .pure ha (.right hx hy he)
  · next hx hy => exact absurd (named_of_mem_mergedKeys hkey) (by simp [Dict.contains, hx, hy])

/-- The properties with some of the merged names, added to those in `merged`. -/
theorem runs_conjoinProperties (hsolve : Sound L solve) (ha : a.Lawful L)
    (h₁ : s₁.Proper P a.next) (h₂ : s₂.Proper P a.next) (hQ : Scoped a s₁ s₂ place Q)
    {keys : List String} (hkeys : ∀ k ∈ keys, k ∈ mergedKeys s₁ s₂)
    (merged : Dict String SchemaId) {base : Pointer} (hb : ∀ q, base.Covers q → place.Above q) :
    Runs L Q (conjoinProperties solve s₁ s₂ base keys merged) a fun r t =>
      PropertiesJoined L t s₁ s₂ keys merged r := by
  -- what was joined for one key is carried over to the arena that the rest leaves behind
  induction keys generalizing merged a with
  | nil => exact .pure ha (.all id (by simp) fun _ _ => rfl)
  | cons key keys ih =>
      unfold conjoinProperties
      refine .bind (runs_conjoinProperty hsolve ha h₁ h₂ hQ (hkeys key (by simp))
        fun q hq => hb q hq.of_push) fun child b hb' hab hchild => ?_
      cases child with
      | none => exact .pure hb' (.clash (by simp) hchild)
      | some child =>
          have h₁' := h₁.mono hab.next
          have h₂' := h₂.mono hab.next
          refine (ih hb' h₁' h₂' (hQ.mono hab.toGrows h₁ h₂)
            (fun k hk => hkeys k (by simp [hk])) (merged.insert key child)).mono
            fun r t ht hbt hr => ?_
          exact hr.cons (hchild.mono hb'.toWellFormed ht.toWellFormed hbt.toGrows h₁' h₂')

end Parts

/-! ## The demands of a conjunction -/

section Own

variable {s₁ s₂ : Schema}

/-! ### The parts of a conjunction -/

theorem ItemsJoined.part {c : SchemaId} (h : ItemsJoined L t s₁ s₂ (some (some c))) :
    PartJoined L t s₁ s₂ c := by
  generalize hr : some (some c) = r at h
  cases h with
  | both hx hy hz =>
      obtain ⟨z, rfl, hc⟩ := Option.map_eq_some_iff.1 hr.symm
      cases hc
      exact .both (.items hx hy) hz
  | one _ =>
      rcases Option.or_eq_some_iff.1 (Option.some.inj hr).symm with hx | ⟨-, hy⟩
      · exact .left (Schema.mem_parts_of_items hx)
      · exact .right (Schema.mem_parts_of_items hy)

theorem ExtrasJoined.part {c : SchemaId} (h : ExtrasJoined L t s₁ s₂ (some (.matching c))) :
    PartJoined L t s₁ s₂ c := by
  generalize hr : some (Extras.matching c) = r at h
  cases h with
  | left _ => exact .right (Schema.mem_parts_of_extras hr.symm)
  | right _ => exact .left (Schema.mem_parts_of_extras hr.symm)
  | closed _ => cases hr
  | @both _ _ z hx hy hz =>
      cases z with
      | none => cases hr
      | some z => cases hr; exact .both (.extras hx hy) hz

theorem PropertyJoined.part {k : String} {c : SchemaId}
    (h : PropertyJoined L t s₁ s₂ k (some c)) : PartJoined L t s₁ s₂ c := by
  generalize hr : some c = r at h
  cases h with
  | both hx hy hz => exact .both (.property hx hy) (hr ▸ hz)
  | leftExtra hx hk he hz => exact .both (.leftExtra hx hk he) (hr ▸ hz)
  | left hx _ _ => cases hr; exact .left (Schema.mem_parts_of_property hx)
  | rightExtra hk hy he hz => exact .both (.rightExtra hk he hy) (hr ▸ hz)
  | right _ hy _ => cases hr; exact .right (Schema.mem_parts_of_property hy)

theorem PropertiesJoined.keys_nodup {keys : List String} {d : Dict String SchemaId}
    (h : PropertiesJoined L t s₁ s₂ keys .empty (some d)) : d.keys.Nodup := by
  cases h with
  | all hd _ _ => exact hd List.nodup_nil

theorem PropertiesJoined.named {keys : List String} {d : Dict String SchemaId} {k : String}
    (h : PropertiesJoined L t s₁ s₂ keys .empty (some d)) (hk : k ∈ keys) :
    ∃ c, d.get? k = some c ∧ PropertyJoined L t s₁ s₂ k (some c) := by
  cases h with
  | all _ hin _ => exact hin k hk

/-- Every entry comes of a key, as the dictionary was empty. -/
theorem PropertiesJoined.unnamed {keys : List String} {d : Dict String SchemaId} {k : String}
    (h : PropertiesJoined L t s₁ s₂ keys .empty (some d)) (hk : k ∉ keys) : d.get? k = none := by
  cases h with
  | all _ _ hout => rw [hout k hk, Dict.get?_empty]

theorem PropertiesJoined.joined {keys : List String} {d : Dict String SchemaId} {k : String}
    {c : SchemaId} (h : PropertiesJoined L t s₁ s₂ keys .empty (some d)) (hk : d.get? k = some c) :
    k ∈ keys ∧ PropertyJoined L t s₁ s₂ k (some c) := by
  have hmem : k ∈ keys := by
    by_contra hmem
    cases hk.symm.trans (h.unnamed hmem)
  obtain ⟨c', hc', hj⟩ := h.named hmem
  cases hk.symm.trans hc'
  exact ⟨hmem, hj⟩

theorem PropertiesJoined.part {keys : List String} {d : Dict String SchemaId} {c : SchemaId}
    (h : PropertiesJoined L t s₁ s₂ keys .empty (some d)) (hc : c ∈ d.values) :
    PartJoined L t s₁ s₂ c := by
  obtain ⟨k, hk⟩ := Dict.get?_of_mem_values h.keys_nodup hc
  exact (h.joined hk).2.part

theorem OwnJoined.part {own : Schema} (h : OwnJoined L t s₁ s₂ own) {c : SchemaId}
    (hc : c ∈ own.parts) : PartJoined L t s₁ s₂ c := by
  cases h with
  | mk hk hi he hd =>
      obtain ⟨place, m, p, f, rfl, -, -, -⟩ := hk
      simp only [Schema.parts, List.mem_append, Option.mem_toList, extraSchema?_eq_some] at hc
      rcases hc with (rfl | hc) | rfl
      · exact hi.part
      · exact hd.part hc
      · exact he.part

theorem OwnJoined.keys_nodup {own : Schema} (h : OwnJoined L t s₁ s₂ own) :
    own.properties.keys.Nodup := by
  cases h with
  | mk _ _ _ hd => exact hd.keys_nodup

theorem PartJoined.lt (h : t.WellFormed P) (h₁ : s₁.Proper P t.next) (h₂ : s₂.Proper P t.next)
    {c : SchemaId} (hj : PartJoined L t s₁ s₂ c) : c < t.next := by
  cases hj with
  | left hc => exact h₁.links c (Schema.mem_links_of_part hc)
  | right hc => exact h₂.links c (Schema.mem_links_of_part hc)
  | both hf hz => exact hz.lt h (h₁.links _ hf.mem_links.1) (h₂.links _ hf.mem_links.2)

/-- The demands of a conjunction name no members yet. -/
theorem OwnJoined.members {own : Schema} (hj : OwnJoined L t s₁ s₂ own) : own.members = [] := by
  cases hj with
  | mk hk _ _ _ =>
      obtain ⟨place, m, p, f, rfl, -, -, -⟩ := hk
      rfl

/-- The demands of a conjunction have no alternatives yet. -/
theorem OwnJoined.anyOf {own : Schema} (hj : OwnJoined L t s₁ s₂ own) : own.anyOf = [] := by
  have hmembers := hj.members
  simp only [Schema.members, List.append_eq_nil_iff] at hmembers
  exact hmembers.1.2

/-! ### Its demands as a whole -/

theorem commonValues_sub {xs ys : Option (List Json)} {vs : List Json}
    (h : commonValues xs ys = some vs) {v : Json} (hv : v ∈ vs) :
    (∃ us, xs = some us ∧ v ∈ us) ∨ ∃ us, ys = some us ∧ v ∈ us := by
  unfold commonValues at h
  split at h
  · next us ws =>
      cases h
      exact .inl ⟨us, rfl, (List.mem_filter.1 hv).1⟩
  · rcases Option.or_eq_some_iff.1 h with hx | ⟨-, hy⟩
    · exact .inl ⟨vs, hx, hv⟩
    · exact .inr ⟨vs, hy, hv⟩

/-- The demands of a conjunction, with any alternatives that exist. -/
theorem OwnJoined.proper (h : t.WellFormed P) (h₁ : s₁.Proper P t.next)
    (h₂ : s₂.Proper P t.next) {own : Schema} (hj : OwnJoined L t s₁ s₂ own)
    {bs : List SchemaId} (hbs : ∀ c ∈ bs, c < t.next) :
    ({ own with anyOf := bs } : Schema).Proper P t.next := by
  have hparts : ∀ c ∈ own.parts, c < t.next := fun c hc => (hj.part hc).lt h h₁ h₂
  have hkeys := hj.keys_nodup
  cases hj with
  | mk hk _ _ _ =>
      obtain ⟨place, m, p, f, rfl, -, -, -⟩ := hk
      refine ⟨?links, hkeys, ?kinds, ?values, SortedSet.ascending_union h₁.required⟩
      case links =>
        intro c hc
        -- the members are the alternatives `bs`
        rcases Schema.mem_links_iff.1 hc with hc | hc
        · exact hparts c hc
        · simp only [Schema.members, joinKeywords, Schema.blank, List.nil_append,
            List.append_nil] at hc
          exact hbs c hc
      case kinds =>
        intro ks hks hnum
        cases hks
        simp only [KindSet.inter, KindSet.ofPred, KindSet.contains, Bool.and_eq_true] at hnum ⊢
        exact ⟨h₁.kinds_getD hnum.1, h₂.kinds_getD hnum.2⟩
      case values =>
        intro vs hvs v hv
        rcases commonValues_sub hvs hv with ⟨us, hus, hmem⟩ | ⟨us, hus, hmem⟩
        · exact h₁.values us hus v hmem
        · exact h₂.values us hus v hmem

theorem OwnJoined.storable (h : t.WellFormed P) (h₁ : s₁.Proper P t.next)
    (h₂ : s₂.Proper P t.next) {own : Schema} (hj : OwnJoined L t s₁ s₂ own)
    {bs : List SchemaId} (hforms : ∀ c ∈ bs, t.IsForm c) (hlen : bs.length ≠ 1) :
    Storable P t { own with anyOf := bs } := by
  have hproper := hj.proper h h₁ h₂ fun c hc => h.isForm_lt (hforms c hc)
  cases hj with
  | mk hk _ _ _ =>
      obtain ⟨place, m, p, f, rfl, -, -, -⟩ := hk
      exact ⟨hproper, rfl, rfl, by simp [joinKeywords], hlen, hforms⟩

end Own

/-! ## Alternatives -/

/-- The alternatives `bs` come of those found before and of the conjunctions of the pairs; none that
    there is was left out. -/
structure PairsJoined (L : Law P) (t : Arena) (pairs : List (SchemaId × SchemaId))
    (found bs : List SchemaId) : Prop where
  kept : ∀ c ∈ found, c ∈ bs
  sound : ∀ c ∈ bs, c ∈ found ∨ ∃ e ∈ pairs, Joined L t e.1 e.2 (some c)
  complete : ∀ e ∈ pairs, ∃ o, Joined L t e.1 e.2 o ∧ ∀ c, o = some c → c ∈ bs

section Pairs

variable {pairs : List (SchemaId × SchemaId)} {found found' bs : List SchemaId}
  {e : SchemaId × SchemaId}

/-- A pair without a conjunction adds nothing. -/
theorem PairsJoined.cons_none (h : PairsJoined L t pairs found bs)
    (he : Joined L t e.1 e.2 none) : PairsJoined L t (e :: pairs) found bs := by
  refine ⟨h.kept, fun c hc => ?_, fun d hd => ?_⟩
  · exact (h.sound c hc).imp_right fun ⟨d, hd, hj⟩ => ⟨d, List.mem_cons_of_mem e hd, hj⟩
  · rcases List.mem_cons.1 hd with rfl | hd
    · exact ⟨none, he, by simp⟩
    · exact h.complete d hd

/-- The conjunction of a pair is found, if it was not found before. -/
theorem PairsJoined.cons_some {branch : SchemaId} (h : PairsJoined L t pairs found' bs)
    (he : Joined L t e.1 e.2 (some branch))
    (hfound : ∀ c, c ∈ found' ↔ c ∈ found ∨ c = branch) :
    PairsJoined L t (e :: pairs) found bs := by
  refine ⟨fun c hc => h.kept c ((hfound c).2 (.inl hc)), fun c hc => ?_, fun d hd => ?_⟩
  · rcases h.sound c hc with hmem | ⟨d, hd, hj⟩
    · refine ((hfound c).1 hmem).imp_right fun hc => ?_
      exact ⟨e, List.mem_cons_self, hc ▸ he⟩
    · exact .inr ⟨d, List.mem_cons_of_mem e hd, hj⟩
  · rcases List.mem_cons.1 hd with rfl | hd
    · refine ⟨some branch, he, ?_⟩
      rintro c ⟨⟩
      exact h.kept branch ((hfound branch).2 (.inr rfl))
    · exact h.complete d hd

end Pairs

theorem runs_crossPairs (hsolve : Sound L solve) (ha : a.Lawful L) (place : Pointer)
    {pairs : List (SchemaId × SchemaId)} (found : List SchemaId)
    (hpairs : ∀ e ∈ pairs, e.1 < a.next ∧ e.2 < a.next) (hQ : ∀ q, Q q) :
    Runs L Q (crossPairs solve place pairs found) a fun bs t =>
      PairsJoined L t pairs found bs := by
  induction pairs generalizing found a with
  | nil => exact .pure ha ⟨fun _ hc => hc, fun _ hc => .inl hc, by simp⟩
  | cons e rest ih =>
      obtain ⟨l, r⟩ := e
      obtain ⟨hl, hr⟩ := hpairs (l, r) (by simp)
      unfold crossPairs
      refine .bind (hsolve.conjoin ha hl hr fun q _ => hQ q) fun o b hb hab ho => ?_
      have hrest : ∀ e ∈ rest, e.1 < b.next ∧ e.2 < b.next := by
        intro e he
        obtain ⟨h₁, h₂⟩ := hpairs e (by simp [he])
        exact ⟨Nat.lt_of_lt_of_le h₁ hab.next, Nat.lt_of_lt_of_le h₂ hab.next⟩
      cases o with
      | none =>
          refine (ih hb found hrest).mono fun bs t ht hbt hbs => ?_
          exact hbs.cons_none (ho.mono hb.toWellFormed ht.toWellFormed hbt.toGrows)
      | some branch =>
          refine (ih hb _ hrest).mono fun bs t ht hbt hbs => ?_
          -- a conjunction found before is not listed again
          refine hbs.cons_some (ho.mono hb.toWellFormed ht.toWellFormed hbt.toGrows) fun c => ?_
          split
          · next hmem =>
              have hbranch : branch ∈ found := List.contains_iff_mem.1 hmem
              exact ⟨.inl, fun hc => hc.elim id fun hc => hc ▸ hbranch⟩
          · simp

theorem runs_cross (hsolve : Sound L solve) (ha : a.Lawful L) {left right : List SchemaId}
    (hleft : ∀ l ∈ left, l < a.next) (hright : ∀ r ∈ right, r < a.next) (place : Pointer)
    (hQ : ∀ q, Q q) :
    Runs L Q (cross solve left right place) a fun bs t => Crossed L t left right bs := by
  have hmem : ∀ e : SchemaId × SchemaId,
      e ∈ left.flatMap (fun l => right.map fun r => (l, r)) ↔ e.1 ∈ left ∧ e.2 ∈ right := by
    rintro ⟨l, r⟩
    simp
  refine (runs_crossPairs hsolve ha place [] ?_ hQ).mono fun bs t _ _ hbs => ?_
  · intro e he
    obtain ⟨hl, hr⟩ := (hmem e).1 he
    exact ⟨hleft _ hl, hright _ hr⟩
  · refine ⟨fun c hc => ?_, fun l hl r hr => hbs.complete (l, r) ((hmem _).2 ⟨hl, hr⟩)⟩
    obtain ⟨e, he, hj⟩ := (hbs.sound c hc).resolve_left (by simp)
    obtain ⟨hl, hr⟩ := (hmem e).1 he
    exact ⟨e.1, hl, e.2, hr, hj⟩

/-- Each alternative is conjoined with `own`, as if `own` were the only one of another list. -/
theorem runs_survivors (hsolve : Sound L solve) (ha : a.Lawful L) {own : SchemaId}
    (hown : own < a.next) (group : Pointer) (i : Nat) {ms : List SchemaId}
    (hms : ∀ m ∈ ms, m < a.next) (hQ : ms ≠ [] → ∀ q, Q q) :
    Runs L Q (survivors solve own group i ms) a fun bs t => Crossed L t ms [own] bs := by
  induction ms generalizing i a with
  | nil => exact .pure ha ⟨by simp, by simp⟩
  | cons m ms ih =>
      have hQ := hQ (by simp)
      unfold survivors
      refine .bind (hsolve.conjoin ha (hms m (by simp)) hown fun q _ => hQ q)
        fun o b hb hab ho => ?_
      -- `own` and the alternatives that are left are still there when the first has been conjoined
      have hms' : ∀ m ∈ ms, m < b.next :=
        fun m' hm' => Nat.lt_of_lt_of_le (hms m' (by simp [hm'])) hab.next
      refine .bind (ih hb (Nat.lt_of_lt_of_le hown hab.next) (i + 1) hms' fun _ => hQ)
        fun bs t ht hbt hbs => ?_
      have ho' := ho.mono hb.toWellFormed ht.toWellFormed hbt.toGrows
      refine .pure ht ⟨fun c hc => ?_, fun l hl r hr => ?_⟩
      · rcases List.mem_append.1 hc with hc | hc
        · rw [Option.mem_toList] at hc
          exact ⟨m, by simp, own, by simp, hc ▸ ho'⟩
        · obtain ⟨l, hl, r, hr, hj⟩ := hbs.sound c hc
          exact ⟨l, by simp [hl], r, hr, hj⟩
      · rcases List.mem_cons.1 hl with rfl | hl
        · rw [List.mem_singleton] at hr
          subst hr
          exact ⟨o, ho', fun c hc => by simp [hc]⟩
        · obtain ⟨o', ho'', hmem⟩ := hbs.complete l hl r hr
          exact ⟨o', ho'', fun c hc => by simp [hmem c hc]⟩

/-! ## Normal forms conjoined -/

theorem runs_reuseOrStore (ha : a.Lawful L) {x y : SchemaId} {s₁ s₂ out : Schema}
    (hx : a.IsForm x) (h₁ : a.schema x = s₁) (h₂ : a.schema y = s₂) (hout : Storable P a out) :
    Runs L Q (reuseOrStore x y s₁ s₂ out) a fun r t => Reused t x y out r := by
  unfold reuseOrStore
  split
  · next hsame => exact .pure ha (.left (h₁ ▸ hsame))
  next hnot =>
  rw [Bool.not_eq_true] at hnot
  split
  · next hsame => exact .pure ha (.right (h₂ ▸ hsame) (h₁ ▸ hnot))
  · refine (runs_store ha hout).mono fun r t _ hat hr => .stored hr ?_
    rwa [hat.schema x (ha.isForm_lt hx), h₁]

theorem scoped_schema {x y : SchemaId} {place : Pointer}
    (hQ : ∀ q, (a.Bare x → a.Bare y → place.Above q) → Q q) :
    Scoped a (a.schema x) (a.schema y) place Q := by
  intro c hc d hd q hq
  exact hQ q fun hbx hby => hq (hbx.link hc) (hby.link hd)

/-- Normal forms with alternatives are not bare, so conjoining them has the whole arena for its
    scope. -/
theorem scope_of_anyOf {x y : SchemaId} {place : Pointer}
    (hQ : ∀ q, (a.Bare x → a.Bare y → place.Above q) → Q q)
    (hany : (a.schema x).anyOf ≠ [] ∨ (a.schema y).anyOf ≠ []) (q : Pointer) : Q q := by
  refine hQ q fun hbx hby => ?_
  have hmx := hbx.members
  have hmy := hby.members
  simp only [Schema.members, List.append_eq_nil_iff] at hmx hmy
  rcases hany with hx | hy
  · exact absurd hmx.1.2 hx
  · exact absurd hmy.1.2 hy

/-- The alternatives of a normal form are normal forms. -/
theorem isForm_of_mem_sides (ha : a.WellFormed P) {x : SchemaId} (hx : a.IsForm x) :
    ∀ c ∈ a.sides x, a.IsForm c := by
  intro c hc
  unfold sides at hc
  split at hc
  · rw [List.mem_singleton] at hc
    exact hc ▸ hx
  · exact (ha.normal x hx).2 c hc

/-- The last part of a conjunction where neither side has alternatives. -/
theorem runs_conjoinPlain (ha : a.Lawful L) {x y : SchemaId} {s₁ s₂ own : Schema}
    (hx : a.IsForm x) (hy : a.IsForm y) (h₁ : a.schema x = s₁) (h₂ : a.schema y = s₂)
    (hown : OwnJoined L a s₁ s₂ own) (hany₁ : s₁.anyOf = []) (hany₂ : s₂.anyOf = [])
    (hfree₁ : s₁.isUnconstrained = false) (hfree₂ : s₂.isUnconstrained = false) :
    Runs L Q (reuseOrStore x y s₁ s₂ own) a fun r t => BothJoined L t x y r := by
  have hp₁ := h₁ ▸ ha.proper x
  have hp₂ := h₂ ▸ ha.proper y
  have hstorable : Storable P a own := by
    have hnone : ∀ c ∈ ([] : List SchemaId), a.IsForm c := by simp
    have := hown.storable ha.toWellFormed hp₁ hp₂ hnone (by simp)
    rwa [← hown.anyOf] at this
  refine (runs_reuseOrStore ha hx h₁ h₂ hstorable).mono fun r t ht hat hr => ?_
  -- storing leaves the sides as they are, so what was joined holds in the arena after it
  have hsx := (hat.schema x (ha.isForm_lt hx)).trans h₁
  have hsy := (hat.schema y (ha.isForm_lt hy)).trans h₂
  have hown' := hown.mono ha.toWellFormed ht.toWellFormed hat.toGrows hp₁ hp₂
  rw [← hsx, ← hsy] at hown'
  rw [← hsx] at hany₁ hfree₁
  rw [← hsy] at hany₂ hfree₂
  exact .plain hown' hany₁ hany₂ hr hfree₂ hfree₁

/-- What comes of the demands `own` of both sides and the alternatives that are left. -/
theorem runs_conjoinBranches (ha : a.Lawful L) {x y : SchemaId} {s₁ s₂ own : Schema}
    (hx : a.IsForm x) (hy : a.IsForm y) (h₁ : a.schema x = s₁) (h₂ : a.schema y = s₂)
    (hown : OwnJoined L a s₁ s₂ own) (hany : s₁.anyOf ≠ [] ∨ s₂.anyOf ≠ [])
    (hfree₂ : s₂.isUnconstrained = false) {bs : List SchemaId}
    (hbs : Crossed L a (a.sides x) (a.sides y) bs) :
    Runs L Q (match bs with
      | [] => return none
      | [only] => return some only
      | branches => reuseOrStore x y s₁ s₂ { own with anyOf := branches }) a
      fun r t => BothJoined L t x y r := by
  have hp₁ := h₁ ▸ ha.proper x
  have hp₂ := h₂ ▸ ha.proper y
  have hany' : (a.schema x).anyOf ≠ [] ∨ (a.schema y).anyOf ≠ [] := by rwa [h₁, h₂]
  split
  · exact .pure ha (.noBranch hany' hbs (h₂ ▸ hfree₂))
  · have hown' : OwnJoined L a (a.schema x) (a.schema y) own := by rwa [h₁, h₂]
    exact .pure ha (.oneBranch hany' hbs (h₂ ▸ hfree₂) hown')
  next hnil hone =>
  -- no branch and a sole one have been dealt with
  have hlen : 2 ≤ bs.length := by
    match bs, hnil, hone with
    | [], hnil, _ => exact absurd rfl hnil
    | [c], _, hone => exact absurd rfl (hone c)
    | _ :: _ :: _, _, _ => simp
  have hstorable := hown.storable ha.toWellFormed hp₁ hp₂ hbs.isForm (Nat.ne_of_gt hlen)
  refine (runs_reuseOrStore ha hx h₁ h₂ hstorable).mono fun r t ht hat hr => ?_
  have hsx := (hat.schema x (ha.isForm_lt hx)).trans h₁
  have hsy := (hat.schema y (ha.isForm_lt hy)).trans h₂
  have hown' := hown.mono ha.toWellFormed ht.toWellFormed hat.toGrows hp₁ hp₂
  -- the sides have the same alternatives after the store
  have hsides : Crossed L t (t.sides x) (t.sides y) bs := by
    unfold sides at hbs ⊢
    rw [h₁, h₂] at hbs
    rw [hsx, hsy]
    exact hbs.mono ha.toWellFormed ht.toWellFormed hat.toGrows
  rw [← hsx, ← hsy] at hown' hany
  exact .branches hany hown' hsides hlen hr (hsy ▸ hfree₂)

/-- The last part of a conjunction: the alternatives of both sides are conjoined in pairs, if there
    are any. -/
theorem runs_conjoinSides (hsolve : Sound L solve) (ha : a.Lawful L) {x y : SchemaId}
    {s₁ s₂ own : Schema} (hx : a.IsForm x) (hy : a.IsForm y) (h₁ : a.schema x = s₁)
    (h₂ : a.schema y = s₂) (place : Pointer) (hown : OwnJoined L a s₁ s₂ own)
    (hfree₁ : s₁.isUnconstrained = false) (hfree₂ : s₂.isUnconstrained = false)
    (hQ : s₁.anyOf ≠ [] ∨ s₂.anyOf ≠ [] → ∀ q, Q q) :
    Runs L Q (if s₁.anyOf.isEmpty && s₂.anyOf.isEmpty then reuseOrStore x y s₁ s₂ own
      else do
        match ← cross solve (if s₁.anyOf.isEmpty then [x] else s₁.anyOf)
          (if s₂.anyOf.isEmpty then [y] else s₂.anyOf) place with
        | [] => return none
        | [only] => return some only
        | branches => reuseOrStore x y s₁ s₂ { own with anyOf := branches }) a
      fun r t => BothJoined L t x y r := by
  have hp₁ := h₁ ▸ ha.proper x
  have hp₂ := h₂ ▸ ha.proper y
  split
  · next hempty =>
      rw [Bool.and_eq_true, List.isEmpty_iff, List.isEmpty_iff] at hempty
      exact runs_conjoinPlain ha hx hy h₁ h₂ hown hempty.1 hempty.2 hfree₁ hfree₂
  next hany =>
  rw [Bool.and_eq_true, List.isEmpty_iff, List.isEmpty_iff, not_and_or] at hany
  have hleft : ∀ l ∈ (if s₁.anyOf.isEmpty then [x] else s₁.anyOf), l < a.next :=
    h₁ ▸ fun l hl => ha.isForm_lt (isForm_of_mem_sides ha.toWellFormed hx l hl)
  have hright : ∀ r ∈ (if s₂.anyOf.isEmpty then [y] else s₂.anyOf), r < a.next :=
    h₂ ▸ fun r hr => ha.isForm_lt (isForm_of_mem_sides ha.toWellFormed hy r hr)
  refine .bind (runs_cross hsolve ha hleft hright place (hQ hany)) fun bs b hb hab hbs => ?_
  have hsx := (hab.schema x (ha.isForm_lt hx)).trans h₁
  have hsy := (hab.schema y (ha.isForm_lt hy)).trans h₂
  have hown' := hown.mono ha.toWellFormed hb.toWellFormed hab.toGrows hp₁ hp₂
  refine runs_conjoinBranches hb (hab.form hx) (hab.form hy) hsx hsy hown' hany hfree₂ ?_
  unfold sides
  rw [hsx, hsy]
  exact hbs

theorem runs_conjoinForms (hsolve : Sound L solve) (ha : a.Lawful L) {x y : SchemaId}
    (hx : a.IsForm x) (hy : a.IsForm y) {place : Pointer}
    (hQ : ∀ q, (a.Bare x → a.Bare y → place.Above q) → Q q) :
    Runs L Q (conjoinForms solve x y place) a fun r t => BothJoined L t x y r := by
  have hscope := scoped_schema hQ
  have hwhole := scope_of_anyOf hQ
  have h₁ := ha.proper x
  have h₂ := ha.proper y
  -- the operands are the same schemas in every later arena
  have hsx : ∀ {t}, Grows a t → t.schema x = a.schema x :=
    fun h => h.schema x (ha.isForm_lt hx)
  have hsy : ∀ {t}, Grows a t → t.schema y = a.schema y :=
    fun h => h.schema y (ha.isForm_lt hy)
  unfold conjoinForms
  refine .view_bind (.view_bind ?_)
  split
  · next hfree => exact .pure ha (.rightFree hfree)
  next hy' =>
  rw [Bool.not_eq_true] at hy'
  split
  · next hfree => exact .pure ha (.leftFree hfree hy')
  next hx' =>
  rw [Bool.not_eq_true] at hx'
  -- the parts are joined one after the other, each in the arena that the last one left
  refine .bind (runs_combineKeywords ha _ _ place) fun k b hb hab hk => ?_
  refine .bind (runs_conjoinItems hsolve hb (h₁.mono hab.next) (h₂.mono hab.next)
    (hscope.mono hab.toGrows h₁ h₂)) fun i c hc hbc hi => ?_
  have hac := hab.toGrows.trans hbc.toGrows
  cases i with
  | none =>
      rw [← hsx hac, ← hsy hac] at hi
      exact .pure hc (.itemsClash hi (hsy hac ▸ hy'))
  | some i =>
  have h₁c := h₁.mono hac.next
  have h₂c := h₂.mono hac.next
  refine .bind (runs_conjoinExtras hsolve hc h₁c h₂c (hscope.mono hac h₁ h₂))
    fun e d hd hcd he => ?_
  have had := hac.trans hcd.toGrows
  have h₁d := h₁.mono had.next
  have h₂d := h₂.mono had.next
  have hid := hi.mono hc.toWellFormed hd.toWellFormed hcd.toGrows h₁c h₂c
  refine .bind (runs_conjoinProperties hsolve hd h₁d h₂d (hscope.mono had h₁ h₂)
    (fun _ hk => hk) .empty fun q hq => ⟨_, hq⟩) fun ps f hf hdf hps => ?_
  have haf := had.trans hdf.toGrows
  cases ps with
  | none =>
      cases hps with
      | clash hmem hp =>
          rw [← hsx haf, ← hsy haf] at hmem hp
          exact .pure hf (.propertyClash hmem hp (hsy haf ▸ hy'))
  | some ps =>
  -- all parts are brought to the last arena
  have hown := OwnJoined.mk hk (hid.mono hd.toWellFormed hf.toWellFormed hdf.toGrows h₁d h₂d)
    (he.mono hd.toWellFormed hf.toWellFormed hdf.toGrows h₁d h₂d) hps
  exact runs_conjoinSides hsolve hf (haf.form hx) (haf.form hy) (hsx haf) (hsy haf) _ hown hx' hy'
    hwhole

end Arena

end ApiModel
