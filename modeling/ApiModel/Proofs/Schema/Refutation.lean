/-
  ApiModel.Proofs.Schema.Refutation

  A schema without a normal form contradicts itself. A value that matches a schema of the document
  matches its members too, and one of each group of alternatives: so it matches a bundle of schemas.
  A bundle is refuted when its schemas leave nothing together, or when those of them that speak for
  one part name different schemas for it and every bundle with these is refuted. This is said of
  names and of what the document has under them, so it is the same in every session. Where nothing
  comes of a schema, by whatever way, every bundle with it is refuted: a bundle that is not backs a
  normal form, whose demands follow from the bundle and whose parts follow from what it names.
-/
import ApiModel.Proofs.Schema.Exclusion
import ApiModel.Proofs.Schema.Facet
import Mathlib.Data.Set.Basic

namespace ApiModel.Arena

/-- What the schemas of a document demand, in terms of the names that they go by. -/
abbrev Contents := SchemaId → Schema

variable {P : Json → Prop} {κ : Contents} {ℓ : SchemaId → SchemaId} {a b t : Arena}
  {W X : Set SchemaId} {x y n c d z m : SchemaId} {f : Facet} {s u own : Schema}
  {r : Option SchemaId} {bs : List SchemaId}

/-! ## Bundles -/

/-- Schemas that one value would have to match together: with each of them its members, and one of
    each group of alternatives. None of them restricts unnamed properties. -/
structure Bundle (κ : Contents) (W : Set SchemaId) : Prop where
  unrestricted : ∀ x ∈ W, Unrestricted (κ x).extras
  allOf : ∀ x ∈ W, ∀ m ∈ (κ x).allOf, m ∈ W
  anyOf : ∀ x ∈ W, (κ x).anyOf ≠ [] → ∃ m ∈ (κ x).anyOf, m ∈ W
  oneOf : ∀ x ∈ W, (κ x).oneOf ≠ [] → ∃ m ∈ (κ x).oneOf, m ∈ W

/-- A schema of the bundle names the child schema `c` for a part. -/
def Voices (κ : Contents) (W : Set SchemaId) (f : Facet) (c : SchemaId) : Prop :=
  ∃ x ∈ W, (κ x).childFor f = some c

/-- Schemas of the bundle name different child schemas for a part. -/
def Disputes (κ : Contents) (W : Set SchemaId) (f : Facet) : Prop :=
  ∃ c d, Voices κ W f c ∧ Voices κ W f d ∧ c ≠ d

/-- The schemas of the bundle leave the same value, and the same number where only numbers are
    left. -/
structure Possible (κ : Contents) (W : Set SchemaId) : Prop where
  value : ∃ v : Json, v.Distinct ∧ ∀ x ∈ W, Selects (κ x) v
  number : (∀ k, (∀ x ∈ W, ((κ x).kinds.getD .full).contains k = true) →
    k = .number ∨ k = .integer) → ∃ q, ∀ x ∈ W, (κ x).Within q

/-- Why nothing can match all schemas of a bundle. -/
inductive Refuted (κ : Contents) : Set SchemaId → Prop
  | demands {W : Set SchemaId} (h : ¬Possible κ W) : Refuted κ W
  | part {W : Set SchemaId} {f : Facet} (hf : Disputes κ W f)
      (h : ∀ X, Bundle κ X → (∀ c, Voices κ W f c → c ∈ X) → Refuted κ X) : Refuted κ W

/-- A bundle that can be matched as far as anyone can tell. -/
structure Tenable (κ : Contents) (W : Set SchemaId) : Prop extends Bundle κ W where
  not_refuted : ¬Refuted κ W

theorem Tenable.possible (h : Tenable κ W) : Possible κ W := by
  by_contra hno
  exact h.not_refuted (.demands hno)

/-- The child schemas for a disputed part belong to a bundle of this kind. -/
theorem Tenable.exists_part (h : Tenable κ W) (hf : Disputes κ W f) :
    ∃ X, Tenable κ X ∧ ∀ c, Voices κ W f c → c ∈ X := by
  by_contra hno
  refine h.not_refuted (.part hf fun X hX hvoices => ?_)
  by_contra hsound
  exact hno ⟨X, ⟨hX, hsound⟩, hvoices⟩

/-! ## What follows from a bundle -/

/-- The demands on a value as a whole follow from those of a bundle. -/
structure Implied (κ : Contents) (W : Set SchemaId) (s : Schema) : Prop where
  kinds : ∀ k, (∀ x ∈ W, ((κ x).kinds.getD .full).contains k = true) →
    (s.kinds.getD .full).contains k = true
  selects : ∀ v : Json, v.Distinct → (∀ x ∈ W, Selects (κ x) v) → Selects s v
  within : ∀ q, (∀ x ∈ W, (κ x).Within q) → s.Within q

theorem Implied.of_tighter (h : Implied κ W s) (hsu : Tighter s u) : Implied κ W u where
  kinds k hk := hsu.kinds k (h.kinds k hk)
  selects v hd hv := hsu.selects v hd (h.selects v hd hv)
  within q hq := hsu.within q (h.within q hq)

/-- A conjunction that was put off demands nothing itself. -/
theorem implied_conjunction (p : Pointer) (ids : List SchemaId) :
    Implied κ W (.conjunction p ids) where
  kinds k _ := by
    show KindSet.full.contains k = true
    exact KindSet.contains_ofPred _ k
  selects _ _ _ := by constructor <;> simp [Schema.conjunction, Schema.blank]
  within _ _ := by constructor <;> simp [Schema.conjunction, Schema.blank]

/-- What follows from a bundle that leaves something leaves something. -/
theorem Possible.viable (h : Possible κ W) (hs : Implied κ W s) : Viable s where
  value := by
    obtain ⟨v, hv, hall⟩ := h.value
    exact ⟨v, hv, hs.selects v hv hall⟩
  number hnumeric := by
    obtain ⟨q, hq⟩ := h.number fun k hk => (KindSet.isNumeric_iff.1 hnumeric).only k (hs.kinds k hk)
    exact ⟨q, hs.within q hq⟩

theorem OwnJoined.implied {L : Law Json.Distinct} {i : Nat} (h : OwnJoined L t s u own)
    (hs : s.Proper Json.Distinct i) (hu : u.Proper Json.Distinct i) (his : Implied κ W s)
    (hiu : Implied κ W u) : Implied κ W own where
  kinds k hk := by
    rw [kinds_of_ownJoined h, Option.getD_some, KindSet.contains_inter, his.kinds k hk,
      hiu.kinds k hk, Bool.and_self]
  selects v hv hall := (h.selects_iff hs hu hv).2 ⟨his.selects v hv hall, hiu.selects v hv hall⟩
  within q hq := h.within_iff.2 ⟨his.within q hq, hiu.within q hq⟩

/-- The name of a schema of the document is among those of the bundle, or the child schemas for the
    part are disputed. -/
def Known (κ : Contents) (ℓ : SchemaId → SchemaId) (a : Arena) (W : Set SchemaId) (f : Facet)
    (c : SchemaId) : Prop :=
  a.Raw c ∧ Voices κ W f (ℓ c) ∨ Disputes κ W f

/-- The normal form `n` follows from the bundle: so do its demands and one of its alternatives, and
    its parts follow from every bundle with the child schemas that are named for them. -/
inductive Backs (κ : Contents) (ℓ : SchemaId → SchemaId) (a : Arena) :
    Set SchemaId → SchemaId → Prop
  | mk {W : Set SchemaId} {n m : SchemaId} (hn : a.IsForm n) (implied : Implied κ W (a.schema n))
      (unrestricted : Unrestricted (a.schema n).extras)
      (known : ∀ f c, (a.schema n).childFor f = some c → Known κ ℓ a W f c)
      (raw : ∀ f c, (a.schema n).childFor f = some c → ∀ X, Tenable κ X →
        (∀ e, Voices κ W f e → e ∈ X) → ∀ o ∈ (a.operandsOf c).elements, a.Raw o → ℓ o ∈ X)
      (made : ∀ f c, (a.schema n).childFor f = some c → ∀ X, Tenable κ X →
        (∀ e, Voices κ W f e → e ∈ X) → ∀ o ∈ (a.operandsOf c).elements, ¬a.Raw o →
        Backs κ ℓ a X o)
      (branch : (a.schema n).anyOf ≠ [] → m ∈ (a.schema n).anyOf)
      (backed : (a.schema n).anyOf ≠ [] → Backs κ ℓ a W m) : Backs κ ℓ a W n

/-- What a schema stands for belongs to the bundle or follows from it. -/
structure Supports (κ : Contents) (ℓ : SchemaId → SchemaId) (a : Arena) (W : Set SchemaId)
    (x : SchemaId) : Prop where
  raw : ∀ o ∈ (a.operandsOf x).elements, a.Raw o → ℓ o ∈ W
  made : ∀ o ∈ (a.operandsOf x).elements, ¬a.Raw o → Backs κ ℓ a W o

/-- The demands of a schema and those on its parts follow from a bundle. -/
structure Grants (κ : Contents) (ℓ : SchemaId → SchemaId) (a : Arena) (W : Set SchemaId)
    (s : Schema) : Prop where
  implied : Implied κ W s
  unrestricted : Unrestricted s.extras
  known : ∀ f c, s.childFor f = some c → Known κ ℓ a W f c
  child : ∀ f c, s.childFor f = some c → ∀ X, Tenable κ X → (∀ e, Voices κ W f e → e ∈ X) →
    Supports κ ℓ a X c

theorem Backs.isForm (h : Backs κ ℓ a W n) : a.IsForm n := by
  cases h with
  | mk hn _ _ _ _ _ _ _ => exact hn

theorem Backs.grants (h : Backs κ ℓ a W n) : Grants κ ℓ a W (a.schema n) := by
  cases h with
  | mk _ implied unrestricted known raw made _ _ =>
      exact ⟨implied, unrestricted, known,
        fun f c hc X hX hvoices => ⟨raw f c hc X hX hvoices, made f c hc X hX hvoices⟩⟩

theorem Backs.branch (h : Backs κ ℓ a W n) (hany : (a.schema n).anyOf ≠ []) :
    ∃ m ∈ (a.schema n).anyOf, Backs κ ℓ a W m := by
  cases h with
  | mk _ _ _ _ _ _ branch backed => exact ⟨_, branch hany, backed hany⟩

theorem backs_of_grants (hn : a.IsForm n) (h : Grants κ ℓ a W (a.schema n))
    (hbranch : (a.schema n).anyOf ≠ [] → ∃ m ∈ (a.schema n).anyOf, Backs κ ℓ a W m) :
    Backs κ ℓ a W n := by
  by_cases hany : (a.schema n).anyOf = []
  · exact .mk (m := n) hn h.implied h.unrestricted h.known
      (fun f c hc X hX hvoices => (h.child f c hc X hX hvoices).raw)
      (fun f c hc X hX hvoices => (h.child f c hc X hX hvoices).made)
      (fun hne => absurd hany hne) fun hne => absurd hany hne
  · obtain ⟨m, hm, hback⟩ := hbranch hany
    exact .mk hn h.implied h.unrestricted h.known
      (fun f c hc X hX hvoices => (h.child f c hc X hX hvoices).raw)
      (fun f c hc X hX hvoices => (h.child f c hc X hX hvoices).made)
      (fun _ => hm) fun _ => hback

/-- Where demands and parts are the same, they follow from the same bundles. -/
theorem Grants.of_tighter (h : Grants κ ℓ a W s) (hsu : Tighter s u) (he : u.extras = s.extras)
    (hchild : ∀ f, u.childFor f = s.childFor f) : Grants κ ℓ a W u where
  implied := h.implied.of_tighter hsu
  unrestricted := he ▸ h.unrestricted
  known f c hc := h.known f c (hchild f ▸ hc)
  child f c hc := h.child f c (hchild f ▸ hc)

/-- A normal form with alternatives has one that follows from the bundle, and else it does so
    itself. -/
theorem Backs.side (h : Backs κ ℓ a W n) : ∃ l ∈ a.sides n, Backs κ ℓ a W l := by
  by_cases hany : (a.schema n).anyOf = []
  · exact ⟨n, mem_sides_self hany, h⟩
  · obtain ⟨m, hm, hback⟩ := h.branch hany
    refine ⟨m, ?_, hback⟩
    unfold sides
    rwa [if_neg (by simpa [List.isEmpty_iff] using hany)]

theorem mem_operandsOf_self (h : a.operands.get? x = none) :
    (a.operandsOf x).elements = [x] := by
  unfold operandsOf
  rw [h]
  rfl

/-- A normal form was not put off. -/
theorem operands_of_isForm (ha : a.WellFormed P) (hn : a.IsForm n) : a.operands.get? n = none := by
  cases hops : a.operands.get? n with
  | none => rfl
  | some os =>
      obtain ⟨-, p, hp⟩ := ha.operands n os hops
      have hkinds := (ha.normal n hn).1.kinds
      rw [hp] at hkinds
      exact absurd rfl hkinds

theorem Backs.supports (ha : a.WellFormed P) (h : Backs κ ℓ a W n) : Supports κ ℓ a W n := by
  have hself := mem_operandsOf_self (operands_of_isForm ha h.isForm)
  constructor
  · intro o ho hraw
    rw [hself, List.mem_singleton] at ho
    exact absurd (ho ▸ h.isForm) hraw.1
  · intro o ho _
    rw [hself, List.mem_singleton] at ho
    exact ho ▸ h

theorem Supports.backs (ha : a.WellFormed P) (h : Supports κ ℓ a W n) (hn : a.IsForm n) :
    Backs κ ℓ a W n := by
  have hself := mem_operandsOf_self (operands_of_isForm ha hn)
  exact h.made n (by simp [hself]) fun hraw => hraw.1 hn

theorem supports_of_raw (hx : a.Raw x) (h : ℓ x ∈ W) : Supports κ ℓ a W x := by
  have hself := mem_operandsOf_self hx.2
  constructor
  · intro o ho _
    rw [hself, List.mem_singleton] at ho
    exact ho ▸ h
  · intro o ho hraw
    rw [hself, List.mem_singleton] at ho
    exact absurd (ho ▸ hx) hraw

/-! ## Later arenas -/

/-- Every conjunction that was put off is one of different schemas. -/
def Several (a : Arena) : Prop :=
  ∀ x os, a.operands.get? x = some os → ∃ c ∈ os.elements, ∃ d ∈ os.elements, c ≠ d

/-- The schemas of the document have names of their own, under which they demand what is on
    record. -/
structure Recorded (κ : Contents) (ℓ : SchemaId → SchemaId) (a : Arena) : Prop where
  inj : ∀ x y, x < a.next → y < a.next → a.Raw x → a.Raw y → ℓ x = ℓ y → x = y
  content : ∀ x, x < a.next → a.Raw x → κ (ℓ x) = (a.schema x).rename ℓ

theorem several_of_grows (ha : a.WellFormed P) (h : Grows a b) (hb : b.Several) : a.Several :=
  fun x os hx => hb x os ((h.operands x (ha.operands x os hx).1).trans hx)

theorem Recorded.of_grows (h : Grows a b) (hb : Recorded κ ℓ b) : Recorded κ ℓ a where
  inj x y hx hy hrx hry := hb.inj x y (Nat.lt_of_lt_of_le hx h.next)
    (Nat.lt_of_lt_of_le hy h.next) ((h.raw_iff hx).2 hrx) ((h.raw_iff hy).2 hry)
  content x hx hraw := by
    rw [hb.content x (Nat.lt_of_lt_of_le hx h.next) ((h.raw_iff hx).2 hraw), h.schema x hx]

/-- Up to the number `i` the arenas have the same schemas, in the same state. -/
structure SameBelow (i : Nat) (a b : Arena) : Prop where
  schema : ∀ x < i, b.schema x = a.schema x
  raw : ∀ x < i, b.Raw x ↔ a.Raw x
  isForm : ∀ x < i, a.IsForm x → b.IsForm x
  operands : ∀ x < i, b.operandsOf x = a.operandsOf x
  links : ∀ x < i, ∀ c ∈ (a.schema x).links, c < i
  operands_lt : ∀ x < i, ∀ o ∈ (a.operandsOf x).elements, o < i

theorem sameBelow_of_grows (ha : a.WellFormed P) (h : Grows a b) : SameBelow a.next a b where
  schema := h.schema
  raw _ hx := h.raw_iff hx
  isForm _ _ := h.form
  operands _ hx := operandsOf_of_grows h hx
  links x _ := (ha.proper x).links
  operands_lt _ hx := operandsOf_lt ha hx

theorem sameBelow_of_grows' (ha : a.WellFormed P) (h : Grows a b) : SameBelow a.next b a where
  schema x hx := (h.schema x hx).symm
  raw _ hx := (h.raw_iff hx).symm
  isForm x hx := h.isForm x hx
  operands _ hx := (operandsOf_of_grows h hx).symm
  links x hx c hc := (ha.proper x).links c (h.schema x hx ▸ hc)
  operands_lt _ hx o ho := operandsOf_lt ha hx o (operandsOf_of_grows h hx ▸ ho)

/-- What follows from a bundle follows from it wherever the schemas up to it are the same. -/
theorem Backs.transfer {i : Nat} (h : SameBelow i a b) (hlt : n < i) (hn : Backs κ ℓ a W n) :
    Backs κ ℓ b W n := by
  induction hn with
  | @mk W n m hn implied unrestricted known raw made branch _ ihmade ihbacked =>
      have hs := h.schema n hlt
      have hchild : ∀ {f c}, (a.schema n).childFor f = some c → c < i := fun hc =>
        h.links n hlt _ (mem_links_of_childFor hc)
      refine backs_of_grants (h.isForm n hlt hn) ⟨hs ▸ implied, hs ▸ unrestricted, ?_, ?_⟩ ?_
      · intro f c hc
        rw [hs] at hc
        exact (known f c hc).imp_left (.imp_left (h.raw c (hchild hc)).2)
      · intro f c hc X hX hvoices
        rw [hs] at hc
        have ho : ∀ {o}, o ∈ (b.operandsOf c).elements → o ∈ (a.operandsOf c).elements ∧ o < i :=
          fun ho => by
            rw [h.operands c (hchild hc)] at ho
            exact ⟨ho, h.operands_lt c (hchild hc) _ ho⟩
        constructor
        · intro o hmem hraw
          obtain ⟨hmem, hlt⟩ := ho hmem
          exact raw f c hc X hX hvoices o hmem ((h.raw o hlt).1 hraw)
        · intro o hmem hraw
          obtain ⟨hmem, hlt⟩ := ho hmem
          exact ihmade f c hc X hX hvoices o hmem (fun hr => hraw ((h.raw o hlt).2 hr)) hlt
      · intro hany
        rw [hs] at hany ⊢
        have hm := branch hany
        exact ⟨m, hm, ihbacked hany
          (h.links n hlt m (Member.link (x := n) (by simp [Member, Schema.members, hm])))⟩

theorem backs_iff (ha : a.WellFormed P) (h : Grows a b) (hn : n < a.next) :
    Backs κ ℓ b W n ↔ Backs κ ℓ a W n :=
  ⟨.transfer (sameBelow_of_grows' ha h) hn, .transfer (sameBelow_of_grows ha h) hn⟩

theorem Supports.of_grows (ha : a.WellFormed P) (h : Grows a b) (hx : x < a.next)
    (hs : Supports κ ℓ b W x) : Supports κ ℓ a W x where
  raw o ho hraw := by
    have hlt := operandsOf_lt ha hx o ho
    rw [← operandsOf_of_grows h hx] at ho
    exact hs.raw o ho ((h.raw_iff hlt).2 hraw)
  made o ho hraw := by
    have hlt := operandsOf_lt ha hx o ho
    rw [← operandsOf_of_grows h hx] at ho
    exact (backs_iff ha h hlt).1 (hs.made o ho fun hr => hraw ((h.raw_iff hlt).1 hr))

/-! ## The law -/

/-- The answer for what follows from a sound bundle is a normal form that does. -/
def Grounded (κ : Contents) (ℓ : SchemaId → SchemaId) (a : Arena) (W : Set SchemaId)
    (r : Option SchemaId) : Prop :=
  ∃ n, r = some n ∧ Backs κ ℓ a W n

theorem Grounded.mono (ha : a.WellFormed P) (h : Grows a b) (hr : Grounded κ ℓ a W r) :
    Grounded κ ℓ b W r := by
  obtain ⟨n, rfl, hn⟩ := hr
  exact ⟨n, rfl, (backs_iff ha h (ha.isForm_lt hn.isForm)).2 hn⟩

/-- Where names and conjunctions put off are as they should be, whatever follows from a sound bundle
    has a normal form that does, and so has a conjunction of two such. -/
def grounding (κ : Contents) (ℓ : SchemaId → SchemaId) : Law Json.Distinct where
  form a id r := a.Several → Recorded κ ℓ a → ∀ W, Tenable κ W → Supports κ ℓ a W id →
    Grounded κ ℓ a W r
  both a x y r := a.Several → Recorded κ ℓ a → ∀ W, Tenable κ W → Backs κ ℓ a W x →
    Backs κ ℓ a W y → Grounded κ ℓ a W r
  form_mono ha _ h hid _ hlaw hseveral hrec W hW hs :=
    (hlaw (several_of_grows ha h hseveral) (hrec.of_grows h) W hW (hs.of_grows ha h hid)).mono ha h
  both_mono ha _ h hx hy _ hlaw hseveral hrec W hW hbx hby :=
    (hlaw (several_of_grows ha h hseveral) (hrec.of_grows h) W hW
      ((backs_iff ha h (ha.isForm_lt hx)).1 hbx)
      ((backs_iff ha h (ha.isForm_lt hy)).1 hby)).mono ha h
  form_self ha hn _ _ _ _ hs := ⟨_, rfl, hs.backs ha hn⟩
  both_self _ _ _ _ _ _ hx _ := ⟨_, rfl, hx⟩

/-- Different child schemas for a part are a dispute. -/
theorem disputes_of_ne (hrec : Recorded κ ℓ t) (hc : Known κ ℓ t W f c) (hd : Known κ ℓ t W f d)
    (hltc : c < t.next) (hltd : d < t.next) (hne : c ≠ d) : Disputes κ W f := by
  rcases hc with ⟨hrawc, hvc⟩ | hdispute
  · rcases hd with ⟨hrawd, hvd⟩ | hdispute
    · exact ⟨_, _, hvc, hvd, fun h => hne (hrec.inj c d hltc hltd hrawc hrawd h)⟩
    · exact hdispute
  · exact hdispute

section Law

variable (ht : t.Lawful (grounding κ ℓ)) (hseveral : t.Several) (hrec : Recorded κ ℓ t)
include ht hseveral hrec

/-- What follows from a tenable bundle has a normal form that does. -/
theorem grounded_of_done (hdone : t.progress.get? x = some (.done r)) (hW : Tenable κ W)
    (hx : Supports κ ℓ t W x) : Grounded κ ℓ t W r :=
  ht.forms x r hdone hseveral hrec W hW hx

/-- The conjunction of two schemas that follow from a tenable bundle. -/
theorem Joined.grounded (hj : Joined (grounding κ ℓ) t x y r) (hW : Tenable κ W)
    (hx : Supports κ ℓ t W x) (hy : Supports κ ℓ t W y) : Grounded κ ℓ t W r := by
  cases hj with
  | left hnone =>
      obtain ⟨_, hsome, -⟩ := grounded_of_done ht hseveral hrec hnone hW hx
      cases hsome
  | right _ hnone =>
      obtain ⟨_, hsome, -⟩ := grounded_of_done ht hseveral hrec hnone hW hy
      cases hsome
  | forms hnx hny _ _ hlaw =>
      obtain ⟨_, heq, hbx⟩ := grounded_of_done ht hseveral hrec hnx hW hx
      cases heq
      obtain ⟨_, heq, hby⟩ := grounded_of_done ht hseveral hrec hny hW hy
      cases heq
      exact hlaw hseveral hrec W hW hbx hby

/-! ### Child schemas -/

/-- Two child schemas for one part have a conjunction, which follows from the same bundles. -/
theorem ChildJoined.grounded (hj : ChildJoined (grounding κ ℓ) t c d r) (hW : Tenable κ W)
    (hltc : c < t.next) (hltd : d < t.next) (hc : Known κ ℓ t W f c) (hd : Known κ ℓ t W f d)
    (hsc : ∀ X, Tenable κ X → (∀ e, Voices κ W f e → e ∈ X) → Supports κ ℓ t X c)
    (hsd : ∀ X, Tenable κ X → (∀ e, Voices κ W f e → e ∈ X) → Supports κ ℓ t X d) :
    ∃ z, r = some z ∧ Known κ ℓ t W f z ∧
      ∀ X, Tenable κ X → (∀ e, Voices κ W f e → e ∈ X) → Supports κ ℓ t X z := by
  have hwf := ht.toWellFormed
  have hdispute : c ≠ d → Disputes κ W f := disputes_of_ne hrec hc hd hltc hltd
  have hunion : ∀ {X}, Tenable κ X → (∀ e, Voices κ W f e → e ∈ X) →
      ∀ {o}, o ∈ ((t.operandsOf c).union (t.operandsOf d)).elements →
        (t.Raw o → ℓ o ∈ X) ∧ (¬t.Raw o → Backs κ ℓ t X o) := by
    intro X hX hvoices o ho
    rcases SortedSet.mem_union.1 ho with ho | ho
    · exact ⟨(hsc X hX hvoices).raw o ho, (hsc X hX hvoices).made o ho⟩
    · exact ⟨(hsd X hX hvoices).raw o ho, (hsd X hX hvoices).made o ho⟩
  cases hj with
  | same _ => exact ⟨c, rfl, hc, hsc⟩
  | @single z hz =>
      have hmem : z ∈ ((t.operandsOf c).union (t.operandsOf d)).elements := by simp [hz]
      have hops : t.operands.get? z = none := (SortedSet.mem_union.1 hmem).elim
        (operands_of_mem_operandsOf hwf) (operands_of_mem_operandsOf hwf)
      have hself := mem_operandsOf_self hops
      refine ⟨z, rfl, ?_, fun X hX hvoices => ⟨?_, ?_⟩⟩
      · by_cases hne : c = d
        · -- a single operand of `c` is `c` itself, as a conjunction put off has several
          subst hne
          cases hopsc : t.operands.get? c with
          | none =>
              have hcz : c ∈ ((t.operandsOf c).union (t.operandsOf c)).elements :=
                SortedSet.mem_union.2 (.inl (by simp [mem_operandsOf_self hopsc]))
              rw [hz, List.mem_singleton] at hcz
              exact hcz ▸ hc
          | some os => exact hc.elim (fun h => by cases h.1.2.symm.trans hopsc) .inr
        · exact .inr (hdispute hne)
      · intro o ho hraw
        rw [hself, List.mem_singleton] at ho
        exact (hunion hX hvoices (ho ▸ hmem)).1 hraw
      · intro o ho hraw
        rw [hself, List.mem_singleton] at ho
        exact (hunion hX hvoices (ho ▸ hmem)).2 hraw
  | @putOff z hz =>
      have hops : t.operandsOf z = (t.operandsOf c).union (t.operandsOf d) := by
        unfold operandsOf at hz ⊢
        rw [hz, Option.getD_some]
      refine ⟨z, rfl, .inr ?_, fun X hX hvoices => ⟨?_, ?_⟩⟩
      · by_cases hne : c = d
        · subst hne
          -- several operands cannot be those of one schema of the document
          refine hc.resolve_left ?_
          rintro ⟨hraw, -⟩
          have hself : ∀ e ∈ ((t.operandsOf c).union (t.operandsOf c)).elements, e = c :=
            fun e he => by
              have he := (SortedSet.mem_union.1 he).elim id id
              rwa [mem_operandsOf_self hraw.2, List.mem_singleton] at he
          obtain ⟨e, he, e', he', hee'⟩ := hseveral z _ hz
          exact hee' ((hself e he).trans (hself e' he').symm)
        · exact hdispute hne
      · intro o ho
        exact (hunion hX hvoices (hops ▸ ho)).1
      · intro o ho
        exact (hunion hX hvoices (hops ▸ ho)).2
  | unmatched hne hfc hfd hnone =>
      obtain ⟨X, hX, hvoices⟩ := hW.exists_part (hdispute hne)
      obtain ⟨_, rfl, -⟩ := grounded_of_done ht hseveral hrec hfc hX (hsc X hX hvoices)
      obtain ⟨_, rfl, -⟩ := grounded_of_done ht hseveral hrec hfd hX (hsd X hX hvoices)
      rcases hnone with h | h <;> cases h
  | @joined nc nd r hne hnc hnd hr =>
      have hback : ∀ X, Tenable κ X → (∀ e, Voices κ W f e → e ∈ X) → Grounded κ ℓ t X r := by
        intro X hX hvoices
        obtain ⟨_, heq, hbc⟩ := grounded_of_done ht hseveral hrec hnc hX (hsc X hX hvoices)
        cases heq
        obtain ⟨_, heq, hbd⟩ := grounded_of_done ht hseveral hrec hnd hX (hsd X hX hvoices)
        cases heq
        exact hr.grounded ht hseveral hrec hX (hbc.supports hwf) (hbd.supports hwf)
      obtain ⟨X, hX, hvoices⟩ := hW.exists_part (hdispute hne)
      obtain ⟨n, rfl, -⟩ := hback X hX hvoices
      refine ⟨_, rfl, .inr (hdispute hne), fun X hX hvoices => ?_⟩
      dsimp only
      split
      · exact hsc X hX hvoices
      · split
        · exact hsd X hX hvoices
        · obtain ⟨_, heq, hn⟩ := hback X hX hvoices
          cases heq
          exact hn.supports hwf

/-- Child schemas of two normal forms that follow from a tenable bundle have a conjunction. -/
theorem ne_none_of_childJoined (hW : Tenable κ W) (hx : Grants κ ℓ t W (t.schema x))
    (hy : Grants κ ℓ t W (t.schema y)) (hc : (t.schema x).childFor f = some c)
    (hd : (t.schema y).childFor f = some d) (hj : ChildJoined (grounding κ ℓ) t c d r) :
    r ≠ none := by
  obtain ⟨z, rfl, -⟩ := hj.grounded ht hseveral hrec hW
    ((ht.proper x).links c (mem_links_of_childFor hc))
    ((ht.proper y).links d (mem_links_of_childFor hd)) (hx.known f c hc) (hy.known f d hd)
    (hx.child f c hc) (hy.child f d hd)
  simp

/-- What two normal forms demand together follows from the bundle, if both do. -/
theorem OwnJoined.grants (hown : OwnJoined (grounding κ ℓ) t (t.schema x) (t.schema y) own)
    (hW : Tenable κ W) (hx : Grants κ ℓ t W (t.schema x)) (hy : Grants κ ℓ t W (t.schema y)) :
    Grants κ ℓ t W own := by
  have hjoined : ∀ f z, own.childFor f = some z → Known κ ℓ t W f z ∧
      ∀ X, Tenable κ X → (∀ e, Voices κ W f e → e ∈ X) → Supports κ ℓ t X z := by
    intro f z hz
    cases hown.facet hx.unrestricted hy.unrestricted hz with
    | left hc _ => exact ⟨hx.known f z hc, hx.child f z hc⟩
    | right _ hd => exact ⟨hy.known f z hd, hy.child f z hd⟩
    | both hc hd hj =>
        obtain ⟨_, heq, hknown, hchild⟩ := hj.grounded ht hseveral hrec hW
          ((ht.proper x).links _ (mem_links_of_childFor hc))
          ((ht.proper y).links _ (mem_links_of_childFor hd)) (hx.known f _ hc) (hy.known f _ hd)
          (hx.child f _ hc) (hy.child f _ hd)
        cases heq
        exact ⟨hknown, hchild⟩
  exact ⟨hown.implied (ht.proper x) (ht.proper y) hx.implied hy.implied,
    hown.unrestricted hx.unrestricted hy.unrestricted, fun f z hz => (hjoined f z hz).1,
    fun f z hz => (hjoined f z hz).2⟩

/-! ### Conjunctions -/

omit ht hseveral hrec in
/-- What follows from a tenable bundle is stored, as it leaves something. -/
theorem Stored.grounded (hj : Stored t s r) (hW : Tenable κ W) {i : Nat}
    (hproper : s.Proper Json.Distinct i) (hs : Grants κ ℓ t W s)
    (hbranch : s.anyOf ≠ [] → ∃ m ∈ s.anyOf, Backs κ ℓ t W m) : Grounded κ ℓ t W r := by
  cases hj with
  | bottom hbottom =>
      have hviable := (isBottom_trimValues_iff hproper).2 (hW.possible.viable hs.implied)
      cases hviable.symm.trans hbottom
  | @stored n _ hn hschema =>
      obtain ⟨vs, hvs, -⟩ := trimValues_eq s
      refine ⟨n, rfl, backs_of_grants hn ?_ ?_⟩
      · rw [hschema]
        refine hs.of_tighter tighter_trimValues.2 ?_ fun f => childFor_trimValues
        rw [hvs]
      · rw [hschema, hvs]
        exact hbranch

/-- Some branch of a conjunction follows from a tenable bundle, if both sides do. -/
theorem Crossed.exists_backs {left right : List SchemaId}
    (hj : Crossed (grounding κ ℓ) t left right bs) (hW : Tenable κ W)
    (hl : ∃ l ∈ left, Supports κ ℓ t W l) (hr : ∃ l ∈ right, Supports κ ℓ t W l) :
    ∃ c ∈ bs, Backs κ ℓ t W c := by
  obtain ⟨l, hl, hsl⟩ := hl
  obtain ⟨r, hr, hsr⟩ := hr
  obtain ⟨o, ho, hmem⟩ := hj.complete l hl r hr
  obtain ⟨c, rfl, hc⟩ := ho.grounded ht hseveral hrec hW hsl hsr
  exact ⟨c, hmem c rfl, hc⟩

theorem grounded_of_bothJoined (hj : BothJoined (grounding κ ℓ) t x y r) (hW : Tenable κ W)
    (hx : Backs κ ℓ t W x) (hy : Backs κ ℓ t W y) : Grounded κ ℓ t W r := by
  have hwf := ht.toWellFormed
  have hgx := hx.grants
  have hgy := hy.grants
  have hsides : ∀ {x}, Backs κ ℓ t W x → ∃ l ∈ t.sides x, Supports κ ℓ t W l := fun hx => by
    obtain ⟨l, hl, hback⟩ := hx.side
    exact ⟨l, hl, hback.supports hwf⟩
  -- an operand is taken as it is, and other demands are stored
  have hreused : ∀ {own bs}, OwnJoined (grounding κ ℓ) t (t.schema x) (t.schema y) own →
      (∀ c ∈ bs, t.IsForm c) → (bs ≠ [] → ∃ m ∈ bs, Backs κ ℓ t W m) →
      Reused t x y { own with anyOf := bs } r → Grounded κ ℓ t W r := by
    intro own bs hown hforms hbranch hr
    cases hr with
    | left _ => exact ⟨x, rfl, hx⟩
    | right _ _ => exact ⟨y, rfl, hy⟩
    | stored hs _ =>
        have hproper := hown.proper hwf (ht.proper x) (ht.proper y)
          fun c hc => hwf.isForm_lt (hforms c hc)
        refine hs.grounded hW hproper ?_ hbranch
        have hown := hown.grants ht hseveral hrec hW hgx hgy
        exact hown.of_tighter (tighter_branches own own.pointer bs).2 rfl
          fun f => childFor_branches
  cases hj with
  | rightFree _ => exact ⟨x, rfl, hx⟩
  | leftFree _ _ => exact ⟨y, rfl, hy⟩
  | itemsClash h _ =>
      obtain ⟨c, d, hc, hd, hz⟩ := h.clash
      exact absurd rfl (ne_none_of_childJoined ht hseveral hrec hW hgx hgy hc hd hz)
  | propertyClash _ h _ =>
      obtain ⟨c, d, hc, hd, hz⟩ := h.clash hgx.unrestricted hgy.unrestricted
      exact absurd rfl (ne_none_of_childJoined ht hseveral hrec hW hgx hgy hc hd hz)
  | @plain own _ hown _ _ hr _ _ =>
      have hnil : ({ own with anyOf := [] } : Schema) = own := by rw [← hown.anyOf]
      rw [← hnil] at hr
      exact hreused hown (by simp) (by simp) hr
  | noBranch _ hbs _ =>
      obtain ⟨c, hc, -⟩ := hbs.exists_backs ht hseveral hrec hW (hsides hx) (hsides hy)
      cases hc
  | oneBranch _ hbs _ _ =>
      obtain ⟨c, hc, hback⟩ := hbs.exists_backs ht hseveral hrec hW (hsides hx) (hsides hy)
      exact ⟨c, congrArg some (List.mem_singleton.1 hc).symm, hback⟩
  | branches _ hown hbs _ hr _ =>
      have hbranch := hbs.exists_backs ht hseveral hrec hW (hsides hx) (hsides hy)
      exact hreused hown hbs.isForm (fun _ => hbranch) hr

/-! ### Normal forms -/

theorem AllJoined.grounded {own : SchemaId} {ms : List SchemaId}
    (hj : AllJoined (grounding κ ℓ) t own ms r) (hW : Tenable κ W) (hown : Backs κ ℓ t W own)
    (hms : ∀ m ∈ ms, Supports κ ℓ t W m) : Grounded κ ℓ t W r := by
  have hstep : ∀ {own m o}, Joined (grounding κ ℓ) t own m o → Backs κ ℓ t W own →
      Supports κ ℓ t W m → Grounded κ ℓ t W o := fun hj hown hm =>
    hj.grounded ht hseveral hrec hW (hown.supports ht.toWellFormed) hm
  induction hj with
  | nil => exact ⟨_, rfl, hown⟩
  | clash h =>
      obtain ⟨_, hsome, -⟩ := hstep h hown (hms _ (by simp))
      cases hsome
  | cons h _ ih =>
      obtain ⟨_, heq, hn⟩ := hstep h hown (hms _ (by simp))
      cases heq
      exact ih hn fun m hm => hms m (by simp [hm])

/-- What a schema demands, its members included, follows from the bundle. -/
structure Entailed (κ : Contents) (ℓ : SchemaId → SchemaId) (a : Arena) (W : Set SchemaId)
    (s : Schema) : Prop extends Grants κ ℓ a W s where
  allOf : ∀ m ∈ s.allOf, Supports κ ℓ a W m
  anyOf : s.anyOf ≠ [] → ∃ m ∈ s.anyOf, Supports κ ℓ a W m
  oneOf : s.oneOf ≠ [] → ∃ m ∈ s.oneOf, Supports κ ℓ a W m

omit ht hseveral in
/-- A schema of the document demands what is on record, and refers to such schemas. -/
theorem entailed_of_raw (hwf : t.WellFormed P) (hlt : x < t.next) (hraw : t.Raw x)
    (hW : Tenable κ W) (hmem : ℓ x ∈ W) : Entailed κ ℓ t W (t.schema x) := by
  have hcontent := hrec.content x hlt hraw
  have hkeep : ∀ {β : Type} (g : Schema → β), (∀ s, g (Schema.rename ℓ s) = g s) →
      g (κ (ℓ x)) = g (t.schema x) := fun g hg => by rw [hcontent, hg]
  have hvoice : ∀ {f c}, (t.schema x).childFor f = some c → Voices κ W f (ℓ c) := fun hc =>
    ⟨ℓ x, hmem, by rw [hcontent, childFor_rename, hc, Option.map_some]⟩
  have hchild : ∀ {f c}, (t.schema x).childFor f = some c → t.Raw c := fun hc =>
    hwf.raw x _ hraw (mem_links_of_childFor hc)
  have hmember : ∀ {m}, m ∈ (t.schema x).members → ℓ m ∈ W → Supports κ ℓ t W m := fun hm =>
    supports_of_raw (hwf.raw x _ hraw (Member.link hm))
  -- one of a group of members, as the bundle has it
  have hgroup : ∀ {ms : List SchemaId}, (∀ m ∈ ms, m ∈ (t.schema x).members) →
      (∃ m ∈ ms.map ℓ, m ∈ W) → ∃ m ∈ ms, Supports κ ℓ t W m := by
    rintro ms hms ⟨_, hmap, hmW⟩
    obtain ⟨m, hm, rfl⟩ := List.mem_map.1 hmap
    exact ⟨m, hm, hmember (hms m hm) hmW⟩
  refine ⟨⟨⟨fun k hk => ?_, fun v hv hall => ?_, fun q hq => ?_⟩, ?_,
    fun f c hc => .inl ⟨hchild hc, hvoice hc⟩,
    fun f c hc X _ hvoices => supports_of_raw (hchild hc) (hvoices _ (hvoice hc))⟩, ?_, ?_, ?_⟩
  · rw [← hkeep Schema.kinds fun _ => rfl]
    exact hk _ hmem
  · have hsel := hall _ hmem
    exact ⟨hkeep Schema.kinds (fun _ => rfl) ▸ hsel.kinds,
      hkeep Schema.values (fun _ => rfl) ▸ hsel.values⟩
  · have hwithin := hq _ hmem
    exact ⟨hkeep Schema.gt (fun _ => rfl) ▸ hwithin.gt,
      hkeep Schema.ge (fun _ => rfl) ▸ hwithin.ge,
      hkeep Schema.lt (fun _ => rfl) ▸ hwithin.lt, hkeep Schema.le (fun _ => rfl) ▸ hwithin.le⟩
  · rw [← unrestricted_rename ℓ, ← hcontent]
    exact hW.unrestricted _ hmem
  · intro m hm
    refine hmember (by simp [Schema.members, hm]) (hW.allOf _ hmem _ ?_)
    rw [hcontent]
    exact List.mem_map.2 ⟨m, hm, rfl⟩
  · intro hany
    refine hgroup (fun m hm => by simp [Schema.members, hm]) ?_
    have hgroup := hW.anyOf _ hmem
    rw [hcontent] at hgroup
    exact hgroup (by simpa [Schema.rename] using hany)
  · intro hone
    refine hgroup (fun m hm => by simp [Schema.members, hm]) ?_
    have hgroup := hW.oneOf _ hmem
    rw [hcontent] at hgroup
    exact hgroup (by simpa [Schema.rename] using hone)

omit ht hseveral hrec in
/-- A conjunction put off demands its operands, which were not put off themselves. -/
theorem entailed_of_putOff (hwf : t.WellFormed P) {os : SortedSet SchemaId}
    (hops : t.operands.get? x = some os) (h : Supports κ ℓ t W x) :
    Entailed κ ℓ t W (t.schema x) := by
  obtain ⟨-, p, hp⟩ := hwf.operands x os hops
  have hos : t.operandsOf x = os := by
    unfold operandsOf
    rw [hops, Option.getD_some]
  rw [hp]
  refine ⟨⟨implied_conjunction p _, .inl rfl, fun f c hc => ?_, fun f c hc => ?_⟩,
    fun m hm => ?_, fun hne => absurd rfl hne, fun hne => absurd rfl hne⟩
  · cases childFor_conjunction.symm.trans hc
  · cases childFor_conjunction.symm.trans hc
  · have hself := mem_operandsOf_self (hwf.flat x os hops m hm)
    constructor
    · intro o ho
      rw [hself, List.mem_singleton] at ho
      exact ho ▸ h.raw m (hos ▸ hm)
    · intro o ho
      rw [hself, List.mem_singleton] at ho
      exact ho ▸ h.made m (hos ▸ hm)

omit ht hseveral hrec in
/-- A normal form has no members besides its alternatives. -/
theorem Backs.entailed (hwf : t.WellFormed P) (h : Backs κ ℓ t W x) :
    Entailed κ ℓ t W (t.schema x) where
  toGrants := h.grants
  allOf := by
    rw [(hwf.normal x h.isForm).1.allOf]
    simp
  anyOf hany := by
    obtain ⟨m, hm, hback⟩ := h.branch hany
    exact ⟨m, hm, hback.supports hwf⟩
  oneOf hne := absurd (hwf.normal x h.isForm).1.oneOf hne

omit ht hseveral in
theorem entailed_of_supports (hwf : t.WellFormed P) (hlt : x < t.next) (hW : Tenable κ W)
    (h : Supports κ ℓ t W x) : Entailed κ ℓ t W (t.schema x) := by
  cases hops : t.operands.get? x with
  | some os => exact entailed_of_putOff hwf hops h
  | none =>
      have hself : x ∈ (t.operandsOf x).elements := by simp [mem_operandsOf_self hops]
      by_cases hraw : t.Raw x
      · exact entailed_of_raw hrec hwf hlt hraw hW (h.raw x hself hraw)
      · exact (h.made x hself hraw).entailed hwf

omit ht hseveral hrec in
/-- What the bundle leaves is not plainly nothing. -/
theorem isBottom_of_viable (h : Viable s) : s.isBottom = false := by
  obtain ⟨v, -, hv⟩ := h.value
  simp only [Schema.isBottom, Bool.or_eq_false_iff]
  refine ⟨⟨?_, ?_⟩, exists_within_iff.2 h.number⟩
  · cases hks : s.kinds with
    | none => rfl
    | some ks => exact KindSet.isEmpty_of_accepts (hv.kinds ks hks)
  · cases hvs : s.values with
    | none => rfl
    | some vs =>
        obtain ⟨w, hw, -⟩ := hv.values vs hvs
        exact List.isEmpty_eq_false_iff.2 (List.ne_nil_of_mem hw)

omit ht hseveral hrec in
theorem Entailed.soleChild (h : Entailed κ ℓ t W s) (hc : s.soleChild? = some c) :
    Supports κ ℓ t W c := by
  have hgroup : ∀ {ms}, ms = [c] → (ms ≠ [] → ∃ m ∈ ms, Supports κ ℓ t W m) →
      Supports κ ℓ t W c := by
    rintro ms rfl hms
    obtain ⟨m, hm, hsupport⟩ := hms (by simp)
    exact List.mem_singleton.1 hm ▸ hsupport
  rcases (Schema.soleChild?_spec hc).2 with ⟨hall, -, -⟩ | ⟨-, hany, -⟩ | ⟨-, -, hone⟩
  · exact h.allOf c (by simp [hall])
  · exact hgroup hany h.anyOf
  · exact hgroup hone h.oneOf

theorem Narrowed.grounded (hj : Narrowed (grounding κ ℓ) t s c r) (hW : Tenable κ W)
    (hs : Entailed κ ℓ t W s) (hproper : s.Proper Json.Distinct t.next)
    (hc : s.soleChild? = some c) : Grounded κ ℓ t W r := by
  have hchild := hs.soleChild hc
  have hkinds : ∀ {ks}, s.kinds = some ks → Grants κ ℓ t W (kindsAlone s.pointer ks) := by
    intro ks hks
    refine ⟨⟨fun k hk => ?_, fun v hv hall => ⟨?_, by simp [kindsAlone, Schema.blank]⟩,
      fun q _ => by constructor <;> simp [kindsAlone, Schema.blank]⟩, .inl rfl,
      fun f c hc => ?_, fun f c hc => ?_⟩
    · have hmem := hs.implied.kinds k hk
      rwa [hks] at hmem
    · rintro _ ⟨⟩
      exact (hs.implied.selects v hv hall).kinds ks hks
    · cases childFor_kindsAlone.symm.trans hc
    · cases childFor_kindsAlone.symm.trans hc
  have hstored : ∀ {ks o}, s.kinds = some ks → Stored t (kindsAlone s.pointer ks) o →
      Grounded κ ℓ t W o := fun hks hstored =>
    hstored.grounded hW
      (storable_kindsAlone (a := t) s.pointer (hproper.kinds _ hks)).proper (hkinds hks)
      fun hne => absurd rfl hne
  cases hj with
  | unmatched hnone =>
      obtain ⟨_, hsome, -⟩ := grounded_of_done ht hseveral hrec hnone hW hchild
      cases hsome
  | anyKind hdone _ => exact grounded_of_done ht hseveral hrec hdone hW hchild
  | noKind _ hks hnone =>
      obtain ⟨_, hsome, -⟩ := hstored hks hnone
      cases hsome
  | kinds hdone hks hs hj =>
      obtain ⟨_, heq, hn⟩ := grounded_of_done ht hseveral hrec hdone hW hchild
      cases heq
      obtain ⟨_, heq, hm⟩ := hstored hks hs
      cases heq
      exact hj.grounded ht hseveral hrec hW (hn.supports ht.toWellFormed)
        (hm.supports ht.toWellFormed)

omit ht hseveral hrec in
/-- Branches one of which follows from the bundle, with demands that do. -/
theorem Gathered.grounded {own : SchemaId} (hwf : t.WellFormed Json.Distinct)
    (hj : Gathered t s own bs r) (hW : Tenable κ W) (hown : Backs κ ℓ t W own)
    (hforms : ∀ c ∈ bs, t.IsForm c) (hbs : ∃ c ∈ bs, Backs κ ℓ t W c) : Grounded κ ℓ t W r := by
  cases hj with
  | none hnil =>
      obtain ⟨c, hc, -⟩ := hbs
      rw [hnil] at hc
      cases hc
  | one hone =>
      obtain ⟨c, hc, hback⟩ := hbs
      rw [hone, List.mem_singleton] at hc
      exact ⟨_, rfl, hc ▸ hback⟩
  | many hlen hs =>
      have hstorable := storable_branches hwf hown.isForm hforms (Nat.ne_of_gt hlen) s.pointer
      refine hs.grounded hW hstorable.proper ?_ fun _ => hbs
      exact hown.grants.of_tighter (tighter_branches _ _ _).2 rfl fun f => childFor_branches

theorem AlternativesJoined.grounded {own : SchemaId}
    (hj : AlternativesJoined (grounding κ ℓ) t s own r) (hW : Tenable κ W)
    (hs : Entailed κ ℓ t W s) (hown : Backs κ ℓ t W own) : Grounded κ ℓ t W r := by
  have hwf := ht.toWellFormed
  have hself : ∃ l ∈ [own], Supports κ ℓ t W l := ⟨own, by simp, hown.supports hwf⟩
  have hgroup : ∀ {ms bs}, Crossed (grounding κ ℓ) t ms [own] bs →
      (∃ m ∈ ms, Supports κ ℓ t W m) → ∃ c ∈ bs, Backs κ ℓ t W c := fun hbs hms =>
    hbs.exists_backs ht hseveral hrec hW hms hself
  cases hj with
  | neither _ _ => exact ⟨own, rfl, hown⟩
  | anyClash hany hbs =>
      obtain ⟨c, hc, -⟩ := hgroup hbs (hs.anyOf hany)
      cases hc
  | oneClash hone hbs =>
      obtain ⟨c, hc, -⟩ := hgroup hbs (hs.oneOf hone)
      cases hc
  | any hany _ hbs hg => exact hg.grounded hwf hW hown hbs.isForm (hgroup hbs (hs.anyOf hany))
  | one _ hone hbs hg => exact hg.grounded hwf hW hown hbs.isForm (hgroup hbs (hs.oneOf hone))
  | both hany hone has hos hbs hg =>
      obtain ⟨c, hc, hbackc⟩ := hgroup has (hs.anyOf hany)
      obtain ⟨d, hd, hbackd⟩ := hgroup hos (hs.oneOf hone)
      exact hg.grounded hwf hW hown hbs.isForm (hbs.exists_backs ht hseveral hrec hW
        ⟨c, hc, hbackc.supports hwf⟩ ⟨d, hd, hbackd.supports hwf⟩)

theorem grounded_of_formJoined (hj : FormJoined (grounding κ ℓ) t s r) (hW : Tenable κ W)
    (hs : Entailed κ ℓ t W s) (hproper : s.Proper Json.Distinct t.next) : Grounded κ ℓ t W r := by
  have hbase : ∀ {o}, Stored t (baseOf s) o → Grounded κ ℓ t W o := fun hstored =>
    hstored.grounded hW (storable_baseOf (a := t) hproper).proper
      (hs.toGrants.of_tighter tighter_baseOf.2 rfl fun f => childFor_baseOf)
      fun hne => absurd rfl hne
  cases hj with
  | bottom hbottom =>
      cases (isBottom_of_viable (hW.possible.viable hs.implied)).symm.trans hbottom
  | narrowed hc hj => exact hj.grounded ht hseveral hrec hW hs hproper hc
  | noBase _ hnone =>
      obtain ⟨_, hsome, -⟩ := hbase hnone
      cases hsome
  | allClash _ hstored hall =>
      obtain ⟨_, heq, hback⟩ := hbase hstored
      cases heq
      obtain ⟨_, hsome, -⟩ := hall.grounded ht hseveral hrec hW hback hs.allOf
      cases hsome
  | alternatives _ hstored hall halt =>
      obtain ⟨_, heq, hback⟩ := hbase hstored
      cases heq
      obtain ⟨_, heq, hown⟩ := hall.grounded ht hseveral hrec hW hback hs.allOf
      cases heq
      exact halt.grounded ht hseveral hrec hW hs hown

end Law

theorem upheld_grounding (κ : Contents) (ℓ : SchemaId → SchemaId) :
    Upheld (grounding κ ℓ) where
  form ht hlt hj hseveral hrec _ hW hs :=
    grounded_of_formJoined ht hseveral hrec hj hW (entailed_of_supports hrec ht.toWellFormed hlt hW hs)
      (ht.proper _)
  both ht _ _ _ hj hseveral hrec _ hW hx hy :=
    grounded_of_bothJoined ht hseveral hrec hj hW hx hy

end ApiModel.Arena
