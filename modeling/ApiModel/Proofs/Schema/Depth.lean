/-
  ApiModel.Proofs.Schema.Depth

  How deeply schemas nest. What normalizing and conjoining make nests no more deeply than what it is
  made of: to exceed a depth is a trait that answers inherit. Where no schema of the document leads
  back to itself, every schema has a depth, the made ones included, since these refer to older ones
  only.
-/
import ApiModel.Proofs.Schema.Trait
import Mathlib.Data.Fintype.EquivFin

namespace ApiModel.Arena

variable {P : Json → Prop} {a b : Arena} {c m n x y : SchemaId} {d e : Nat}

/-- Below `x`, parts of a value nest in fewer than `d` levels. Members are on the level of the schema
    that combines them, and do not lead in a cycle. -/
inductive Shallow (a : Arena) : Nat → SchemaId → Prop
  | intro {d : Nat} {x : SchemaId} (lt : x < a.next) (part : ∀ c, a.Nests x c → Shallow a d c)
      (member : ∀ m, a.Member x m → Shallow a (d + 1) m) : Shallow a (d + 1) x

namespace Shallow

theorem lt (h : a.Shallow d x) : x < a.next := by
  cases h with
  | intro lt _ _ => exact lt

theorem part (h : a.Shallow d x) (hc : a.Nests x c) : a.Shallow (d - 1) c := by
  cases h with
  | intro _ part _ => exact part c hc

theorem member (h : a.Shallow d x) (hm : a.Member x m) : a.Shallow d m := by
  cases h with
  | intro _ _ member => exact member m hm

theorem mono (h : a.Shallow d x) (hde : d ≤ e) : a.Shallow e x := by
  induction h generalizing e with
  | @intro d x lt _ _ ihpart ihmember =>
      obtain ⟨e, rfl⟩ : ∃ k, e = k + 1 := ⟨e - 1, by omega⟩
      exact .intro lt (fun c hc => ihpart c hc (by omega)) fun m hm => ihmember m hm hde

/-- Members come to an end, so what each schema of a depth takes over from its members holds of all
    of that depth. -/
theorem induction {C : SchemaId → Prop} (h : a.Shallow d x)
    (step : ∀ x, a.Shallow d x → (∀ m, a.Member x m → C m) → C x) : C x := by
  induction h with
  | intro lt part member _ ih => exact step _ (.intro lt part member) fun m hm => ih m hm step

/-- A schema that exists is as shallow as it was. -/
theorem grows (h : a.Shallow d x) (hab : Grows a b) : b.Shallow d x := by
  induction h with
  | @intro d x lt _ _ ihpart ihmember =>
      have hschema := hab.schema x lt
      refine .intro (Nat.lt_of_lt_of_le lt hab.next) (fun c hc => ?_) fun m hm => ?_
      · rw [Nests, hschema] at hc
        exact ihpart c hc
      · rw [Member, hschema] at hm
        exact ihmember m hm

end Shallow

theorem shallow_iff (ha : a.WellFormed P) (hab : Grows a b) (hx : x < a.next) :
    b.Shallow d x ↔ a.Shallow d x := by
  refine ⟨fun h => ?_, fun h => h.grows hab⟩
  induction h with
  | @intro d x _ _ _ ihpart ihmember =>
      have hschema := hab.schema x hx
      refine .intro hx (fun c hc => ihpart c ?_ (ha.link_lt hc.link)) fun m hm =>
        ihmember m ?_ (ha.link_lt hm.link)
      · rwa [Nests, hschema]
      · rwa [Member, hschema]

/-! ## Depth is kept -/

/-- What was made exceeds a depth because of something that it refers to. -/
theorem exists_of_not_shallow (ha : a.WellFormed P) (hn : ¬a.Raw n)
    (h : ¬a.Shallow (d + 1) n) :
    (∃ c, a.Nests n c ∧ ¬a.Shallow d c) ∨ ∃ m, a.Member n m ∧ ¬a.Shallow (d + 1) m := by
  by_contra hnone
  push Not at hnone
  have hlt : n < a.next := Nat.lt_of_not_le fun hle => hn (ha.raw_of_le hle)
  exact h (.intro hlt hnone.1 hnone.2)

/-- To be deeper than some levels. -/
def excess : Trait P where
  Index := Nat
  below d := d - 1
  own _ := .none
  Has d a x := ¬a.Shallow d x
  has_iff ha hab hx := not_congr (shallow_iff ha hab hx)
  of_own := False.elim
  of_part hc h := fun hx => h (hx.part hc)
  of_member hm h := fun hx => h (hx.member hm)
  source d := by
    cases d with
    | zero =>
        left
        rintro a x ⟨⟩
    | succ d => exact .inr fun ha hn h => .inr (exists_of_not_shallow ha hn h)

/-- An answer is no deeper than the question. -/
abbrev depth : Law P := excess.law

theorem upheld_depth : Upheld (depth (P := P)) := excess.upheld

theorem Shallow.of_done (ha : a.Lawful (depth (P := P)))
    (hn : a.progress.get? x = some (.done (some n))) (hx : a.Shallow d x) : a.Shallow d n := by
  by_contra h
  exact Trait.has_of_done ha hn h hx

theorem Shallow.of_joined (ha : a.Lawful (depth (P := P)))
    (hj : Joined (depth (P := P)) a x y (some n)) (hx : a.Shallow d x) (hy : a.Shallow d y) :
    a.Shallow d n := by
  by_contra h
  exact (Trait.of_joined ha hj h).elim (fun hn => hn hx) fun hn => hn hy

theorem Shallow.of_crossed (ha : a.Lawful (depth (P := P))) {left right bs : List SchemaId}
    (hl : ∀ l ∈ left, a.Shallow d l) (hr : ∀ r ∈ right, a.Shallow d r)
    (hbs : Crossed (depth (P := P)) a left right bs) : ∀ c ∈ bs, a.Shallow d c := by
  intro c hc
  obtain ⟨l, hmeml, r, hmemr, hj⟩ := hbs.sound c hc
  exact .of_joined ha hj (hl l hmeml) (hr r hmemr)

/-- A stored schema is as deep as what it refers to makes it. -/
theorem Shallow.of_stored (ha : a.WellFormed P) {s : Schema} (hn : Stored a s (some n))
    (hpart : ∀ c ∈ s.parts, a.Shallow d c) (hmember : ∀ m ∈ s.members, a.Shallow (d + 1) m) :
    a.Shallow (d + 1) n := by
  by_contra h
  have hmade : (excess (P := P)).Inherited (d + 1) := fun ha hn h =>
    .inr (exists_of_not_shallow ha hn h)
  rcases Trait.of_stored hmade ha hn h with hown | ⟨c, hc, hdeep⟩ | ⟨m, hm, hdeep⟩
  · exact False.elim hown
  · exact hdeep (hpart c hc)
  · exact hdeep (hmember m hm)

/-! ## Every schema has a depth -/

/-- No schema of the document leads back to itself. -/
def CycleFree (a : Arena) : Prop := ∀ x, a.Raw x → ¬Relation.TransGen a.Link x x

/-- A schema that was made leads to older ones, until it comes to the document. -/
theorem WellFormed.raw_or_lt (ha : a.WellFormed P) (hx : ¬a.Raw x)
    (hxy : Relation.TransGen a.Link x y) : a.Raw y ∨ y < x := by
  induction hxy with
  | single h => exact .inr (ha.older _ _ hx h)
  | @tail y z _ hyz ih =>
      by_cases hraw : a.Raw y
      · exact .inl (ha.raw y z hraw hyz)
      · exact .inr (Nat.lt_trans (ha.older y z hraw hyz) (ih.resolve_left hraw))

theorem CycleFree.not_transGen (h : a.CycleFree) (ha : a.WellFormed P) (x : SchemaId) :
    ¬Relation.TransGen a.Link x x := by
  intro hxx
  by_cases hx : a.Raw x
  · exact h x hx hxx
  · exact (ha.raw_or_lt hx hxx).elim hx (Nat.lt_irrefl x)

/-- No schema leads back to itself when each refers to schemas of a lower rank. -/
theorem CycleFree.of_rank (rank : SchemaId → Nat)
    (h : ∀ x < a.next, ∀ y ∈ (a.schema x).links, rank y < rank x) : a.CycleFree := by
  have hlink : ∀ {x y}, a.Link x y → rank y < rank x := by
    intro x y hxy
    refine h x (Nat.lt_of_not_le fun hle => ?_) y hxy
    rw [Link, a.schema_of_le hle, Schema.links_blank] at hxy
    cases hxy
  have hall : ∀ {x y}, Relation.TransGen a.Link x y → rank y < rank x := by
    intro x y hxy
    induction hxy with
    | single h => exact hlink h
    | tail _ h ih => exact Nat.lt_trans (hlink h) ih
  exact fun x _ hxx => Nat.lt_irrefl _ (hall hxx)

/-- Cycles come with the document only: an arena that grows by nothing of it stays free of them. -/
theorem CycleFree.mono (h : a.CycleFree) (ha : a.WellFormed P) (hab : Grows a b)
    (hraw : ∀ id, id < b.next → b.Raw id → id < a.next) : b.CycleFree := by
  intro x hx hxx
  obtain ⟨y, hxy, hyx⟩ := Relation.TransGen.head'_iff.1 hxx
  have hlt : x < b.next := Nat.lt_of_not_le fun hle => by
    rw [Link, b.schema_of_le hle, Schema.links_blank] at hxy
    cases hxy
  have hx' := hraw x hlt hx
  rw [Link, hab.schema x hx'] at hxy
  -- the cycle runs through schemas that were there before
  have hback := (reach_iff ha hab.schema (ha.link_lt hxy) x).1 hyx
  exact h x ((hab.raw_iff hx').1 hx) (.head' hxy hback)

/-- The schema `x` leads to `y`. -/
def Beyond (a : Arena) (y x : Fin a.next) : Prop := Relation.TransGen a.Link x.val y.val

theorem CycleFree.wellFounded (h : a.CycleFree) (ha : a.WellFormed P) : WellFounded a.Beyond := by
  have : IsTrans (Fin a.next) a.Beyond := ⟨fun _ _ _ hzy hyx => hyx.trans hzy⟩
  have : Std.Irrefl a.Beyond := ⟨fun x => h.not_transGen ha x.val⟩
  -- there are finitely many schemas, so paths that never turn back end
  exact Finite.wellFounded_of_trans_of_irrefl _

/-- What each schema takes over from those it refers to holds of all. -/
theorem CycleFree.induction (h : a.CycleFree) (ha : a.WellFormed P) {C : SchemaId → Prop}
    (step : ∀ x, x < a.next → (∀ y, a.Link x y → C y) → C x) (hx : x < a.next) : C x := by
  have hall : ∀ x : Fin a.next, C x.val := by
    intro x
    induction x using (h.wellFounded ha).induction with
    | _ x ih => exact step x.val x.isLt fun y hxy => ih ⟨y, ha.link_lt hxy⟩ (.single hxy)
  exact hall ⟨x, hx⟩

/-- Schemas of a list that each have a depth have a common one. -/
theorem exists_shallow_of_mem {ids : List SchemaId} (h : ∀ x ∈ ids, ∃ d, a.Shallow d x) :
    ∃ d, ∀ x ∈ ids, a.Shallow d x := by
  induction ids with
  | nil => exact ⟨0, by simp⟩
  | cons x ids ih =>
      obtain ⟨d, hd⟩ := h x (by simp)
      obtain ⟨e, he⟩ := ih fun y hy => h y (by simp [hy])
      refine ⟨max d e, fun y hy => ?_⟩
      rcases List.mem_cons.1 hy with rfl | hy
      · exact hd.mono (Nat.le_max_left d e)
      · exact (he y hy).mono (Nat.le_max_right d e)

/-- Where no schema of the document leads back to itself, every schema has a depth. -/
theorem CycleFree.exists_shallow (h : a.CycleFree) (ha : a.WellFormed P) (hx : x < a.next) :
    ∃ d, a.Shallow d x := by
  refine h.induction ha (C := fun x => ∃ d, a.Shallow d x) (fun x hx ih => ?_) hx
  obtain ⟨d, hd⟩ : ∃ d, ∀ y ∈ (a.schema x).links, a.Shallow d y := exists_shallow_of_mem ih
  refine ⟨d + 1, .intro hx (fun c hc => hd c hc.link) fun m hm => ?_⟩
  exact (hd m hm.link).mono (Nat.le_succ d)

end ApiModel.Arena
