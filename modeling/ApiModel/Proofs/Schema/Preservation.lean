/-
  ApiModel.Proofs.Schema.Preservation

  Normalization preserves meaning. Loaded schemas that combine childless ones without a cycle are
  plain, so what a session answers about their normal forms is right in every session that requests
  lead to, whatever has been asked and has failed before.
-/
import ApiModel.Proofs.Schema.Plain
import ApiModel.Proofs.Schema.Settled
import Mathlib.Data.Fintype.EquivFin

namespace ApiModel

namespace Arena

variable {rd : Reading} {P : Json → Prop} {a : Arena} {m : SchemaId}

/-- Combinators lead back to no schema that they lead to. -/
def Acyclic (a : Arena) (m : SchemaId) : Prop :=
  ∀ x, Relation.ReflTransGen a.Member m x → ¬Relation.TransGen a.Member x x

/-- The combinators of `x`, a schema that those of `m` lead to, lead to `y`. -/
def Beneath (a : Arena) (m : SchemaId) (y x : Fin a.next) : Prop :=
  Relation.ReflTransGen a.Member m x.val ∧ Relation.TransGen a.Member x.val y.val

theorem Acyclic.wellFounded (h : a.Acyclic m) : WellFounded (a.Beneath m) := by
  have : IsTrans (Fin a.next) (a.Beneath m) :=
    ⟨fun _ _ _ hzy hyx => ⟨hyx.1, hyx.2.trans hzy.2⟩⟩
  have : Std.Irrefl (a.Beneath m) := ⟨fun x hx => h x.val hx.1 hx.2⟩
  -- there are finitely many schemas, so paths that never turn back end
  exact Finite.wellFounded_of_trans_of_irrefl _

/-- Where combinators do not lead in a cycle, what each schema inherits from its members holds. -/
theorem Acyclic.induction (h : a.Acyclic m) (ha : a.WellFormed P) (hm : m < a.next)
    {C : SchemaId → Prop} (step : ∀ x, Relation.ReflTransGen a.Member m x →
      (∀ y, a.Member x y → C y) → C x) : C m := by
  have hall : ∀ x : Fin a.next, Relation.ReflTransGen a.Member m x.val → C x.val := by
    intro x
    induction x using h.wellFounded.induction with
    | _ x ih =>
        intro hx
        refine step x.val hx fun y hxy => ?_
        exact ih ⟨y, ha.link_lt hxy.link⟩ ⟨hx, .single hxy⟩ (hx.tail hxy)
  exact hall ⟨m, hm⟩ .refl

/-- What the document has is plain when it combines childless schemas without a cycle. -/
theorem plain_of_raw (ha : a.WellFormed P) (hm : m < a.next) (hraw : a.Raw m)
    (hchildless : ∀ x, Relation.ReflTransGen a.Member m x → (a.schema x).Childless)
    (hacyclic : a.Acyclic m) : Plain rd a m := by
  have hall : ∀ {x}, Relation.ReflTransGen a.Member m x → a.Raw x := by
    intro x hx
    induction hx with
    | refl => exact hraw
    | tail _ hxy ih => exact ha.raw _ _ ih hxy.link
  refine hacyclic.induction ha hm fun x hx ih => ?_
  exact .intro (hchildless x hx) ih fun hform => absurd hform (hall hx).1

end Arena

namespace Session

variable {document : Json} {naming : Naming} {s s' : Session} {m : SchemaId} {calls : Nat}
  {r : Option SchemaId}

/-- The normal form of a loaded schema accepts the values that the schema accepts, and where there
    is no normal form there are no such values, if nothing that the schema combines speaks for the
    parts of a value and the combinators do not lead in a cycle. Keys are distinct in every value
    that is read. -/
theorem normalize_preserves_meaning (rd : Reading) (hd : document.Distinct)
    (hs : Reachable document naming s) (hm : s.Loaded m)
    (hchildless : ∀ x, Relation.ReflTransGen s.arena.Member m x → (s.arena.schema x).Childless)
    (hacyclic : s.arena.Acyclic m) (hrun : (normalize calls m).run s = (.ok r, s'))
    {v : Json} (hv : v.Distinct) :
    (r = none → ¬Arena.Accepts rd s.arena m v) ∧
      ∀ n, r = some n → (Arena.Accepts rd s'.arena n v ↔ Arena.Accepts rd s.arena m v) := by
  have hL := Arena.upheld_plainLaw rd
  have hlawful := hs.lawful hL hereditary_distinct hd
  obtain ⟨hlt, hraw⟩ := hlawful.raw_of_loaded hm
  -- what the document has is plain, and stays so when the arena grows
  have hplain : Arena.Plain rd s.arena m :=
    Arena.plain_of_raw hlawful.arena.toWellFormed hlt hraw hchildless hacyclic
  obtain ⟨⟨hlawful', hfollows⟩, hdone⟩ := (keeps_normalize hL hlawful calls hlt).of_ok hrun
  have hgrows := hfollows.arena
  have hmeans : Arena.Means rd s'.arena r (Arena.Accepts rd s'.arena m) :=
    hlawful'.arena.forms m r hdone
      (Arena.plain_of_grows hlawful.arena.toWellFormed hgrows hlt hplain)
  have hsame : Arena.Accepts rd s'.arena m v ↔ Arena.Accepts rd s.arena m v :=
    hgrows.accepts_iff hlawful.arena.toWellFormed hlt
  -- the answer means what the schema means afterwards, which is what it meant before
  refine ⟨?_, ?_⟩
  · rintro rfl
    exact fun hacc => hmeans.not_of_none hv (hsame.2 hacc)
  · rintro n rfl
    exact (hmeans.accepts_iff hv).trans hsame

theorem normalize_preserves_twoKinds :
    Arena.Accepts Reading.lenient ((normalize 3 0).run twoKindsLoaded).2.arena 6 (.str "a") ↔
      Arena.Accepts Reading.lenient twoKindsLoaded.arena 0 (.str "a") := by
  have hmembers : ∀ x < 3, ∀ y, twoKindsLoaded.arena.Member x y → x < y ∧ y < 3 := by
    unfold Arena.Member
    decide +kernel
  have hreach : ∀ {x}, Relation.ReflTransGen twoKindsLoaded.arena.Member 0 x → x < 3 := by
    intro x hx
    induction hx with
    | refl => decide
    | tail _ hxy ih => exact (hmembers _ ih _ hxy).2
  have hgrow : ∀ {x y}, x < 3 → Relation.TransGen twoKindsLoaded.arena.Member x y →
      x < y ∧ y < 3 := by
    intro x y hx hxy
    induction hxy with
    | single h => exact hmembers _ hx _ h
    | tail _ h ih => exact ⟨ih.1.trans (hmembers _ ih.2 _ h).1, (hmembers _ ih.2 _ h).2⟩
  have hparts : ∀ x < 3, (twoKindsLoaded.arena.schema x).items = none ∧
      (twoKindsLoaded.arena.schema x).properties.entries = [] ∧
      (twoKindsLoaded.arena.schema x).extras.isNone = true := by decide +kernel
  have hchildless : ∀ x, Relation.ReflTransGen twoKindsLoaded.arena.Member 0 x →
      (twoKindsLoaded.arena.schema x).Childless := by
    intro x hx
    obtain ⟨hitems, hentries, hextras⟩ := hparts x (hreach hx)
    refine ⟨hitems, fun k => by simp [Dict.get?, hentries], fun c hc => ?_⟩
    simp [hc] at hextras
  have hacyclic : twoKindsLoaded.arena.Acyclic 0 :=
    fun x hx hxx => Nat.lt_irrefl x (hgrow (hreach hx) hxx).1
  have hloaded : twoKindsLoaded.Loaded 0 := ⟨.root, 0, by decide +kernel, .refl⟩
  have hdistinct : twoKinds.Distinct := by simp [twoKinds]
  exact (normalize_preserves_meaning Reading.lenient hdistinct reachable_twoKinds hloaded hchildless
    hacyclic run_normalize_twoKinds (.str "a")).2 6 rfl

end Session

end ApiModel
