/-
  ApiModel.Proofs.Schema.Offer

  The kinds that a normal form is left with. Where it has alternatives these are the kinds of the
  alternatives, else its own. Every normal form is left with a kind, and a conjunction with those
  that both sides are left with; so two normal forms that share no kind have no conjunction,
  whatever else they demand.
-/
import ApiModel.Proofs.Schema.Request

namespace ApiModel

/-- A set that is not empty has a member. -/
theorem KindSet.exists_contains {ks : KindSet} (h : ks.isEmpty = false) :
    ∃ k, ks.contains k = true := by
  by_contra hno
  simp only [not_exists, Bool.not_eq_true] at hno
  obtain rfl : ks = .empty := KindSet.ext fun k => by rw [hno k, empty, contains_ofPred]
  cases h

namespace Arena

variable {P : Json → Prop} {a b : Arena} {x y l r n c : SchemaId} {k : Kind} {s s' : Schema}

/-- The normal form `x` has an alternative, however far down, that demands what `Q` says; without
    alternatives it does so itself. -/
inductive SomeEnd (Q : Schema → Prop) (a : Arena) : SchemaId → Prop
  | own {x : SchemaId} (hany : (a.schema x).anyOf = []) (h : Q (a.schema x)) : SomeEnd Q a x
  | branch {x c : SchemaId} (hc : c ∈ (a.schema x).anyOf) (h : SomeEnd Q a c) : SomeEnd Q a x

variable {Q : Schema → Prop}

theorem someEnd_of_plain (h : (a.schema x).anyOf = []) : SomeEnd Q a x ↔ Q (a.schema x) := by
  refine ⟨fun hend => ?_, .own h⟩
  cases hend with
  | own _ hq => exact hq
  | branch hc _ =>
      rw [h] at hc
      cases hc

theorem someEnd_of_branches (h : (a.schema x).anyOf ≠ []) :
    SomeEnd Q a x ↔ ∃ c ∈ (a.schema x).anyOf, SomeEnd Q a c := by
  refine ⟨fun hend => ?_, fun ⟨c, hc, hq⟩ => .branch hc hq⟩
  cases hend with
  | own hany _ => exact absurd hany h
  | branch hc hq => exact ⟨_, hc, hq⟩

theorem someEnd_of_grows (ha : a.WellFormed P) (h : Grows a b)
    (hx : x < a.next) : SomeEnd Q b x ↔ SomeEnd Q a x := by
  constructor
  · intro hb
    induction hb with
    | own hany hq =>
        rw [h.schema _ hx] at hany hq
        exact .own hany hq
    | branch hc _ ih =>
        rw [h.schema _ hx] at hc
        exact .branch hc (ih (ha.anyOf_lt hc))
  · intro hend
    induction hend with
    | own hany hq =>
        rw [← h.schema _ hx] at hany hq
        exact .own hany hq
    | branch hc _ ih =>
        have hb := ih (ha.anyOf_lt hc)
        rw [← h.schema _ hx] at hc
        exact .branch hc hb

/-- The normal form `x` is left with the kind `k`. -/
inductive Offers (a : Arena) (k : Kind) : SchemaId → Prop
  | own {x : SchemaId} (hany : (a.schema x).anyOf = [])
      (hk : ((a.schema x).kinds.getD .full).contains k = true) : Offers a k x
  | branch {x c : SchemaId} (hc : c ∈ (a.schema x).anyOf) (h : Offers a k c) : Offers a k x

/-- What a normal form with these demands is left with. -/
def Leaves (a : Arena) (k : Kind) (s : Schema) : Prop :=
  (s.anyOf = [] ∧ (s.kinds.getD .full).contains k = true) ∨ ∃ c ∈ s.anyOf, Offers a k c

theorem offers_iff : Offers a k x ↔ Leaves a k (a.schema x) := by
  constructor
  · rintro (⟨hany, hk⟩ | ⟨hc, h⟩)
    · exact .inl ⟨hany, hk⟩
    · exact .inr ⟨_, hc, h⟩
  · rintro (⟨hany, hk⟩ | ⟨c, hc, h⟩)
    · exact .own hany hk
    · exact .branch hc h

theorem Leaves.congr (hkinds : s.kinds = s'.kinds) (hany : s.anyOf = s'.anyOf)
    (h : Leaves a k s) : Leaves a k s' := by
  unfold Leaves at h ⊢
  rwa [hkinds, hany] at h

/-- What a side of a conjunction is left with, the whole is. -/
theorem offers_of_mem_sides (hc : c ∈ a.sides x) (h : Offers a k c) : Offers a k x := by
  unfold sides at hc
  split at hc
  · rw [List.mem_singleton] at hc
    exact hc ▸ h
  · exact .branch hc h

theorem offers_iff_someEnd : Offers a k x ↔
    SomeEnd (fun s => (s.kinds.getD .full).contains k = true) a x := by
  constructor
  · intro h
    induction h with
    | own hany hk => exact .own hany hk
    | branch hc _ ih => exact .branch hc ih
  · intro h
    induction h with
    | own hany hk => exact .own hany hk
    | branch hc _ ih => exact .branch hc ih

theorem offers_of_grows (ha : a.WellFormed P) (h : Grows a b) (hx : x < a.next) :
    Offers b k x ↔ Offers a k x := by
  rw [offers_iff_someEnd, offers_iff_someEnd, someEnd_of_grows ha h hx]

/-- Every normal form is left with a kind: what refers to nothing else is not bottom, and
    alternatives are older than the whole. -/
theorem exists_offers (ha : a.WellFormed P) (hn : a.IsForm n) : ∃ k, Offers a k n := by
  induction n using Nat.strongRecOn with
  | _ n ih =>
      obtain ⟨hnormal, hbranches⟩ := ha.normal n hn
      cases hany : (a.schema n).anyOf with
      | nil =>
          obtain ⟨ks, hks⟩ := Option.ne_none_iff_exists'.1 hnormal.kinds
          have hsome := hnormal.satisfiable
          simp only [Schema.isBottom, hks, Option.any_some, Bool.or_eq_false_iff] at hsome
          obtain ⟨k, hk⟩ := KindSet.exists_contains hsome.1.1
          exact ⟨k, .own hany (by rwa [hks])⟩
      | cons c cs =>
          have hc : c ∈ (a.schema n).anyOf := by simp [hany]
          have hlink : a.Link n c := Member.link (by simp [Member, Schema.members, hc])
          obtain ⟨k, hk⟩ := ih c (ha.older n c (fun hraw => hraw.1 hn) hlink) (hbranches c hc)
          exact ⟨k, .branch hc hk⟩

/-! ## The law -/

/-- A conjunction is left with what both sides are left with. -/
def offering (P : Json → Prop) : Law P where
  form _ _ _ := True
  both a x y r := ∀ n, r = some n → ∀ k, Offers a k n → Offers a k x ∧ Offers a k y
  form_mono _ _ _ _ _ _ := trivial
  both_mono ha _ h hx hy hr hlaw n hn k hk := by
    rw [offers_of_grows ha h (ha.isForm_lt (hr n hn))] at hk
    rw [offers_of_grows ha h (ha.isForm_lt hx), offers_of_grows ha h (ha.isForm_lt hy)]
    exact hlaw n hn k hk
  form_self _ _ := trivial
  both_self _ _ n hn k hk := by
    cases hn
    exact ⟨hk, hk⟩

variable {out : Schema}

/-- The demands that decide which kinds are left. -/
theorem kinds_of_sameDemands (h : s.sameDemands s' = true) :
    s.kinds = s'.kinds ∧ s.anyOf = s'.anyOf := by
  unfold Schema.sameDemands at h
  simp only [Bool.and_eq_true, and_assoc] at h
  obtain ⟨kinds, -, -, -, -, -, -, -, -, -, -, -, -, -, -, -, -, -, -, -, -, anyOf, -⟩ := h
  exact ⟨eq_of_beq kinds, eq_of_beq anyOf⟩

/-- A schema that demands nothing is left with every kind. -/
theorem offers_of_isUnconstrained (h : (a.schema x).isUnconstrained = true) (k : Kind) :
    Offers a k x := by
  unfold Schema.isUnconstrained at h
  rw [Bool.and_eq_true] at h
  refine .own (kinds_of_sameDemands h.2).2 ?_
  cases hks : (a.schema x).kinds with
  | none => cases k <;> rfl
  | some ks =>
      rw [hks] at h
      obtain rfl : ks = .full := eq_of_beq h.1
      cases k <;> rfl

/-- The branches of a conjunction are left with what both sides are left with. -/
theorem offers_of_crossed (ha : a.WellFormed P) (hx : a.IsForm x) (hy : a.IsForm y)
    {bs : List SchemaId} (hbs : Crossed (offering P) a (a.sides x) (a.sides y) bs) (hc : c ∈ bs)
    (h : Offers a k c) : Offers a k x ∧ Offers a k y := by
  obtain ⟨l, hl, r, hr, hlr⟩ := hbs.sound c hc
  have hlaw := hlr.both_of_isForm (isForm_of_mem_sides ha hx l hl) (isForm_of_mem_sides ha hy r hr)
  obtain ⟨hkl, hkr⟩ := hlaw c rfl k h
  exact ⟨offers_of_mem_sides hl hkl, offers_of_mem_sides hr hkr⟩

/-- What comes of a conjunction with these demands is left with what they leave. -/
theorem leaves_of_reused (h : Reused a x y out (some n)) (hk : Offers a k n) :
    Leaves a k out := by
  rw [offers_iff] at hk
  -- an operand is the result where the demands are the same
  have hsame : ∀ {z}, out.sameDemands (a.schema z) = true → Leaves a k (a.schema z) →
      Leaves a k out := by
    intro z hz hleaves
    obtain ⟨hkinds, hany⟩ := kinds_of_sameDemands hz
    exact hleaves.congr hkinds.symm hany.symm
  generalize hr : some n = r at h
  cases h with
  | left hx => cases hr; exact hsame hx hk
  | right hy => cases hr; exact hsame hy hk
  | stored hs =>
      cases hs with
      | bottom _ => cases hr
      | stored _ _ hschema =>
          cases hr
          obtain ⟨vs, hvs, -⟩ := trimValues_eq out
          rw [hschema, hvs] at hk
          exact hk

/-- The kinds of a conjunction are those of both sides. -/
theorem kinds_of_ownJoined {L : Law P} {s₁ s₂ own : Schema} (h : OwnJoined L a s₁ s₂ own) :
    own.kinds = some ((s₁.kinds.getD .full).inter (s₂.kinds.getD .full)) := by
  cases h with
  | mk hkeywords _ _ _ =>
      obtain ⟨place, m, p, f, rfl, -⟩ := hkeywords
      rfl

theorem offers_of_bothJoined (ha : a.WellFormed P) (hx : a.IsForm x) (hy : a.IsForm y)
    (hj : BothJoined (offering P) a x y (some n)) (h : Offers a k n) :
    Offers a k x ∧ Offers a k y := by
  generalize hr : some n = r at hj
  cases hj with
  | rightFree hfree => cases hr; exact ⟨h, offers_of_isUnconstrained hfree k⟩
  | leftFree hfree => cases hr; exact ⟨offers_of_isUnconstrained hfree k, h⟩
  | itemsClash _ => cases hr
  | propertyClash _ _ => cases hr
  | plain hown hanyx hanyy hreused =>
      rcases leaves_of_reused (hr ▸ hreused) h with ⟨-, hk⟩ | ⟨c, hc, -⟩
      · rw [kinds_of_ownJoined hown, Option.getD_some, KindSet.contains_inter,
          Bool.and_eq_true] at hk
        exact ⟨.own hanyx hk.1, .own hanyy hk.2⟩
      · rw [hown.anyOf] at hc
        cases hc
  | noBranch _ _ => cases hr
  | oneBranch _ hbs => cases hr; exact offers_of_crossed ha hx hy hbs (by simp) h
  | branches _ hown hbs htwo hreused =>
      rcases leaves_of_reused (hr ▸ hreused) h with ⟨hnil, -⟩ | ⟨c, hc, hk⟩
      · obtain rfl := hnil
        cases htwo
      · exact offers_of_crossed ha hx hy hbs hc hk

theorem upheld_offering : Upheld (offering P) where
  form _ _ _ := trivial
  both ha hx hy _ hj _ hn _ hk := offers_of_bothJoined ha.toWellFormed hx hy (hn ▸ hj) hk

end Arena

namespace Session

variable {document : Json} {naming : Naming} {s s' : Session}
  {x y n nx ny : SchemaId} {calls : Nat} {r : Option SchemaId}

/-- A conjunction is left with a kind, and every kind that it is left with is one that the normal
    forms of both sides are left with. -/
theorem offers_of_conjoin (hs : Reachable document naming s) (hx : x < s.arena.next)
    (hy : y < s.arena.next) (hrun : (conjoin calls x y).run s = (.ok (some n), s')) :
    (∃ k, Arena.Offers s'.arena k n) ∧ ∃ nx ny,
      s'.arena.progress.get? x = some (.done (some nx)) ∧
      s'.arena.progress.get? y = some (.done (some ny)) ∧
      ∀ k, Arena.Offers s'.arena k n →
        Arena.Offers s'.arena k nx ∧ Arena.Offers s'.arena k ny := by
  have hL := Arena.upheld_offering (P := fun _ => True)
  have hlawful := hs.lawful hL hereditary_true trivial
  obtain ⟨⟨hlawful', -⟩, hjoined⟩ := (keeps_conjoin hL hlawful calls hx hy).of_ok hrun
  cases hjoined with
  | forms hnx hny hform _ hlaw =>
      refine ⟨Arena.exists_offers hlawful'.arena.toWellFormed (hform n rfl), _, _, hnx, hny, ?_⟩
      exact hlaw n rfl

/-- Schemas whose normal forms are left with no kind in common never have a conjunction: asked for
    one, a session answers that there is none, or fails. -/
theorem conjoin_eq_none_of_disjoint (hs : Reachable document naming s) (hx : x < s.arena.next)
    (hy : y < s.arena.next) (hrun : (conjoin calls x y).run s = (.ok r, s'))
    (hnx : s'.arena.progress.get? x = some (.done (some nx)))
    (hny : s'.arena.progress.get? y = some (.done (some ny)))
    (hdisjoint : ∀ k, ¬(Arena.Offers s'.arena k nx ∧ Arena.Offers s'.arena k ny)) : r = none := by
  cases r with
  | none => rfl
  | some n =>
      obtain ⟨⟨k, hk⟩, mx, my, hmx, hmy, hboth⟩ := offers_of_conjoin hs hx hy hrun
      rw [hnx] at hmx
      rw [hny] at hmy
      cases hmx
      cases hmy
      exact absurd (hboth k hk) (hdisjoint k)

end Session

end ApiModel
