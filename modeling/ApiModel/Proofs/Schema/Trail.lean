/-
  ApiModel.Proofs.Schema.Trail

  Why a cycle that normalization reports is a cycle of combinators. The path of schemas under
  normalization also holds schemas that were entered by way of a property or of items. But from a
  child schema, no schema under normalization is led to by combinators without a known form: else the
  conjunction is put off. So the path ends in a chain of combinators that leads to the schema that is
  asked for next, and nothing before the chain is met again.
-/
import ApiModel.Proofs.Schema.Provenance
import Mathlib.Data.List.Chain

namespace ApiModel.Arena

variable {P : Json → Prop} {a b o t : Arena} {c m n x y z root : SchemaId}

/-! ## What combinators lead to -/

/-- The schema `x`, about whose normal form nothing is known, combines `y` with others. -/
def OpenMember (a : Arena) (x y : SchemaId) : Prop := a.progress.get? x = none ∧ a.Member x y

theorem WellFormed.member_lt (ha : a.WellFormed P) (h : a.Member x y) : y < a.next :=
  ha.link_lt h.link

/-- A search that finds nothing under normalization has seen a set of schemas that combinators do not
    lead out of. -/
theorem exists_closed_of_reachesOpen {seen stack : List SchemaId}
    (h : a.reachesOpen seen stack = false) :
    ∃ S : SchemaId → Prop, (∀ x ∈ seen, S x) ∧ (∀ x ∈ stack, x < a.next → S x) ∧
      ∀ x, S x → x ∉ seen → a.progress.get? x ≠ some .inProgress ∧
        ∀ y, a.OpenMember x y → y < a.next → S y := by
  fun_induction reachesOpen a seen stack with
  | case1 seen => exact ⟨(· ∈ seen), fun _ hx => hx, by simp, fun x hx hn => absurd hx hn⟩
  | case2 => cases h
  | case3 seen id stack _ r hr ih =>
      obtain ⟨S, hseen, hstack, hclosed⟩ := ih h
      refine ⟨S, fun x hx => hseen x (by simp [hx]), ?_, fun x hx hn => ?_⟩
      · intro x hx hlt
        rcases List.mem_cons.1 hx with rfl | hx
        · exact hseen x (by simp)
        · exact hstack x hx hlt
      · by_cases heq : x = id
        · subst heq
          refine ⟨by simp [hr], fun y hy => ?_⟩
          rw [hy.1] at hr
          cases hr
        · exact hclosed x hx (by simp [heq, hn])
  | case4 seen id stack _ hnone ih =>
      obtain ⟨S, hseen, hstack, hclosed⟩ := ih h
      refine ⟨S, fun x hx => hseen x (by simp [hx]), ?_, fun x hx hn => ?_⟩
      · intro x hx hlt
        rcases List.mem_cons.1 hx with rfl | hx
        · exact hseen x (by simp)
        · exact hstack x (by simp [hx]) hlt
      · by_cases heq : x = id
        · subst heq
          exact ⟨by simp [hnone], fun y hy hlt => hstack y (List.mem_append_left _ hy.2) hlt⟩
        · exact hclosed x hx (by simp [heq, hn])
  | case5 seen id stack hnot ih =>
      obtain ⟨S, hseen, hstack, hclosed⟩ := ih h
      refine ⟨S, hseen, ?_, hclosed⟩
      intro x hx hlt
      rcases List.mem_cons.1 hx with rfl | hx
      · exact hseen x (by_contra fun hn => hnot ⟨hlt, hn⟩)
      · exact hstack x hx hlt

/-- The search finds every schema under normalization that combinators lead to. -/
theorem not_mem_pending_of_reachesInProgress (ha : a.WellFormed P) (hx : x < a.next)
    (h : a.reachesInProgress x = false) (hxz : Relation.ReflTransGen a.OpenMember x z) :
    z ∉ a.pending := by
  obtain ⟨S, -, hstack, hclosed⟩ := exists_closed_of_reachesOpen h
  have hz : S z := by
    induction hxz with
    | refl => exact hstack x (by simp) hx
    | tail _ hyz ih => exact (hclosed _ ih (by simp)).2 _ hyz (ha.member_lt hyz.2)
  rw [← ha.pending z]
  exact (hclosed z hz (by simp)).1

/-! ## Schemas that can be asked for -/

/-- The path ends in a chain of combinators to `x`, and combinators do not lead from `x` to anything
    before the chain. -/
def Enters (a : Arena) (x : SchemaId) : Prop :=
  ∃ before chain, a.pending = before ++ chain ∧ (chain ++ [x]).IsChain a.Member ∧
    ∀ z ∈ before, ¬Relation.ReflTransGen a.OpenMember x z

/-- The normal form of `x` is known, or `x` is entered by way of combinators. -/
def Ready (a : Arena) (x : SchemaId) : Prop :=
  (∃ r, a.progress.get? x = some (.done r)) ∨ a.Enters x

theorem IsForm.ready (h : a.IsForm n) : a.Ready n := .inl ⟨some n, h⟩

/-- What the search for schemas under normalization does not lead to one may be asked for. -/
theorem ready_of_reachesInProgress (ha : a.WellFormed P) (hx : x < a.next)
    (h : a.reachesInProgress x = false) : a.Ready x := by
  refine .inr ⟨a.pending, [], by simp, by simp, fun z hz hxz => ?_⟩
  exact not_mem_pending_of_reachesInProgress ha hx h hxz hz

/-- What has no entry after a task had none before. -/
theorem Advances.progress_none (h : Advances a b) (ha : a.WellFormed P) (hb : b.WellFormed P)
    (hx : b.progress.get? x = none) : a.progress.get? x = none := by
  cases hp : a.progress.get? x with
  | none => rfl
  | some p =>
      cases p with
      | inProgress =>
          rw [ha.pending, ← h.pending, ← hb.pending, hx] at hp
          cases hp
      | done r =>
          rw [h.done x r hp] at hx
          cases hx

/-- A later arena opens no way through combinators. -/
theorem Advances.openMember (h : Advances a b) (ha : a.WellFormed P) (hb : b.WellFormed P)
    (hx : x < a.next) (hxz : Relation.ReflTransGen b.OpenMember x z) :
    Relation.ReflTransGen a.OpenMember x z ∧ z < a.next := by
  induction hxz with
  | refl => exact ⟨.refl, hx⟩
  | @tail y z _ hyz ih =>
      obtain ⟨hxy, hy⟩ := ih
      have hmember : a.Member y z := by
        unfold Member
        rw [← h.schema y hy]
        exact hyz.2
      exact ⟨hxy.tail ⟨h.progress_none ha hb hyz.1, hmember⟩, ha.member_lt hmember⟩

/-- What has members exists. -/
theorem lt_of_member (h : a.Member x y) : x < a.next := by
  refine Nat.lt_of_not_le fun hle => ?_
  rw [Member, a.schema_of_le hle] at h
  simp [Schema.members, Schema.blank] at h

theorem Grows.member (h : Grows a b) (hxy : a.Member x y) : b.Member x y := by
  unfold Member
  rw [h.schema x (lt_of_member hxy)]
  exact hxy

theorem Ready.mono (h : Advances a b) (ha : a.WellFormed P) (hb : b.WellFormed P)
    (hx : x < a.next) (hr : a.Ready x) : b.Ready x := by
  rcases hr with ⟨r, hr⟩ | ⟨before, chain, hpath, hchain, hbefore⟩
  · exact .inl ⟨r, h.done x r hr⟩
  · exact .inr ⟨before, chain, h.pending.trans hpath, hchain.imp fun _ _ => h.member,
      fun z hz hxz => hbefore z hz (h.openMember ha hb hx hxz).1⟩

/-- The members of a schema may be asked for once the schema has entered the path. -/
theorem Enters.member (h : a.Enters x) (hx : a.progress.get? x = none) (hxy : a.Member x y) :
    (a.enter x).Enters y := by
  obtain ⟨before, chain, hpath, hchain, hbefore⟩ := h
  refine ⟨before, chain ++ [x], by simp [enter, hpath], ?_, fun z hz hyz => hbefore z hz ?_⟩
  · -- the chain goes on from `x` to its member
    refine hchain.append (List.isChain_singleton y) ?_
    simp only [List.getLast?_append, List.getLast?_singleton, Option.some_or, List.head?_cons,
      Option.mem_some_iff]
    rintro _ rfl _ rfl
    exact hxy
  · -- what is open when `x` is on the path was open before
    refine .head ⟨hx, hxy⟩ (Relation.ReflTransGen.mono (fun u v huv => ⟨?_, huv.2⟩) _ _ hyz)
    have hu := huv.1
    rw [progress_enter] at hu
    split at hu
    · cases hu
    · exact hu

/-! ## The trail -/

/-- The trail tells of the path from the first mention of the schema on. -/
theorem exists_cycleTrail (a : Arena) {path : List SchemaId} (hmem : x ∈ path) :
    ∃ before rest, path = before ++ x :: rest ∧ x ∉ before ∧
      a.cycleTrail path x = (x :: (rest ++ [x])).map fun i => (a.schema i).pointer := by
  obtain ⟨before, rest, hsplit, hfirst⟩ := List.eq_append_cons_of_mem hmem
  refine ⟨before, rest, hsplit, hfirst, ?_⟩
  have hdrop : path.dropWhile (· != x) = x :: rest := by
    rw [hsplit, List.dropWhile_append_of_pos]
    · simp
    · intro y hy
      have hne : y ≠ x := fun heq => hfirst (heq ▸ hy)
      simp [hne]
  rw [cycleTrail, hdrop]
  rfl

/-- Coming back to a schema on the path closes a walk through members. -/
theorem Ready.exists_walk (h : a.Ready x) (hx : a.progress.get? x = some .inProgress)
    (hmem : x ∈ a.pending) : ∃ rest, (∀ z ∈ rest, z ∈ a.pending) ∧
      (x :: (rest ++ [x])).IsChain a.Member ∧
      a.cycleTrail a.pending x = (x :: (rest ++ [x])).map fun i => (a.schema i).pointer := by
  rcases h with ⟨r, hr⟩ | ⟨before, chain, hpath, hchain, hbefore⟩
  · rw [hx] at hr
    cases hr
  have hnot : x ∉ before := fun hxb => hbefore x hxb .refl
  obtain ⟨l₁, rest, hsplit, -, htrail⟩ := exists_cycleTrail a hmem
  refine ⟨rest, fun z hz => by simp [hsplit, hz], ?_, htrail⟩
  -- the first mention of `x` on the path is in the chain
  rw [hpath] at hsplit
  rcases List.append_eq_append_iff.1 hsplit with ⟨l, -, hl⟩ | ⟨l, hl, hrest⟩
  · rw [hl, List.append_assoc] at hchain
    exact hchain.right_of_append
  · cases l with
    | nil =>
        rw [List.nil_append] at hrest
        rw [← hrest] at hchain
        exact hchain
    | cons y l =>
        obtain rfl : x = y := (List.cons.inj hrest).1
        exact absurd (by simp [hl]) hnot

/-- A member that is no normal form, of a schema that is none, is as the document has it. -/
theorem WellFormed.raw_of_member (ha : a.WellFormed P) (hx : ¬a.IsForm x) (hy : ¬a.IsForm y)
    (hxy : a.Member x y) : a.Raw y := by
  cases hops : a.operands.get? x with
  | none => exact ha.raw x y ⟨hx, hops⟩ hxy.link
  | some os =>
      obtain ⟨-, p, hp⟩ := ha.operands x os hops
      have hlink := hxy.link
      rw [Link, hp, Schema.links_conjunction] at hlink
      exact ⟨hy, ha.flat x os hops y hlink⟩

/-- A walk through members of schemas under normalization leads from schema to schema of the
    document. -/
theorem WellFormed.leads_of_walk (ha : a.WellFormed P) {walk : List SchemaId}
    (hchain : (x :: walk).IsChain a.Member) (hforms : ∀ z ∈ x :: walk, ¬a.IsForm z) :
    ∀ z ∈ walk, a.Leads x z := by
  induction walk generalizing x with
  | nil => simp
  | cons y walk ih =>
      obtain ⟨hxy, htail⟩ := List.isChain_cons_cons.1 hchain
      have hy : a.Raw y := ha.raw_of_member (hforms x (by simp)) (hforms y (by simp)) hxy
      intro z hz
      rcases List.mem_cons.1 hz with rfl | hz
      · exact ⟨.single hxy.link, hy⟩
      · exact (ih htail (fun w hw => hforms w (by simp [hw])) z hz).head hxy.link

/-- The trail tells the places of a walk through members that comes back to where it starts, over
    schemas of the document that `root` leads to. -/
def CombinatorCycle (o : Arena) (root : SchemaId) (trail : List Pointer) : Prop :=
  ∃ x rest, trail = (x :: (rest ++ [x])).map (fun i => (o.schema i).pointer) ∧
    (x :: (rest ++ [x])).IsChain o.Member ∧ ∀ z ∈ x :: (rest ++ [x]), o.Leads root z

/-- All that `x` leads to of the document was led to by `root` in the arena `o`. -/
def Within (o : Arena) (root : SchemaId) (a : Arena) (x : SchemaId) : Prop :=
  ∀ z, a.Leads x z → o.Leads root z

/-- The trail that is reported when a schema under normalization is asked for. -/
theorem combinatorCycle_cycleTrail (ho : o.WellFormed P) (hroot : root < o.next)
    (ha : a.WellFormed P) (hoa : Grows o a) (hin : Within o root a x) (hready : a.Ready x)
    (hx : a.progress.get? x = some .inProgress) :
    CombinatorCycle o root (a.cycleTrail a.pending x) := by
  have hmem := (ha.pending x).1 hx
  obtain ⟨rest, hrest, hchain, htrail⟩ := hready.exists_walk hx hmem
  have hpath : ∀ z ∈ x :: (rest ++ [x]), z ∈ a.pending := by
    intro z hz
    simp only [List.mem_cons, List.mem_append, List.not_mem_nil, or_false] at hz
    rcases hz with rfl | hz | rfl
    · exact hmem
    · exact hrest z hz
    · exact hmem
  have hforms : ∀ z ∈ x :: (rest ++ [x]), ¬a.IsForm z := by
    intro z hz hform
    have hin := (ha.pending z).2 (hpath z hz)
    rw [hform] at hin
    cases hin
  have hwalk := ha.leads_of_walk hchain hforms
  have hleads : ∀ z ∈ x :: (rest ++ [x]), o.Leads root z := by
    intro z hz
    rcases List.mem_cons.1 hz with rfl | hz
    · exact hin _ (hwalk _ (by simp))
    · exact hin z (hwalk z hz)
  -- the schemas of the walk were there from the start
  have hold : ∀ z ∈ x :: (rest ++ [x]), a.schema z = o.schema z := fun z hz =>
    hoa.schema z (ho.reach_lt hroot (hleads z hz).1)
  refine ⟨x, rest, ?_, ?_, hleads⟩
  · rw [htrail]
    exact List.map_congr_left fun z hz => by rw [hold z hz]
  · refine hchain.imp_of_mem_imp fun y z hy _ hyz => ?_
    unfold Member
    rw [← hold y hy]
    exact hyz

/-- A failure that reports a cycle reports one of combinators. -/
def Traced (o : Arena) (root : SchemaId) (e : Failure) : Prop :=
  ∀ trail, e = .fault (.referenceCycle trail) → CombinatorCycle o root trail

end ApiModel.Arena
