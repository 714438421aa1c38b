/-
  ApiModel.Proofs.Schema.Attestation

  A normal form shows that its schema does not contradict itself. Each of its ends, that is, of its
  alternatives without alternatives of their own, refines the schemas of a bundle: it leaves only
  what they leave, and names for each part a schema that subsumes theirs. Subsuming is told by how
  schemas come about: what is put off subsumes its operands, what has a normal form subsumes what the
  ends of this form refine, and without alternatives, what subsumes two schemas subsumes what they
  are merged into. So a refuted bundle has no such end, as long as the conjunctions that were put off
  have normal forms themselves.
-/
import ApiModel.Proofs.Schema.Merger

namespace ApiModel.Arena

variable {P : Json → Prop} {a b t : Arena} {R : Set SchemaId} {x y z n m c d l : SchemaId}
  {s own : Schema} {bs : List SchemaId}

/-! ## Ends -/

/-- `l` is an alternative of the normal form `n`, however far down, and has none itself. -/
inductive End (a : Arena) : SchemaId → SchemaId → Prop
  | own {n : SchemaId} (hany : (a.schema n).anyOf = []) : End a n n
  | branch {n c l : SchemaId} (hc : c ∈ (a.schema n).anyOf) (h : End a c l) : End a n l

theorem End.anyOf (h : End a n l) : (a.schema l).anyOf = [] := by
  induction h with
  | own hany => exact hany
  | branch _ _ ih => exact ih

theorem End.isForm (ha : a.WellFormed P) (h : End a n l) (hn : a.IsForm n) : a.IsForm l := by
  induction h with
  | own _ => exact hn
  | branch hc _ ih => exact ih ((ha.normal _ hn).2 _ hc)

theorem End.enclosed (h : End a n l) (hn : Enclosed R a n) : Enclosed R a l := by
  induction h with
  | own _ => exact hn
  | branch hc _ ih => exact ih (hn.link (Member.link (by simp [Member, Schema.members, hc])))

/-- Alternatives are older than what they are alternatives of, so they come to an end. -/
theorem exists_end (ha : a.WellFormed P) (hn : a.IsForm n) : ∃ l, End a n l := by
  induction n using Nat.strong_induction_on with
  | _ n ih =>
      by_cases hany : (a.schema n).anyOf = []
      · exact ⟨n, .own hany⟩
      · obtain ⟨c, hc⟩ := List.exists_mem_of_ne_nil _ hany
        have hlink : a.Link n c := Member.link (by simp [Member, Schema.members, hc])
        obtain ⟨l, hl⟩ := ih c (ha.older n c hn.not_raw hlink) ((ha.normal n hn).2 c hc)
        exact ⟨l, .branch hc hl⟩

theorem end_iff (ha : a.WellFormed P) (h : Grows a b) (hn : n < a.next) :
    End b n l ↔ End a n l := by
  constructor
  · intro hl
    induction hl with
    | own hany => exact .own (h.schema _ hn ▸ hany)
    | branch hc _ ih =>
        rw [h.schema _ hn] at hc
        exact .branch hc (ih (ha.anyOf_lt hc))
  · intro hl
    induction hl with
    | own hany => exact .own (h.schema _ hn ▸ hany)
    | branch hc _ ih => exact .branch (h.schema _ hn ▸ hc) (ih (ha.anyOf_lt hc))

theorem End.lt (ha : a.WellFormed P) (h : End a n l) (hn : n < a.next) : l < a.next := by
  induction h with
  | own _ => exact hn
  | branch hc _ ih => exact ih (ha.anyOf_lt hc)

theorem end_of_plain (hany : (a.schema n).anyOf = []) (h : End a n l) : l = n := by
  cases h with
  | own _ => rfl
  | branch hc _ =>
      rw [hany] at hc
      cases hc

/-- An end of one of the alternatives is an end of the whole. -/
theorem End.of_sides (hc : c ∈ a.sides n) (h : End a c l) : End a n l := by
  unfold sides at hc
  split at hc
  · rw [List.mem_singleton] at hc
    exact hc ▸ h
  · exact .branch hc h

/-! ## Subsuming -/

/-- All that `x` stands for is among what `y` stands for. -/
def PartOf (a : Arena) (x y : SchemaId) : Prop :=
  ∀ o ∈ (a.operandsOf x).elements, o ∈ (a.operandsOf y).elements

/-- The schema `z` asks for all that `c` asks for, going by how the two came about. -/
inductive Subsumes (R : Set SchemaId) (a : Arena) : SchemaId → SchemaId → Prop
  | refl (z : SchemaId) : Subsumes R a z z
  | part {z c : SchemaId} (hz : z < a.next) (hc : c < a.next) (h : a.PartOf c z) :
      Subsumes R a z c
  /-- Each end of the form of `z` leaves only what an end of that of `c` leaves, and names child
      schemas for its parts that subsume those there. -/
  | form {z c n i : SchemaId} (hz : a.progress.get? z = some (.done (some n)))
      (hc : a.progress.get? c = some (.done (some i))) (henclosed : Enclosed R a c)
      (e : SchemaId → SchemaId) (hend : ∀ l, End a n l → End a i (e l))
      (htight : ∀ l, End a n l → Tighter (a.schema l) (a.schema (e l)))
      (hnamed : ∀ l f, End a n l → (a.schema (e l)).childFor f ≠ none →
        (a.schema l).childFor f ≠ none)
      (hchild : ∀ l f d y, End a n l → (a.schema (e l)).childFor f = some d →
        (a.schema l).childFor f = some y → Subsumes R a y d) : Subsumes R a z c
  /-- Of straight schemas, what two that are asked for are merged into is asked for. -/
  | merged {z c d w : SchemaId} (hc : Subsumes R a z c) (hd : Subsumes R a z d)
      (h : Merged a c d w) (hw : Straight R a w) : Subsumes R a z w
  | trans {z y c : SchemaId} (h : Subsumes R a z y) (h' : Subsumes R a y c) : Subsumes R a z c

/-- The schema `l` leaves only what `s` leaves, and its child schemas subsume those of `s`. -/
structure Refines (R : Set SchemaId) (a : Arena) (l : SchemaId) (s : Schema) : Prop where
  tighter : Tighter (a.schema l) s
  child : ∀ f c, s.childFor f = some c → ∃ z, (a.schema l).childFor f = some z ∧ Subsumes R a z c

theorem Refines.refl (R : Set SchemaId) (a : Arena) (l : SchemaId) :
    Refines R a l (a.schema l) where
  tighter := .refl _
  child _ c hc := ⟨c, hc, .refl c⟩

theorem Refines.trans (h : Refines R a l (a.schema m)) (h' : Refines R a m s) :
    Refines R a l s where
  tighter := h.tighter.trans h'.tighter
  child f c hc := by
    obtain ⟨y, hy, hyc⟩ := h'.child f c hc
    obtain ⟨z, hz, hzy⟩ := h.child f y hy
    exact ⟨z, hz, hzy.trans hyc⟩

/-- Everything refines a schema that demands nothing. -/
theorem refines_of_isUnconstrained (h : s.isUnconstrained = true) (hkeys : s.properties.keys.Nodup) :
    Refines R a l s where
  tighter := tighter_of_isUnconstrained h
  child f c hc := by cases (childFor_of_isUnconstrained h hkeys).symm.trans hc

/-- The normal form of `c` has an end that `l` refines. -/
def Heeds (R : Set SchemaId) (a : Arena) (l c : SchemaId) : Prop :=
  ∃ n, a.progress.get? c = some (.done (some n)) ∧ ∃ e, End a n e ∧ Refines R a l (a.schema e)

theorem Heeds.of_refines (h : Refines R a l (a.schema m)) (hm : Heeds R a m c) :
    Heeds R a l c := by
  obtain ⟨n, hn, e, he, href⟩ := hm
  exact ⟨n, hn, e, he, h.trans href⟩

/-- An end of a normal form heeds what has this form. -/
theorem heeds_of_done (hc : a.progress.get? c = some (.done (some n))) (hl : End a n l) :
    Heeds R a l c :=
  ⟨n, hc, l, hl, .refl R a l⟩

theorem subsumes_of_heeds (hz : a.progress.get? z = some (.done (some n)))
    (henclosed : Enclosed R a c)
    (h : ∀ l, End a n l → Heeds R a l c) (hform : ∃ l, End a n l) : Subsumes R a z c := by
  obtain ⟨i, hc⟩ : ∃ i, a.progress.get? c = some (.done (some i)) := by
    obtain ⟨l, hl⟩ := hform
    obtain ⟨i, hc, -⟩ := h l hl
    exact ⟨i, hc⟩
  have hends : ∀ l, ∃ e, End a n l → End a i e ∧ Refines R a l (a.schema e) := fun l => by
    by_cases hl : End a n l
    · obtain ⟨i', hc', e, he, href⟩ := h l hl
      cases hc.symm.trans hc'
      exact ⟨e, fun _ => ⟨he, href⟩⟩
    · exact ⟨l, fun h => absurd h hl⟩
  choose e he using hends
  refine .form hz hc henclosed e (fun l hl => (he l hl).1) (fun l hl => (he l hl).2.tighter) ?_ ?_
  · intro l f hl hne hnone
    obtain ⟨d, hd⟩ := Option.ne_none_iff_exists'.1 hne
    obtain ⟨y, hy, -⟩ := (he l hl).2.child f d hd
    cases hnone.symm.trans hy
  · intro l f d y hl hd hy
    obtain ⟨y', hy', hsub⟩ := (he l hl).2.child f d hd
    cases hy.symm.trans hy'
    exact hsub

theorem Subsumes.mono (ha : a.WellFormed P) (h : Grows a b) (hzc : Subsumes R a z c) :
    Subsumes R b z c := by
  induction hzc with
  | refl z => exact .refl z
  | part hz hc hops =>
      refine .part (Nat.lt_of_lt_of_le hz h.next) (Nat.lt_of_lt_of_le hc h.next) ?_
      rwa [PartOf, operandsOf_of_grows h hz, operandsOf_of_grows h hc]
  | @form z c n i hz hc henclosed e hend htight hnamed _ ih =>
      have hn := ha.isForm_lt (ha.form _ _ hz)
      have hi := ha.isForm_lt (ha.form _ _ hc)
      have hl : ∀ {l}, End b n l → End a n l ∧ b.schema l = a.schema l ∧
          b.schema (e l) = a.schema (e l) := fun hl => by
        have hl := (end_iff ha h hn).1 hl
        exact ⟨hl, h.schema _ (hl.lt ha hn), h.schema _ ((hend _ hl).lt ha hi)⟩
      refine .form (h.done _ _ hz) (h.done _ _ hc)
        ((enclosed_iff ha h (ha.known c _ hc)).2 henclosed) e
        (fun l hb => (end_iff ha h hi).2 (hend l (hl hb).1)) ?_ ?_ ?_
      · intro l hb
        obtain ⟨hb, hs, hs'⟩ := hl hb
        rw [hs, hs']
        exact htight l hb
      · intro l f hb
        obtain ⟨hb, hs, hs'⟩ := hl hb
        rw [hs, hs']
        exact hnamed l f hb
      · intro l f d y hb
        obtain ⟨hb, hs, hs'⟩ := hl hb
        rw [hs, hs']
        exact ih l f d y hb
  | merged _ _ hmerged hw ih ih' =>
      exact .merged ih ih' (hmerged.mono ha h) ((straight_iff ha h (hmerged.lt ha)).2 hw)
  | trans _ _ ih ih' => exact ih.trans ih'

theorem Refines.mono (ha : a.WellFormed P) (h : Grows a b) (hl : l < a.next)
    (href : Refines R a l s) : Refines R b l s where
  tighter := h.schema l hl ▸ href.tighter
  child f c hc := by
    obtain ⟨z, hz, hsub⟩ := href.child f c hc
    exact ⟨z, by rwa [h.schema l hl], hsub.mono ha h⟩

theorem Heeds.mono (ha : a.WellFormed P) (h : Grows a b) (hl : l < a.next)
    (hheeds : Heeds R a l c) : Heeds R b l c := by
  obtain ⟨n, hn, e, he, href⟩ := hheeds
  have hn' := ha.isForm_lt (ha.form _ _ hn)
  refine ⟨n, h.done _ _ hn, e, (end_iff ha h hn').2 he, ?_⟩
  rw [h.schema e (he.lt ha hn')]
  exact href.mono ha h hl

/-! ## The law -/

/-- The schema `l` refines all schemas of a bundle of the document with `x`. -/
def Answers (R : Set SchemaId) (a : Arena) (l x : SchemaId) : Prop :=
  ∃ W, Bundle a.schema W ∧ x ∈ W ∧
    ∀ u ∈ W, u < a.next ∧ a.Raw u ∧ Refines R a l (a.schema u)

theorem Answers.of_refines (h : Refines R a l (a.schema m)) (hm : Answers R a m x) :
    Answers R a l x := by
  obtain ⟨W, hW, hx, hall⟩ := hm
  refine ⟨W, hW, hx, fun u hu => ?_⟩
  obtain ⟨hlt, hraw, href⟩ := hall u hu
  exact ⟨hlt, hraw, h.trans href⟩

/-- An end of the normal form of `x` answers `x`, if it is of the document, and heeds each of its
    operands, if it was put off. -/
structure Attests (R : Set SchemaId) (a : Arena) (x l : SchemaId) : Prop where
  document : a.Raw x → Answers R a l x
  putOff : ∀ os, a.operands.get? x = some os → ∀ o ∈ os.elements, Heeds R a l o

theorem Answers.mono (ha : a.WellFormed P) (h : Grows a b) (hl : l < a.next)
    (hx : Answers R a l x) : Answers R b l x := by
  obtain ⟨W, hW, hmem, hall⟩ := hx
  have hs : ∀ {u}, u ∈ W → b.schema u = a.schema u := fun hu => h.schema _ (hall _ hu).1
  refine ⟨W, ⟨?_, ?_, ?_, ?_⟩, hmem, fun u hu => ?_⟩
  · intro u hu
    rw [hs hu]
    exact hW.unrestricted u hu
  · intro u hu
    rw [hs hu]
    exact hW.allOf u hu
  · intro u hu
    rw [hs hu]
    exact hW.anyOf u hu
  · intro u hu
    rw [hs hu]
    exact hW.oneOf u hu
  · obtain ⟨hlt, hraw, href⟩ := hall u hu
    rw [hs hu]
    exact ⟨Nat.lt_of_lt_of_le hlt h.next, (h.raw_iff hlt).2 hraw, href.mono ha h hl⟩

theorem Attests.mono (ha : a.WellFormed P) (h : Grows a b) (hx : x < a.next) (hl : l < a.next)
    (hatt : Attests R a x l) : Attests R b x l where
  document hraw := (hatt.document ((h.raw_iff hx).1 hraw)).mono ha h hl
  putOff os hos o ho := by
    rw [h.operands x hx] at hos
    exact (hatt.putOff os hos o ho).mono ha h hl

/-- The ends of the answers attest what they answer, and those of a conjunction refine ends of both
    sides; answers lead no further astray than questions. -/
def attestation (R : Set SchemaId) : Law Json.Distinct where
  form a id r := (exhibiting confining).law.form a id r ∧
    ∀ n, r = some n → Enclosed R a id → ∀ l, End a n l → Attests R a id l
  both a x y r := (exhibiting confining).law.both a x y r ∧
    ∀ n, r = some n → Enclosed R a x → Enclosed R a y → ∀ l, End a n l →
      Heeds R a l x ∧ Heeds R a l y
  form_mono ha hb h hid hr hlaw := by
    refine ⟨(exhibiting confining).law.form_mono ha hb h hid hr hlaw.1, fun n hn henclosed l hl => ?_⟩
    have hlt := ha.isForm_lt (hr n hn)
    rw [end_iff ha h hlt] at hl
    rw [enclosed_iff ha h hid] at henclosed
    exact (hlaw.2 n hn henclosed l hl).mono ha h hid (hl.lt ha hlt)
  both_mono ha hb h hx hy hr hlaw := by
    refine ⟨(exhibiting confining).law.both_mono ha hb h hx hy hr hlaw.1, fun n hn hsx hsy l hl => ?_⟩
    have hlt := ha.isForm_lt (hr n hn)
    rw [end_iff ha h hlt] at hl
    rw [enclosed_iff ha h (ha.isForm_lt hx)] at hsx
    rw [enclosed_iff ha h (ha.isForm_lt hy)] at hsy
    exact (hlaw.2 n hn hsx hsy l hl).imp (.mono ha h (hl.lt ha hlt)) (.mono ha h (hl.lt ha hlt))
  form_self ha hn := by
    refine ⟨(exhibiting confining).law.form_self ha hn, fun _ _ _ l _ =>
      ⟨fun hraw => absurd hn hraw.1, fun os hos => ?_⟩⟩
    cases (operands_of_isForm ha hn).symm.trans hos
  both_self ha hn := by
    refine ⟨(exhibiting confining).law.both_self ha hn, fun _ heq _ _ l hl => ?_⟩
    cases heq
    exact ⟨heeds_of_done hn hl, heeds_of_done hn hl⟩

theorem entails_attestation (R : Set SchemaId) : (attestation R).Entails (exhibiting confining).law :=
  ⟨fun h => h.1, fun h => h.1⟩

section Law

variable (ht : t.Lawful (attestation R))
include ht

theorem lawful_confining : t.Lawful (exhibiting (P := Json.Distinct) confining).law :=
  ht.imp (entails_attestation R)

/-- A normal form is enclosed where its schema is. -/
theorem enclosed_of_done (hx : t.progress.get? x = some (.done (some n))) (h : Enclosed R t x) :
    Enclosed R t n := fun hn =>
  h (Trait.has_of_done (T := exhibiting confining) (lawful_confining ht) hx hn)

theorem Joined.enclosed (hj : Joined (attestation R) t x y (some n)) (hx : Enclosed R t x)
    (hy : Enclosed R t y) : Enclosed R t n := fun hn =>
  (Trait.of_joined (T := exhibiting confining) (lawful_confining ht)
    (hj.imp (entails_attestation R)) hn).elim hx hy

omit ht in
theorem heeds_of_isForm (hx : t.progress.get? x = some (.done (some n))) (hn : t.IsForm n)
    (h : Heeds R t l n) : Heeds R t l x := by
  obtain ⟨n', hn', hend⟩ := h
  cases hn.symm.trans hn'
  exact ⟨n, hx, hend⟩

/-- The ends of a conjunction heed both sides. -/
theorem Joined.heeds (hj : Joined (attestation R) t x y (some n)) (hx : Enclosed R t x)
    (hy : Enclosed R t y) (hl : End t n l) : Heeds R t l x ∧ Heeds R t l y := by
  cases hj with
  | forms hnx hny _ _ hlaw =>
      have hboth := hlaw.2 n rfl (enclosed_of_done ht hnx hx) (enclosed_of_done ht hny hy) l hl
      exact hboth.imp (heeds_of_isForm hnx (ht.form _ _ hnx))
        (heeds_of_isForm hny (ht.form _ _ hny))

/-! ### Child schemas -/

/-- What two child schemas come to subsumes both. -/
theorem ChildJoined.subsumes (hj : ChildJoined (attestation R) t c d (some z)) (hc : c < t.next)
    (hd : d < t.next) (hsc : Enclosed R t c) (hsd : Enclosed R t d) :
    Subsumes R t z c ∧ Subsumes R t z d := by
  have hwf := ht.toWellFormed
  have hunion : ∀ {o}, o ∈ (t.operandsOf c).elements ∨ o ∈ (t.operandsOf d).elements →
      o ∈ ((t.operandsOf c).union (t.operandsOf d)).elements := SortedSet.mem_union.2
  generalize hr : some z = r at hj
  cases hj with
  | same heq =>
      cases hr
      exact ⟨.refl z, heq ▸ .refl z⟩
  | single hz =>
      cases hr
      have hmem : z ∈ ((t.operandsOf c).union (t.operandsOf d)).elements := by simp [hz]
      have hops : t.operands.get? z = none := (SortedSet.mem_union.1 hmem).elim
        (operands_of_mem_operandsOf hwf) (operands_of_mem_operandsOf hwf)
      have hlt : z < t.next := (SortedSet.mem_union.1 hmem).elim (operandsOf_lt hwf hc z)
        (operandsOf_lt hwf hd z)
      have hself := mem_operandsOf_self hops
      exact ⟨.part hlt hc fun o ho => hself ▸ hz ▸ hunion (.inl ho),
        .part hlt hd fun o ho => hself ▸ hz ▸ hunion (.inr ho)⟩
  | putOff hz =>
      cases hr
      have hops : t.operandsOf z = (t.operandsOf c).union (t.operandsOf d) := by
        unfold operandsOf at hz ⊢
        rw [hz, Option.getD_some]
      have hlt := (hwf.operands z _ hz).1
      exact ⟨.part hlt hc fun o ho => hops ▸ hunion (.inl ho),
        .part hlt hd fun o ho => hops ▸ hunion (.inr ho)⟩
  | unmatched _ _ _ _ => cases hr
  | joined _ hnc hnd hjoined =>
      obtain ⟨n, rfl, hn⟩ := Option.map_eq_some_iff.1 hr.symm
      have hform := hjoined.isForm
      -- given as an operand or not, the result has the form `n`
      have hz : t.progress.get? z = some (.done (some n)) := by
        split at hn
        · next heq => exact hn ▸ heq ▸ hnc
        · split at hn
          · next heq => exact hn ▸ heq ▸ hnd
          · exact hn ▸ hform
      have hheeds : ∀ l, End t n l → Heeds R t l c ∧ Heeds R t l d := fun l hl =>
        (hjoined.heeds ht (enclosed_of_done ht hnc hsc) (enclosed_of_done ht hnd hsd) hl).imp
          (heeds_of_isForm hnc (hwf.form _ _ hnc)) (heeds_of_isForm hnd (hwf.form _ _ hnd))
      have hend := exists_end hwf hform
      exact ⟨subsumes_of_heeds hz hsc (fun l hl => (hheeds l hl).1) hend,
        subsumes_of_heeds hz hsd (fun l hl => (hheeds l hl).2) hend⟩

/-- What makes the demands of a conjunction refines both sides. -/
theorem OwnJoined.refines (hown : OwnJoined (attestation R) t (t.schema x) (t.schema y) own)
    (hx : Enclosed R t x) (hy : Enclosed R t y) (htight : Tighter (t.schema l) own)
    (hchild : ∀ f, (t.schema l).childFor f = own.childFor f) :
    Refines R t l (t.schema x) ∧ Refines R t l (t.schema y) := by
  have htight := (hown.tighter_iff (ht.proper x) (ht.proper y)).1 htight
  have hsub : ∀ {f z}, own.childFor f = some z →
      (∀ c, (t.schema x).childFor f = some c → Subsumes R t z c) ∧
        ∀ d, (t.schema y).childFor f = some d → Subsumes R t z d := by
    intro f z hz
    cases hown.facet hx.unrestricted hy.unrestricted hz with
    | left hc hd =>
        refine ⟨fun c hc' => ?_, fun d hd' => ?_⟩
        · cases hc.symm.trans hc'
          exact .refl z
        · cases hd.symm.trans hd'
    | right hc hd =>
        refine ⟨fun c hc' => ?_, fun d hd' => ?_⟩
        · cases hc.symm.trans hc'
        · cases hd.symm.trans hd'
          exact .refl z
    | both hc hd hj =>
        have hlc := mem_links_of_childFor hc
        have hld := mem_links_of_childFor hd
        have hboth := hj.subsumes ht ((ht.proper x).links _ hlc) ((ht.proper y).links _ hld)
          (hx.link hlc) (hy.link hld)
        refine ⟨fun c hc' => ?_, fun d hd' => ?_⟩
        · cases hc.symm.trans hc'
          exact hboth.1
        · cases hd.symm.trans hd'
          exact hboth.2
  constructor
  · refine ⟨htight.1, fun f c hc => ?_⟩
    obtain ⟨z, hz⟩ := hown.exists_childFor hx.unrestricted hy.unrestricted (.inl hc)
    exact ⟨z, (hchild f).trans hz, (hsub hz).1 c hc⟩
  · refine ⟨htight.2, fun f d hd => ?_⟩
    obtain ⟨z, hz⟩ := hown.exists_childFor hx.unrestricted hy.unrestricted (.inr hd)
    exact ⟨z, (hchild f).trans hz, (hsub hz).2 d hd⟩

/-! ### Conjunctions -/

omit ht in
theorem Stored.repeats (hj : Stored t s (some n)) : Tighter (t.schema n) s ∧
    (∀ f, (t.schema n).childFor f = s.childFor f) ∧ (t.schema n).anyOf = s.anyOf := by
  cases hj with
  | stored _ _ hs =>
      obtain ⟨vs, hvs, -⟩ := trimValues_eq s
      rw [hs]
      exact ⟨tighter_trimValues.1, fun f => childFor_trimValues, by rw [hvs]⟩

omit ht in
/-- Reused or stored, what comes of demands makes them. -/
theorem Reused.repeats (hwf : t.WellFormed Json.Distinct) (hs : s.Proper Json.Distinct t.next)
    (hj : Reused t x y s (some n)) : Tighter (t.schema n) s ∧
    (∀ f, (t.schema n).childFor f = s.childFor f) ∧ (t.schema n).anyOf = s.anyOf := by
  have hsame : ∀ {u}, s.sameDemands (t.schema u) = true → Tighter (t.schema u) s ∧
      (∀ f, (t.schema u).childFor f = s.childFor f) ∧ (t.schema u).anyOf = s.anyOf := by
    intro u hu
    have hshape := sameShape_of_sameDemands hu hs.keys
    exact ⟨tighter_of_sameDemands hu hs (hwf.proper u),
      fun f => (childFor_congr hshape.toSameParts f).symm, hshape.anyOf.symm⟩
  generalize hr : some n = r at hj
  cases hj with
  | left h => cases hr; exact hsame h
  | right h _ => cases hr; exact hsame h
  | stored h _ => exact (hr ▸ h).repeats

omit ht in
theorem End.of_branches (h : End t n l) (hany : (t.schema n).anyOf = bs) (hbs : bs ≠ []) :
    ∃ c ∈ bs, End t c l := by
  cases h with
  | own hnil => exact absurd (hany.symm.trans hnil) hbs
  | branch hc hl => exact ⟨_, hany ▸ hc, hl⟩

omit ht in
/-- An alternative that is heeded is one of the whole. -/
theorem heeds_of_side (hwf : t.WellFormed P) (hx : t.IsForm x) (hc : c ∈ t.sides x)
    (h : Heeds R t l c) : Heeds R t l x := by
  obtain ⟨n, hn, e, he, href⟩ := h
  cases (isForm_of_mem_sides hwf hx c hc).symm.trans hn
  exact ⟨x, hx, e, he.of_sides hc, href⟩

theorem heeds_of_bothJoined (hj : BothJoined (attestation R) t x y (some n)) (hfx : t.IsForm x)
    (hfy : t.IsForm y) (hx : Enclosed R t x) (hy : Enclosed R t y) (hl : End t n l) :
    Heeds R t l x ∧ Heeds R t l y := by
  have hwf := ht.toWellFormed
  have hside : ∀ {x c}, Enclosed R t x → c ∈ t.sides x → Enclosed R t c := fun hx hc hno =>
    hx (Trait.of_mem_sides (T := exhibiting (P := Json.Distinct) confining) (k := R) hc hno)
  -- a schema that demands nothing is heeded by all
  have hfree : ∀ {x}, t.IsForm x → (t.schema x).isUnconstrained = true → Heeds R t l x := by
    intro x hfx hfree
    have hkeys := (ht.proper x).keys
    have hany : (t.schema x).anyOf = [] := (sameShape_of_isUnconstrained hfree hkeys).anyOf
    exact ⟨x, hfx, x, .own hany, refines_of_isUnconstrained hfree hkeys⟩
  have hcrossed : ∀ {bs c}, Crossed (attestation R) t (t.sides x) (t.sides y) bs → c ∈ bs →
      End t c l → Heeds R t l x ∧ Heeds R t l y := by
    intro bs c hbs hc hl
    obtain ⟨a, ha, b, hb, hab⟩ := hbs.sound c hc
    exact (hab.heeds ht (hside hx ha) (hside hy hb) hl).imp (heeds_of_side hwf hfx ha)
      (heeds_of_side hwf hfy hb)
  have hproper : ∀ {own bs}, OwnJoined (attestation R) t (t.schema x) (t.schema y) own →
      (∀ c ∈ bs, t.IsForm c) → ({ own with anyOf := bs } : Schema).Proper Json.Distinct t.next :=
    fun hown hbs => hown.proper hwf (ht.proper x) (ht.proper y) fun c hc =>
      hwf.isForm_lt (hbs c hc)
  generalize hr : some n = r at hj
  cases hj with
  | rightFree h => cases hr; exact ⟨heeds_of_done hfx hl, hfree hfy h⟩
  | leftFree h _ => cases hr; exact ⟨hfree hfx h, heeds_of_done hfy hl⟩
  | itemsClash _ _ => cases hr
  | propertyClash _ _ _ => cases hr
  | noBranch _ _ _ => cases hr
  | @plain own _ hown hanyx hanyy hreused _ _ =>
      have hnil : ({ own with anyOf := [] } : Schema) = own := by rw [← hown.anyOf]
      have hrepeats := Reused.repeats hwf (hnil ▸ hproper hown (by simp)) (hr ▸ hreused)
      obtain ⟨htight, hchild, hany⟩ := hrepeats
      cases end_of_plain (hany.trans hown.anyOf) hl
      have href := hown.refines ht hx hy htight hchild
      exact ⟨⟨x, hfx, x, .own hanyx, href.1⟩, ⟨y, hfy, y, .own hanyy, href.2⟩⟩
  | oneBranch _ hbs _ _ => cases hr; exact hcrossed hbs (by simp) hl
  | branches _ hown hbs htwo hreused _ =>
      obtain ⟨-, -, hany⟩ := Reused.repeats hwf (hproper hown hbs.isForm) (hr ▸ hreused)
      obtain ⟨c, hc, hl⟩ := hl.of_branches hany (by rintro rfl; cases htwo)
      exact hcrossed hbs hc hl

/-! ### Normal forms -/

omit ht in
theorem Heeds.trans (h : Heeds R t l n) (hn : t.IsForm n)
    (hc : ∀ e, End t n e → Heeds R t e c) : Heeds R t l c := by
  obtain ⟨n', hn', e, he, href⟩ := h
  cases hn.symm.trans hn'
  exact (hc e he).of_refines href

/-- The ends of a schema conjoined with others heed it and them. -/
theorem AllJoined.heeds {own : SchemaId} {ms : List SchemaId}
    (hj : AllJoined (attestation R) t own ms (some n)) (hform : t.IsForm own)
    (hown : Enclosed R t own) (hms : ∀ m ∈ ms, Enclosed R t m) (hl : End t n l) :
    Heeds R t l own ∧ ∀ m ∈ ms, Heeds R t l m := by
  generalize hr : some n = r at hj
  induction hj with
  | nil =>
      cases hr
      exact ⟨heeds_of_done hform hl, by simp⟩
  | clash _ => cases hr
  | @cons own m k ms _ hm _ ih =>
      have hsm := hms m (by simp)
      have hk := hm.isForm
      obtain ⟨hlk, hrest⟩ := ih hk (hm.enclosed ht hown hsm) (fun m hm => hms m (by simp [hm])) hr
      have hboth : ∀ e, End t k e → Heeds R t e own ∧ Heeds R t e m := fun e he =>
        hm.heeds ht hown hsm he
      refine ⟨hlk.trans hk fun e he => (hboth e he).1, fun m' hm' => ?_⟩
      rcases List.mem_cons.1 hm' with rfl | hm'
      · exact hlk.trans hk fun e he => (hboth e he).2
      · exact hrest m' hm'

theorem AllJoined.enclosed {own : SchemaId} {ms : List SchemaId}
    (hj : AllJoined (attestation R) t own ms (some n)) (hown : Enclosed R t own)
    (hms : ∀ m ∈ ms, Enclosed R t m) : Enclosed R t n := fun hn => by
  rcases Trait.of_allJoined (lawful_confining ht) (hj.imp (entails_attestation R)) hn with h | h
  · exact hown h
  · obtain ⟨m, hm, hstrays⟩ := h
    exact hms m hm hstrays

omit ht in
theorem Gathered.exists_end {own : SchemaId} (hj : Gathered t s own bs (some n))
    (hl : End t n l) : ∃ c ∈ bs, End t c l := by
  generalize hr : some n = r at hj
  cases hj with
  | none _ => cases hr
  | one hbs => cases hr; exact ⟨n, by simp [hbs], hl⟩
  | many htwo hs =>
      exact hl.of_branches (hr ▸ hs).repeats.2.2 (by rintro rfl; cases htwo)

/-- `l` refines the schema and heeds its members, one at least of each group of alternatives. -/
structure Complies (R : Set SchemaId) (a : Arena) (l : SchemaId) (s : Schema) : Prop where
  refines : Refines R a l s
  allOf : ∀ m ∈ s.allOf, Heeds R a l m
  anyOf : s.anyOf ≠ [] → ∃ m ∈ s.anyOf, Heeds R a l m
  oneOf : s.oneOf ≠ [] → ∃ m ∈ s.oneOf, Heeds R a l m

theorem AlternativesJoined.heeds {own : SchemaId}
    (hj : AlternativesJoined (attestation R) t s own (some n)) (hform : t.IsForm own)
    (hown : Enclosed R t own) (hms : ∀ m ∈ s.members, Enclosed R t m) (hl : End t n l) :
    Heeds R t l own ∧ (s.anyOf ≠ [] → ∃ m ∈ s.anyOf, Heeds R t l m) ∧
      (s.oneOf ≠ [] → ∃ m ∈ s.oneOf, Heeds R t l m) := by
  have hany : ∀ m ∈ s.anyOf, Enclosed R t m := fun m hm => hms m (by simp [Schema.members, hm])
  have hone : ∀ m ∈ s.oneOf, Enclosed R t m := fun m hm => hms m (by simp [Schema.members, hm])
  -- a branch is a conjunction of a member with the schema's own demands
  have hgroup : ∀ {ms bs c e}, (∀ m ∈ ms, Enclosed R t m) → Crossed (attestation R) t ms [own] bs →
      c ∈ bs → End t c e → Enclosed R t c ∧ Heeds R t e own ∧ ∃ m ∈ ms, Heeds R t e m := by
    intro ms bs c e hms hbs hc he
    obtain ⟨m, hm, o, ho, hmo⟩ := hbs.sound c hc
    rw [List.mem_singleton] at ho
    subst ho
    have hboth := hmo.heeds ht (hms m hm) hown he
    exact ⟨hmo.enclosed ht (hms m hm) hown, hboth.2, m, hm, hboth.1⟩
  have hsome : ∀ {ms : List SchemaId}, ms = [] → ms ≠ [] → ∃ m ∈ ms, Heeds R t l m :=
    fun hnil hne => absurd hnil hne
  generalize hr : some n = r at hj
  cases hj with
  | neither hnil hnil' => cases hr; exact ⟨heeds_of_done hform hl, hsome hnil, hsome hnil'⟩
  | anyClash _ _ => cases hr
  | oneClash _ _ => cases hr
  | any _ hnil hbs hg =>
      obtain ⟨c, hc, hl⟩ := (hr ▸ hg).exists_end hl
      obtain ⟨-, hlown, hmem⟩ := hgroup hany hbs hc hl
      exact ⟨hlown, fun _ => hmem, hsome hnil⟩
  | one hnil _ hbs hg =>
      obtain ⟨c, hc, hl⟩ := (hr ▸ hg).exists_end hl
      obtain ⟨-, hlown, hmem⟩ := hgroup hone hbs hc hl
      exact ⟨hlown, hsome hnil, fun _ => hmem⟩
  | both _ _ has hos hbs hg =>
      obtain ⟨c, hc, hl⟩ := (hr ▸ hg).exists_end hl
      obtain ⟨a, ha, o, ho, hj⟩ := hbs.sound c hc
      have hfa := has.isForm a ha
      have hfo := hos.isForm o ho
      obtain ⟨e, he⟩ := exists_end ht.toWellFormed hfa
      obtain ⟨e', he'⟩ := exists_end ht.toWellFormed hfo
      obtain ⟨hla, hlo⟩ := hj.heeds ht (hgroup hany has ha he).1 (hgroup hone hos ho he').1 hl
      obtain ⟨na, hna, ea, hea, hrefa⟩ := hla
      cases hfa.symm.trans hna
      obtain ⟨no, hno, eo, heo, hrefo⟩ := hlo
      cases hfo.symm.trans hno
      obtain ⟨-, hown, m, hm, hlm⟩ := hgroup hany has ha hea
      obtain ⟨-, -, m', hm', hlm'⟩ := hgroup hone hos ho heo
      exact ⟨hown.of_refines hrefa, fun _ => ⟨m, hm, hlm.of_refines hrefa⟩,
        fun _ => ⟨m', hm', hlm'.of_refines hrefo⟩⟩

omit ht in
/-- A schema with a sole child demands its kinds and nothing else. -/
theorem refines_of_soleChild (hc : s.soleChild? = some c) (hkeys : s.properties.keys.Nodup)
    (hks : ∀ ks, s.kinds = some ks → Tighter (t.schema l) (kindsAlone s.pointer ks)) :
    Refines R t l s := by
  have hfree := (Schema.soleChild?_spec hc).1
  have hnone := Schema.isUnconstrained_iff.1 hfree
  refine ⟨⟨fun k hk => ?_, fun v hv hl => ⟨?_, by simp [show s.values = none from hnone.values]⟩,
    fun q _ => ⟨by simp [show s.gt = none from hnone.gt], by simp [show s.ge = none from hnone.ge],
      by simp [show s.lt = none from hnone.lt], by simp [show s.le = none from hnone.le]⟩⟩,
    fun f d hd => ?_⟩
  · cases hkinds : s.kinds with
    | none => simp [KindSet.full, KindSet.contains_ofPred]
    | some ks => exact (hks ks hkinds).kinds k hk
  · intro ks hkinds
    exact ((hks ks hkinds).selects v hv hl).kinds ks rfl
  · have hchild := childFor_of_isUnconstrained (f := f) hfree hkeys
    cases f <;> cases hchild.symm.trans hd

theorem Narrowed.complies (hj : Narrowed (attestation R) t s c (some n))
    (hc : s.soleChild? = some c) (hkeys : s.properties.keys.Nodup)
    (hs : ¬(exhibiting (P := Json.Distinct) confining).Shows R t s) (hsc : Enclosed R t c)
    (hl : End t n l) : Complies R t l s := by
  have hcomplies : Refines R t l s → Heeds R t l c → Complies R t l s := by
    intro href hlc
    rcases (Schema.soleChild?_spec hc).2 with ⟨h, h', h''⟩ | ⟨h, h', h''⟩ | ⟨h, h', h''⟩ <;>
      exact ⟨href, by simp [h, hlc], by simp [h', hlc], by simp [h'', hlc]⟩
  generalize hr : some n = r at hj
  cases hj with
  | unmatched _ => cases hr
  | noKind _ _ _ => cases hr
  | anyKind hdone hnone =>
      cases hr
      refine hcomplies (refines_of_soleChild hc hkeys fun ks hks => ?_) (heeds_of_done hdone hl)
      cases hnone.symm.trans hks
  | @kinds k m ks _ hdone hks hstored hjoined =>
      have hform := hstored.isForm
      have hm : Enclosed R t m := fun hno => hs (.inl (confining.kinds hks
        (Trait.holds_of_kindsAlone (Trait.of_stored (T := exhibiting confining)
          (inherited_exhibiting confining R) ht.toWellFormed hstored hno))))
      obtain ⟨hlk, hlm⟩ := (hr ▸ hjoined).heeds ht (enclosed_of_done ht hdone hsc) hm hl
      obtain ⟨htight, -, hany⟩ := hstored.repeats
      obtain ⟨m', hm', e, he, href⟩ := hlm
      cases hform.symm.trans hm'
      cases end_of_plain hany he
      refine hcomplies (refines_of_soleChild hc hkeys fun ks' hks' => ?_)
        (heeds_of_isForm hdone (ht.form _ _ hdone) hlk)
      cases hks.symm.trans hks'
      exact href.tighter.trans htight

/-- The ends of the normal form of a schema meet it. -/
theorem complies_of_formJoined (hj : FormJoined (attestation R) t (t.schema x) (some n))
    (hx : Enclosed R t x) (hl : End t n l) : Complies R t l (t.schema x) := by
  have hwf := ht.toWellFormed
  have hshows : ¬(exhibiting (P := Json.Distinct) confining).Shows R t (t.schema x) :=
    fun h => hx h.has
  have hms : ∀ m ∈ (t.schema x).members, Enclosed R t m := fun m hm => hx.link (Member.link hm)
  generalize hr : some n = r at hj
  cases hj with
  | bottom _ => cases hr
  | noBase _ _ => cases hr
  | allClash _ _ _ => cases hr
  | narrowed hc hj =>
      exact (hr ▸ hj).complies ht hc (ht.proper x).keys hshows
        (hms _ (Schema.mem_members_of_soleChild? hc)) hl
  | @alternatives base own _ _ hstored hall halt =>
      have hbase : Enclosed R t base := fun hno => hshows (Trait.shows_baseOf
        (Trait.of_stored (T := exhibiting confining) (inherited_exhibiting confining R) hwf hstored
          hno))
      have hfbase := hstored.isForm
      have hallOf : ∀ m ∈ (t.schema x).allOf, Enclosed R t m := fun m hm =>
        hms m (by simp [Schema.members, hm])
      have hown := hall.isForm hfbase
      obtain ⟨hlown, hany, hone⟩ :=
        (hr ▸ halt).heeds ht hown (hall.enclosed ht hbase hallOf) hms hl
      have hheeds := fun e (he : End t own e) => hall.heeds ht hfbase hbase hallOf he
      obtain ⟨htight, hchild, hnil⟩ := hstored.repeats
      have hlbase : Heeds R t l base := hlown.trans hown fun e he => (hheeds e he).1
      obtain ⟨b, hb, e, he, href⟩ := hlbase
      cases hfbase.symm.trans hb
      cases end_of_plain hnil he
      refine ⟨⟨href.tighter.trans (htight.trans tighter_baseOf.1), fun f c hc => ?_⟩,
        fun m hm => hlown.trans hown fun e he => (hheeds e he).2 m hm, hany, hone⟩
      exact href.child f c ((hchild f).trans (childFor_baseOf.trans hc))

/-- An end that heeds a schema of the document answers it. -/
theorem Heeds.answers (h : Heeds R t l m) (hm : t.Raw m) (henclosed : Enclosed R t m) :
    Answers R t l m := by
  obtain ⟨n, hn, e, he, href⟩ := h
  exact (((ht.forms m _ hn).2 n rfl henclosed e he).document hm).of_refines href

/-- What complies with a schema attests it. -/
theorem Complies.attests (h : Complies R t l (t.schema x)) (hx : x < t.next)
    (henclosed : Enclosed R t x) :
    Attests R t x l where
  document hraw := by
    have hmember : ∀ {m}, m ∈ (t.schema x).members → Heeds R t l m → Answers R t l m :=
      fun hm hlm =>
        hlm.answers ht (ht.raw x _ hraw (Member.link hm)) (henclosed.link (Member.link hm))
    -- the bundle is the schema itself and what else is answered
    have hall : ∀ u ∈ {u | u = x ∨ Answers R t l u}, u < t.next ∧ t.Raw u ∧
        Refines R t l (t.schema u) := by
      rintro u (rfl | ⟨W, -, hu, hall⟩)
      · exact ⟨hx, hraw, h.refines⟩
      · exact hall u hu
    refine ⟨{u | u = x ∨ Answers R t l u}, ⟨?_, ?_, ?_, ?_⟩, .inl rfl, hall⟩
    · rintro u (rfl | ⟨W, hW, hu, -⟩)
      · exact henclosed.unrestricted
      · exact hW.unrestricted u hu
    · rintro u (rfl | ⟨W, hW, hu, hall⟩) m hm
      · exact .inr (hmember (by simp [Schema.members, hm]) (h.allOf m hm))
      · exact .inr ⟨W, hW, hW.allOf u hu m hm, hall⟩
    · rintro u (rfl | ⟨W, hW, hu, hall⟩) hany
      · obtain ⟨m, hm, hlm⟩ := h.anyOf hany
        exact ⟨m, hm, .inr (hmember (by simp [Schema.members, hm]) hlm)⟩
      · obtain ⟨m, hm, hmW⟩ := hW.anyOf u hu hany
        exact ⟨m, hm, .inr ⟨W, hW, hmW, hall⟩⟩
    · rintro u (rfl | ⟨W, hW, hu, hall⟩) hone
      · obtain ⟨m, hm, hlm⟩ := h.oneOf hone
        exact ⟨m, hm, .inr (hmember (by simp [Schema.members, hm]) hlm)⟩
      · obtain ⟨m, hm, hmW⟩ := hW.oneOf u hu hone
        exact ⟨m, hm, .inr ⟨W, hW, hmW, hall⟩⟩
  putOff os hos o ho := by
    obtain ⟨-, p, hp⟩ := ht.operands x os hos
    exact h.allOf o (by simpa [hp, Schema.conjunction, Schema.blank] using ho)

end Law

theorem upheld_attestation (R : Set SchemaId) : Upheld (attestation R) where
  form {a id r} ha hlt hj := by
    refine ⟨(exhibiting confining).upheld.form (lawful_confining ha) hlt
      (hj.imp (entails_attestation R)), ?_⟩
    rintro n rfl henclosed l hl
    exact (complies_of_formJoined ha hj henclosed hl).attests ha hlt henclosed
  both {a x y r} ha hfx hfy hne hj := by
    refine ⟨(exhibiting confining).upheld.both (lawful_confining ha) hfx hfy hne
      (hj.imp (entails_attestation R)), ?_⟩
    rintro n rfl hx hy l hl
    exact heeds_of_bothJoined ha hj hfx hfy hx hy hl

end ApiModel.Arena
