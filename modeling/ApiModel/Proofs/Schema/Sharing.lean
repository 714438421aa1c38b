/-
  ApiModel.Proofs.Schema.Sharing

  Conjunctions that are put off. The two tables of an arena mirror each other, so a set of operands
  and the schema that stands for it determine each other, and a set once entered stays. Whatever two
  schemas make up the set, the one or the other first, themselves or by way of schemas that stand
  for some of the operands, putting their conjunction off again comes to the schema that is there.
-/
import ApiModel.Proofs.Schema.Settled

namespace ApiModel

namespace Arena

variable {a b : Arena} {x y x' y' n : SchemaId} {os : SortedSet SchemaId} {place : Pointer}

/-! ## The two tables -/

/-- The tables of conjunctions that were put off agree, and each set of operands is one of several,
    listed in the order of the schemas. -/
structure Shares (a : Arena) : Prop where
  mirrored : ∀ os n, a.operands.get? n = some os → a.deferred.get? os = some n
  ascending : ∀ os n, a.deferred.get? os = some n → os.Ascending
  several : ∀ os n, a.deferred.get? os = some n → 2 ≤ os.size

theorem shares_empty : Arena.empty.Shares where
  mirrored _ _ h := by simp [Arena.empty] at h
  ascending _ _ h := by simp [Arena.empty] at h
  several _ _ h := by simp [Arena.empty] at h

theorem Shares.ascending_operandsOf (h : a.Shares) (x : SchemaId) :
    (a.operandsOf x).Ascending := by
  unfold operandsOf
  cases hos : a.operands.get? x with
  | none => exact List.pairwise_singleton _ _
  | some os => exact h.ascending os x (h.mirrored os x hos)

theorem Shares.operandsOf_ne_nil (h : a.Shares) (x : SchemaId) :
    (a.operandsOf x).elements ≠ [] := by
  unfold operandsOf
  cases hos : a.operands.get? x with
  | none => exact List.cons_ne_nil _ _
  | some os =>
      have hsize := h.several os x (h.mirrored os x hos)
      exact List.ne_nil_of_length_pos (Nat.lt_of_lt_of_le Nat.zero_lt_two hsize)

/-- What is put off combines at least two operands: one operand alone is taken as it is. -/
theorem Shares.two_le_size (h : a.Shares) (hos : (a.operandsOf x).union (a.operandsOf y) = os)
    (hmany : ∀ c, os.elements ≠ [c]) : 2 ≤ os.size := by
  obtain ⟨c, hc⟩ := List.exists_mem_of_ne_nil _ (h.operandsOf_ne_nil x)
  have hmem : c ∈ os.elements := hos ▸ SortedSet.mem_union.2 (.inl hc)
  unfold SortedSet.size
  match hlist : os.elements with
  | [] => rw [hlist] at hmem; cases hmem
  | [d] => exact absurd hlist (hmany d)
  | _ :: _ :: _ => simp

theorem deferred_addDeferred (a : Arena) (os os' : SortedSet SchemaId) (place : Pointer) :
    (a.addDeferred os place).deferred.get? os' =
      if os' = os then some a.next else a.deferred.get? os' :=
  Dict.get?_insert _ _ _ _

theorem Shares.addDeferred (h : a.Shares) (hos : (a.operandsOf x).union (a.operandsOf y) = os)
    (hmany : ∀ c, os.elements ≠ [c]) (hnew : a.deferred.get? os = none) :
    (a.addDeferred os place).Shares where
  mirrored os' n hn := by
    rw [operands_addDeferred] at hn
    rw [deferred_addDeferred]
    split at hn
    · next heq => rw [if_pos (Option.some.inj hn).symm, heq]
    · have hold := h.mirrored os' n hn
      have hne : os' ≠ os := by
        rintro rfl
        cases hold.symm.trans hnew
      rw [if_neg hne, hold]
  ascending os' n hn := by
    rw [deferred_addDeferred] at hn
    split at hn
    · next heq => exact heq ▸ hos ▸ SortedSet.ascending_union (h.ascending_operandsOf x)
    · exact h.ascending os' n hn
  several os' n hn := by
    rw [deferred_addDeferred] at hn
    split at hn
    · next heq => exact heq ▸ h.two_le_size hos hmany
    · exact h.several os' n hn

/-- Where the tables agree in `a`, they do in `b`, and every entry of `a` has stayed. -/
def SharesOn (a b : Arena) : Prop :=
  a.Shares → b.Shares ∧ ∀ os n, a.deferred.get? os = some n → b.deferred.get? os = some n

theorem SharesOn.trans {c : Arena} (h : a.SharesOn b) (h' : b.SharesOn c) : a.SharesOn c := by
  intro ha
  obtain ⟨hb, hab⟩ := h ha
  obtain ⟨hc, hbc⟩ := h' hb
  exact ⟨hc, fun os n hn => hbc os n (hab os n hn)⟩

/-- What leaves both tables alone. -/
theorem sharesOn_of_eq (hd : b.deferred = a.deferred) (hops : b.operands = a.operands) :
    a.SharesOn b := by
  rintro ⟨hmirrored, hascending, hseveral⟩
  refine ⟨⟨?_, ?_, ?_⟩, ?_⟩
  · rwa [hd, hops]
  · rwa [hd]
  · rwa [hd]
  · exact fun os n hn => hd ▸ hn

theorem Change.sharesOn (h : a.Change b) : a.SharesOn b := by
  cases h with
  | pushed s => exact sharesOn_of_eq rfl rfl
  | noted progress pending conjunctions => exact sharesOn_of_eq rfl rfl
  | @deferred x y os place hos hmany hnew =>
      refine fun h => ⟨h.addDeferred hos hmany hnew, fun os' n hn => ?_⟩
      have hne : os' ≠ os := by
        rintro rfl
        cases hn.symm.trans hnew
      rw [deferred_addDeferred, if_neg hne, hn]

theorem Changes.sharesOn (h : a.Changes b) : a.SharesOn b := by
  induction h with
  | refl => exact sharesOn_of_eq rfl rfl
  | tail _ hchange ih => exact ih.trans hchange.sharesOn

/-! ## Putting off again -/

/-- The schemas `x` and `y` have the operands `os` between them. -/
def Together (a : Arena) (os : SortedSet SchemaId) (x y : SchemaId) : Prop :=
  ∀ c, c ∈ os.elements ↔ c ∈ (a.operandsOf x).elements ∨ c ∈ (a.operandsOf y).elements

/-- The schema `x'` is `x`, or it stands for some of the operands `os`, those of `x` among them. -/
def StandsIn (a : Arena) (os : SortedSet SchemaId) (x x' : SchemaId) : Prop :=
  x' = x ∨ ∃ ds, a.operands.get? x' = some ds ∧ (∀ c ∈ ds.elements, c ∈ os.elements) ∧
    ∀ c ∈ (a.operandsOf x).elements, c ∈ ds.elements

/-- To put off the conjunction of `x` and `y` comes to `n` and leaves the arena as it is. -/
structure GivesBack (a : Arena) (x y n : SchemaId) : Prop where
  putOff : ∀ place, (putOff x y place).run a = (.ok n, a)
  children : ∀ solve place, x ≠ y → (a.reachesInProgress x || a.reachesInProgress y) = true →
    (conjoinChildren solve x y place).run a = (.ok (some n), a)

theorem Together.symm (h : a.Together os x y) : a.Together os y x :=
  fun c => (h c).trans or_comm

/-- A side may be replaced by what stands for more of the same operands. -/
theorem Together.standsIn (h : a.Together os x y) (hx : a.StandsIn os x x') :
    a.Together os x' y := by
  rcases hx with rfl | ⟨ds, hds, hwithin, hcovers⟩
  · exact h
  intro c
  have hops : a.operandsOf x' = ds := by simp [operandsOf, hds]
  rw [hops]
  constructor
  · exact fun hc => ((h c).1 hc).imp_left (hcovers c)
  · rintro (hc | hc)
    · exact hwithin c hc
    · exact (h c).2 (.inr hc)

theorem Together.union_eq (h : a.Together os x y) (ha : a.Shares) (hos : os.Ascending) :
    (a.operandsOf x).union (a.operandsOf y) = os :=
  SortedSet.eq_of_mem_iff (SortedSet.ascending_union (ha.ascending_operandsOf x)) hos
    fun c => SortedSet.mem_union.trans (h c).symm

/-- A set of operands that is entered is not entered again. -/
theorem Together.givesBack (h : a.Together os x y) (ha : a.Shares)
    (hn : a.deferred.get? os = some n) : a.GivesBack x y n := by
  have hput : ∀ place, (Arena.putOff x y place).run a = (.ok n, a) := by
    intro place
    unfold Arena.putOff
    rw [Work.run_bind, Work.run_view, h.union_eq ha (ha.ascending os n hn)]
    dsimp only
    split
    · next only honly =>
        have hsize := ha.several os n hn
        simp [SortedSet.size, honly] at hsize
    · rw [Work.run_bind, Work.run_view, hn]
      rfl
  refine ⟨hput, fun solve place hne hreaches => ?_⟩
  unfold conjoinChildren
  rw [if_neg hne, Work.run_bind, Work.run_view]
  dsimp only
  rw [if_pos hreaches, Work.run_bind, hput place]
  rfl

end Arena

namespace Session

variable {s t : Session} {document : Json} {naming : Naming}

/-! ## Sessions -/

/-- The arena of `t` shares on what the arena of `s` shares. -/
def SharesOn (s t : Session) : Prop := s.arena.SharesOn t.arena

theorem SharesOn.of_eq (hd : t.arena.deferred = s.arena.deferred)
    (hops : t.arena.operands = s.arena.operands) : SharesOn s t :=
  Arena.sharesOn_of_eq hd hops

instance : IsPreorder Session SharesOn where
  refl _ := .of_eq rfl rfl
  trans _ _ _ := Arena.SharesOn.trans

theorem allows_sharesOn : Allows SharesOn where
  arena _ _ := Arena.Change.sharesOn
  marked _ _ := .of_eq rfl rfl
  warned _ _ := .of_eq rfl rfl
  named _ _ _ := .of_eq rfl rfl
  typing _ _ _ := .of_eq rfl rfl
  loaded _ _ := .of_eq rfl rfl
  read _ _ _ := .of_eq rfl rfl

theorem sharesOn_of_later (h : Later document naming s t) : SharesOn s t := by
  induction h with
  | refl => exact refl_of SharesOn s
  | tail _ hstep ih =>
      obtain ⟨c, calls, -, rfl⟩ := hstep
      refine trans_of SharesOn ih ?_
      rcases c.ask_or_aside with ⟨r, rfl⟩ | haside
      · rw [run_perform_ask]
        refine obeys_request allows_sharesOn.allowsTyping allows_sharesOn.toAllowsLoading
          (fun _ _ _ _ _ => ?_) r _
        exact .of_eq rfl rfl
      · refine .of_eq ?_ ?_ <;> rw [(obeys_spares_perform haside _).arena]

/-- In every session that is reached, schemas of conjunctions put off and sets of operands determine
    each other, for good. Such a set has several members, none of which was put off itself, and the
    schema demands these, in the order of the arena, and nothing else. In whatever arena work passes
    through, to put off a conjunction comes to the schema that stands for its operands, once there
    is one. -/
theorem deferred_shared (hs : Reachable document naming s) :
    (∀ os n, s.arena.deferred.get? os = some n ↔ s.arena.operands.get? n = some os) ∧
    (∀ os n, s.arena.deferred.get? os = some n →
      (∀ t, Later document naming s t → t.arena.deferred.get? os = some n) ∧
      (2 ≤ os.size ∧ ∀ c ∈ os.elements, s.arena.operands.get? c = none) ∧
      (os.Ascending ∧ ∃ place, s.arena.schema n = .conjunction place os.elements)) ∧
    ∀ b, s.arena.Changes b → ∀ os n, b.deferred.get? os = some n →
      (∀ c, b.Changes c → c.deferred.get? os = some n) ∧
      ∀ x y, b.Together os x y → ∀ x' y', b.StandsIn os x x' → b.StandsIn os y y' →
        b.GivesBack x' y' n ∧ b.GivesBack y' x' n := by
  have hlawful := hs.lawful Arena.upheld_free hereditary_true trivial
  have hwf := hlawful.arena.toWellFormed
  obtain ⟨hshares, -⟩ := sharesOn_of_later hs Arena.shares_empty
  refine ⟨fun os n => ⟨hwf.deferred os n, hshares.mirrored os n⟩, fun os n hn => ?_, ?_⟩
  · have hops := hwf.deferred os n hn
    exact ⟨fun t ht => (sharesOn_of_later ht hshares).2 os n hn,
      ⟨hshares.several os n hn, hwf.flat n os hops⟩,
      ⟨hshares.ascending os n hn, (hwf.operands n os hops).2⟩⟩
  · intro b hb os n hn
    obtain ⟨hsharesb, -⟩ := hb.sharesOn hshares
    refine ⟨fun c hc => (hc.sharesOn hsharesb).2 os n hn, fun x y htogether x' y' hx hy => ?_⟩
    have htogether' : b.Together os x' y' := ((htogether.standsIn hx).symm.standsIn hy).symm
    exact ⟨htogether'.givesBack hsharesb hn, htogether'.symm.givesBack hsharesb hn⟩

/-- A tree whose child has to be a tree and has to be described. -/
def describedTree : Json :=
  .obj [("allOf", .arr [
    .obj [("properties", .obj [("child", .obj [("$ref", .str "#")])])],
    .obj [("properties", .obj [("child", .obj [("description", .str "nested tree")])])]])]

/-- The session that has loaded it and worked out its normal form. -/
def describedTreeNormal : Session :=
  ((answer describedTree .marked 5 (.normalize 0)).run
    ((answer describedTree .marked 1 (.load .root)).run .empty).2).2

theorem reachable_describedTree : Reachable describedTree .marked describedTreeNormal :=
  .tail (.single (step_ask (.load .root) 1 (by simp [Request.ids])))
    (step_ask (.normalize 0) 5 (by decide +kernel))

/-- The tree is under normalization again. -/
def describedTreeUnderway : Arena :=
  { describedTreeNormal.arena with
    progress := describedTreeNormal.arena.progress.insert 0 .inProgress
    pending := [0] }

/-- The child is put off as schema 7. The tree and the child, or the child and schema 7, are put off
    as schema 7 once more. -/
theorem deferred_shared_describedTree :
    describedTreeNormal.arena.operands.get? 7 = some ⟨[0, 3]⟩ ∧
    (∀ solve place, (Arena.conjoinChildren solve 0 3 place).run describedTreeUnderway =
      (.ok (some 7), describedTreeUnderway)) ∧
    ∀ solve place, (Arena.conjoinChildren solve 3 7 place).run describedTreeUnderway =
      (.ok (some 7), describedTreeUnderway) := by
  obtain ⟨hmirror, -, hshared⟩ := deferred_shared reachable_describedTree
  have hentry : describedTreeNormal.arena.deferred.get? ⟨[0, 3]⟩ = some 7 := by decide +kernel
  have hops : describedTreeNormal.arena.operands.get? 7 = some ⟨[0, 3]⟩ := (hmirror _ _).1 hentry
  have hchanges : describedTreeNormal.arena.Changes describedTreeUnderway :=
    .single (.noted _ _ describedTreeNormal.arena.conjunctions)
  have htogether : describedTreeUnderway.Together ⟨[0, 3]⟩ 0 3 := by
    have h0 : (describedTreeUnderway.operandsOf 0).elements = [0] := by decide +kernel
    have h3 : (describedTreeUnderway.operandsOf 3).elements = [3] := by decide +kernel
    intro c
    simp [h0, h3]
  have hstands : describedTreeUnderway.StandsIn ⟨[0, 3]⟩ 0 7 := by
    have h0 : (describedTreeUnderway.operandsOf 0).elements = [0] := by decide +kernel
    exact .inr ⟨_, hops, fun c hc => hc, by simp [h0]⟩
  have hagain := (hshared _ hchanges _ _ hentry).2 _ _ htogether
  refine ⟨hops, fun solve place => ?_, fun solve place => ?_⟩
  · exact (hagain _ _ (.inl rfl) (.inl rfl)).1.children solve place (by decide) (by decide +kernel)
  · exact (hagain _ _ hstands (.inl rfl)).2.children solve place (by decide) (by decide +kernel)

end Session

end ApiModel
