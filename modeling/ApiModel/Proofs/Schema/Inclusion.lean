/-
  ApiModel.Proofs.Schema.Inclusion

  Demands on the parts of a value that are repeated. One schema includes another when for every part
  of a value where the second one has a demand the first one has one too, in a given relation to it.
  A conjunction includes both sides, and conjoining a schema with one that it includes changes no
  demand, as long as child schemas that speak for the same part give back the first of the two.
-/
import ApiModel.Proofs.Schema.Absorption
import ApiModel.Proofs.Schema.Parts

namespace ApiModel.Arena

variable {P : Json → Prop} {L : Law P} {t : Arena} {z c d : SchemaId} {s s' u own : Schema}
  {R : SchemaId → SchemaId → Prop} {e f : Option Extras} {k : String}

/-! ## Parts of a value -/

/-- The child schema that speaks for a property, by its name or for all that are not named. -/
def speaker? (s : Schema) (k : String) : Option SchemaId :=
  (s.properties.get? k).or (extraSchema? s)

/-- What `f` asks of unnamed properties, `e` asks already. -/
inductive ExtrasIncluded (R : SchemaId → SchemaId → Prop) : Option Extras → Option Extras → Prop
  | free (e : Option Extras) : ExtrasIncluded R e none
  | closed (f : Option Extras) : ExtrasIncluded R (some (.allowed false)) f
  | matching {c d : SchemaId} (h : R c d) :
      ExtrasIncluded R (some (.matching c)) (some (.matching d))

/-- What `u` asks of the parts of a value, `s` asks already: the child schemas of `s` stand to those
    of `u` that speak for the same part as `R` says. -/
structure Includes (R : SchemaId → SchemaId → Prop) (s u : Schema) : Prop where
  items : ∀ d, u.items = some d → ∃ c, s.items = some c ∧ R c d
  extras : ExtrasIncluded R s.extras u.extras
  named : ∀ k c d, s.properties.get? k = some c → speaker? u k = some d → R c d
  /-- A property that only `s` names is not ruled out by `u`. -/
  unnamed : ∀ k c, s.properties.get? k = some c → u.properties.get? k = none → isClosed u = false
  /-- A property that only `u` names is ruled out by `s`. -/
  dropped : ∀ k d, s.properties.get? k = none → u.properties.get? k = some d → isClosed s = true

theorem extras_of_isClosed (h : isClosed s = true) : s.extras = some (.allowed false) :=
  eq_of_beq h

theorem Includes.facing (h : Includes R s u) (hf : Facing s u c d) : R c d := by
  cases hf with
  | items hc hd =>
      obtain ⟨c', hc', hR⟩ := h.items d hd
      cases hc.symm.trans hc'
      exact hR
  | property hc hd => exact h.named _ _ _ hc (by rw [speaker?, hd, Option.some_or])
  | leftExtra hc hk hd =>
      exact h.named _ _ _ hc (by rw [speaker?, hk, Option.none_or, extraSchema?_eq_some.2 hd])
  | rightExtra hk hc hd => cases hc.symm.trans (extras_of_isClosed (h.dropped _ _ hk hd))
  | extras hc hd =>
      have hextras := h.extras
      rw [hc, hd] at hextras
      cases hextras with
      | matching hR => exact hR

theorem Includes.congr (h : Includes R s u) (hs : SameParts s s') : Includes R s' u where
  items := hs.items ▸ h.items
  extras := hs.extras ▸ h.extras
  named k c d hc := h.named k c d ((hs.properties k).trans hc)
  unnamed k c hc := h.unnamed k c ((hs.properties k).trans hc)
  dropped k d hk hd := by
    have hclosed := h.dropped k d ((hs.properties k).trans hk) hd
    rwa [isClosed, hs.extras] at hclosed

/-! ## A conjunction includes its sides -/

section Sides

variable (hself : ∀ c, R c c)
  (hchild : ∀ c d z, Facing s u c d → ChildJoined L t c d (some z) → R z c ∧ R z d)
include hself hchild

theorem ItemsJoined.includes {i : Option SchemaId} (h : ItemsJoined L t s u (some i)) :
    (∀ c, s.items = some c → ∃ z, i = some z ∧ R z c) ∧
      ∀ d, u.items = some d → ∃ z, i = some z ∧ R z d := by
  generalize hr : some i = o at h
  cases h with
  | both hc hd hz =>
      obtain ⟨e, rfl, rfl⟩ := Option.map_eq_some_iff.1 hr.symm
      obtain ⟨hRc, hRd⟩ := hchild _ _ _ (.items hc hd) hz
      rw [hc, hd]
      exact ⟨by rintro _ ⟨⟩; exact ⟨_, rfl, hRc⟩, by rintro _ ⟨⟩; exact ⟨_, rfl, hRd⟩⟩
  | one hone =>
      cases hr
      refine ⟨fun c hc => ⟨c, by rw [hc, Option.some_or], hself c⟩, fun d hd => ⟨d, ?_, hself d⟩⟩
      rcases hone with h | h
      · rw [h, Option.none_or, hd]
      · cases h.symm.trans hd

omit hchild in
theorem extrasIncluded_self (he : e ≠ some (.allowed true)) : ExtrasIncluded R e e :=
  match e, he with
  | none, _ => .free none
  | some (.allowed false), _ => .closed _
  | some (.allowed true), he => absurd rfl he
  | some (.matching c), _ => .matching (hself c)

theorem ExtrasJoined.includes (h : ExtrasJoined L t s u e) (hs : s.extras ≠ some (.allowed true))
    (hu : u.extras ≠ some (.allowed true)) :
    ExtrasIncluded R e s.extras ∧ ExtrasIncluded R e u.extras := by
  cases h with
  | left hfree =>
      rw [hfree.resolve_right hs]
      exact ⟨.free _, extrasIncluded_self hself hu⟩
  | right hfree =>
      rw [hfree.resolve_right hu]
      exact ⟨extrasIncluded_self hself hs, .free _⟩
  | closed _ => exact ⟨.closed _, .closed _⟩
  | @both c d o hc hd hz =>
      cases o with
      | none => exact ⟨.closed _, .closed _⟩
      | some z =>
          obtain ⟨hRc, hRd⟩ := hchild c d z (.extras hc hd) hz
          rw [hc, hd]
          exact ⟨.matching hRc, .matching hRd⟩

theorem PropertyJoined.includes (h : PropertyJoined L t s u k (some z)) :
    (∀ c, speaker? s k = some c → R z c) ∧ ∀ d, speaker? u k = some d → R z d := by
  have hmatching : ∀ {v : Schema} {e}, v.extras = some (.matching e) → extraSchema? v = some e :=
    fun he => extraSchema?_eq_some.2 he
  unfold speaker?
  generalize hr : some z = o at h
  cases h with
  | both hc hd hz =>
      subst hr
      obtain ⟨hRc, hRd⟩ := hchild _ _ _ (.property hc hd) hz
      rw [hc, hd]
      exact ⟨by rintro _ ⟨⟩; exact hRc, by rintro _ ⟨⟩; exact hRd⟩
  | leftExtra hc hk hd hz =>
      subst hr
      obtain ⟨hRc, hRd⟩ := hchild _ _ _ (.leftExtra hc hk hd) hz
      rw [hc, hk, hmatching hd]
      exact ⟨by rintro _ ⟨⟩; exact hRc, by rintro _ ⟨⟩; exact hRd⟩
  | left hc hk hd =>
      cases hr
      rw [hc, hk, hd]
      exact ⟨by rintro _ ⟨⟩; exact hself z, by rintro _ ⟨⟩⟩
  | rightExtra hk hd hc hz =>
      subst hr
      obtain ⟨hRc, hRd⟩ := hchild _ _ _ (.rightExtra hk hc hd) hz
      rw [hd, hk, hmatching hc]
      exact ⟨by rintro _ ⟨⟩; exact hRc, by rintro _ ⟨⟩; exact hRd⟩
  | right hk hd hc =>
      cases hr
      rw [hd, hk, hc]
      exact ⟨by rintro _ ⟨⟩, by rintro _ ⟨⟩; exact hself z⟩

omit hself hchild in
/-- A name that a side has and the conjunction has not is ruled out by the conjunction. -/
theorem isClosed_of_dropped {p : Dict String SchemaId} (he : ExtrasJoined L t s u e)
    (hp : PropertiesJoined L t s u (mergedKeys s u) .empty (some p)) (hk : p.get? k = none)
    (hnamed : s.properties.contains k = true ∨ u.properties.contains k = true) :
    e = some (.allowed false) := by
  refine he.isClosed ?_
  by_contra hopen
  rw [not_or] at hopen
  have hmem : k ∈ mergedKeys s u :=
    mem_mergedKeys.2 ⟨hnamed, fun h => absurd h hopen.1, fun h => absurd h hopen.2⟩
  obtain ⟨z, hz, -⟩ := hp.named hmem
  cases hk.symm.trans hz

/-- A conjunction includes both sides. -/
theorem OwnJoined.includes (h : OwnJoined L t s u own) (hs : s.extras ≠ some (.allowed true))
    (hu : u.extras ≠ some (.allowed true)) : Includes R own s ∧ Includes R own u := by
  cases h with
  | @mk _ i e p _ hi he hp =>
  obtain ⟨hitems, hitemu⟩ := hi.includes hself hchild
  obtain ⟨hextras, hextrau⟩ := he.includes hself hchild hs hu
  have hproperty : ∀ {k z}, p.get? k = some z → _ ∧ _ := fun hz =>
    (hp.joined hz).2.includes hself hchild
  have hdropped : ∀ {k}, p.get? k = none → _ → (e == some (.allowed false)) = true := fun hk h =>
    beq_of_eq (isClosed_of_dropped he hp hk h)
  -- a name of the conjunction is one of each closed side
  have hclosed : ∀ {k z}, p.get? k = some z →
      (isClosed s = true → s.properties.contains k = true) ∧
        (isClosed u = true → u.properties.contains k = true) := fun hz =>
    (mem_mergedKeys.1 (hp.joined hz).1).2
  have hopen : ∀ {v : Schema} {k}, (isClosed v = true → v.properties.contains k = true) →
      v.properties.get? k = none → isClosed v = false := by
    intro v k h hk
    rw [Dict.contains, hk] at h
    refine Bool.eq_false_iff.2 fun hc => ?_
    cases h hc
  exact ⟨⟨hitems, hextras, fun _ _ c hz => (hproperty hz).1 c,
      fun _ _ hz => hopen (hclosed hz).1,
      fun _ _ hk hc => hdropped hk (.inl (Dict.contains_of_get? hc))⟩,
    ⟨hitemu, hextrau, fun _ _ d hz => (hproperty hz).2 d,
      fun _ _ hz => hopen (hclosed hz).2,
      fun _ _ hk hd => hdropped hk (.inr (Dict.contains_of_get? hd))⟩⟩

end Sides

/-! ## Conjoined with what is included -/

section Again

variable (hincludes : Includes R s u)
  (hchild : ∀ c d z, Facing s u c d → ChildJoined L t c d z → z = some c)
include hincludes hchild

theorem ItemsJoined.eq_left {i : Option SchemaId} (h : ItemsJoined L t s u (some i)) :
    i = s.items := by
  generalize hr : some i = o at h
  cases h with
  | both hc hd hz =>
      obtain rfl := hchild _ _ _ (.items hc hd) hz
      cases hr
      exact hc.symm
  | one _ =>
      cases hr
      cases hu : u.items with
      | none => exact Option.or_none
      | some d =>
          obtain ⟨c, hc, -⟩ := hincludes.items d hu
          rw [hc, Option.some_or]

theorem ExtrasJoined.eq_left (h : ExtrasJoined L t s u e) (hs : s.extras ≠ some (.allowed true)) :
    e = s.extras := by
  have hextras := hincludes.extras
  cases h with
  | left hfree =>
      rw [hfree.resolve_right hs] at hextras ⊢
      generalize hu : u.extras = f at hextras
      cases hextras
      rfl
  | right _ => rfl
  | closed hclosed =>
      rcases hclosed with h | h
      · exact (extras_of_isClosed h).symm
      · rw [extras_of_isClosed h] at hextras
        generalize s.extras = e at hextras
        cases hextras
        rfl
  | both hc hd hz =>
      obtain rfl := hchild _ _ _ (.extras hc hd) hz
      exact hc.symm

theorem PropertyJoined.eq_left (h : PropertyJoined L t s u k (some c)) (hk : k ∈ mergedKeys s u) :
    s.properties.get? k = some c := by
  generalize hr : some c = o at h
  cases h with
  | both hx hy hz =>
      obtain rfl := hchild _ _ _ (.property hx hy) hz
      exact hx
  | leftExtra hx hk' he hz =>
      obtain rfl := hchild _ _ _ (.leftExtra hx hk' he) hz
      exact hx
  | left hx _ _ => exact hx
  -- the left side rules out what it does not name
  | rightExtra hk' hy he _ =>
      cases he.symm.trans (extras_of_isClosed (hincludes.dropped k _ hk' hy))
  | right hk' hy _ =>
      have hcontains := (mem_mergedKeys.1 hk).2.1 (hincludes.dropped k _ hk' hy)
      simp [Dict.contains, hk'] at hcontains

omit hchild in
/-- What the left side names is merged. -/
theorem mem_mergedKeys_of_get? (h : s.properties.get? k = some c) : k ∈ mergedKeys s u := by
  have hnamed := Dict.contains_of_get? h
  refine mem_mergedKeys.2 ⟨.inl hnamed, fun _ => hnamed, fun hclosed => ?_⟩
  cases hy : u.properties.get? k with
  | none => cases (hincludes.unnamed k c h hy).symm.trans hclosed
  | some d => exact Dict.contains_of_get? hy

theorem PropertiesJoined.eq_left {p : Dict String SchemaId}
    (h : PropertiesJoined L t s u (mergedKeys s u) .empty (some p)) (k : String) :
    p.get? k = s.properties.get? k := by
  by_cases hk : k ∈ mergedKeys s u
  · obtain ⟨c, hc, hj⟩ := h.named hk
    rw [hc, hj.eq_left hincludes hchild hk]
  · rw [h.unnamed hk]
    refine (Option.eq_none_iff_forall_ne_some.2 fun c hc => ?_).symm
    exact hk (mem_mergedKeys_of_get? hincludes hc)

/-- Where the left side includes the right one and repeats the rest, and facing child schemas give
    the left one again, the conjunction has the demands of the left side. -/
theorem OwnJoined.sameDemands_left (h : OwnJoined L t s u own) (hrepeats : Repeats s u)
    (hs : s.extras ≠ some (.allowed true)) (hkeys : s.properties.keys.Nodup) :
    own.sameDemands s = true := by
  refine sameDemands_iff.2 ⟨h.whole.trans hrepeats, ?_⟩
  cases h with
  | mk _ hi he hp =>
      exact ⟨hi.eq_left hincludes hchild, he.eq_left hincludes hchild hs,
        Dict.sameEntries_of_get? hp.keys_nodup hkeys (hp.eq_left hincludes hchild)⟩

end Again

/-- What a schema that demands nothing repeats and includes demands nothing. -/
theorem isUnconstrained_of_includes (hs : s.isUnconstrained = true)
    (hkeys : s.properties.keys.Nodup) (hrepeats : Repeats s u) (hincludes : Includes R s u)
    (hukeys : u.properties.keys.Nodup) (hmembers : u.members = []) : u.isUnconstrained = true := by
  have hblank := hincludes.congr (sameShape_of_isUnconstrained hs hkeys).toSameParts
  refine hrepeats.unconstrained hs ?_ ?_ ?_ hmembers
  · refine Option.eq_none_iff_forall_ne_some.2 fun d hd => ?_
    obtain ⟨c, hc, -⟩ := hblank.items d hd
    cases hc
  · have hextras := hblank.extras
    generalize u.extras = e at hextras
    cases hextras
    rfl
  · refine Dict.sameEntries_of_get? hukeys List.nodup_nil fun k => ?_
    refine Option.eq_none_iff_forall_ne_some.2 fun d hd => ?_
    cases hblank.dropped k d rfl hd

end ApiModel.Arena
