/-
  ApiModel.Proofs.Schema.Chaining

  Repeated demands, chained. A normal form without alternatives repeats and includes itself, and what
  repeats and includes a second schema does so with everything that the second one repeats and
  includes. So to absorb is a preorder on the strict normal forms: a chain of conjunctions absorbs
  whatever went into the first of them.
-/
import ApiModel.Proofs.Schema.Repetition

namespace ApiModel

theorem KindSet.inter_chain {ks js ls : KindSet} (h : ks.inter js = ks) (h' : js.inter ls = js) :
    ks.inter ls = ks := by
  refine KindSet.ext fun k => ?_
  have hk := congrArg (KindSet.contains · k) h
  have hj := congrArg (KindSet.contains · k) h'
  simp only [contains_inter] at hk hj ⊢
  grind

namespace Arena

/-! ## One keyword -/

section Keyword

variable {α : Type} [BEq α] [ReflBEq α] {lt : α → α → Bool} {x y z : Option α}

theorem beq_larger_self : (larger lt x x == x) = true := by
  cases x with
  | none => exact BEq.refl _
  | some v => simp [larger]

/-- A bound that is the larger one of two, the smaller one of which is again the larger one of two,
    is the larger one of the first and the last. -/
theorem larger_chain (rank : α → ℤ) (hlt : ∀ v w, lt v w = true ↔ rank v < rank w)
    (heq : ∀ v w, (v == w) = true → rank v = rank w) (h : (larger lt x y == x) = true)
    (h' : (larger lt y z == y) = true) : (larger lt x z == x) = true := by
  have kept : ∀ {v w : α}, (larger lt (some v) (some w) == some v) = true → rank w ≤ rank v := by
    intro v w h
    by_contra hvw
    rw [larger, if_pos ((hlt v w).2 (not_le.1 hvw)), Option.some_beq_some] at h
    exact hvw (heq w v h).le
  cases z with
  | none => cases x <;> simp [larger]
  | some w =>
      cases y with
      | none => simp [larger] at h'
      | some v =>
          cases x with
          | none => simp [larger] at h
          | some u =>
              have hle := (kept h').trans (kept h)
              rw [larger, if_neg fun huw => hle.not_gt ((hlt u w).1 huw)]
              exact BEq.refl _

theorem or_chain (h : (x.or y == x) = true) (h' : (y.or z == y) = true) :
    (x.or z == x) = true := by
  cases x with
  | some v => exact BEq.refl _
  | none => cases y <;> cases z <;> simp at h h' ⊢

end Keyword

/-! ## Listed values -/

section Values

variable {x y z : Option (List Json)}

theorem among_of_common (hx : Plainly x) (h : (commonValues x y == x) = true) : Among x y := by
  rintro ws rfl
  cases x with
  | none => cases h
  | some us =>
      refine ⟨us, rfl, fun u hu => ?_⟩
      have hud := hx us rfl u hu
      -- what the two have in common lists the same as the left side
      obtain ⟨v, hv, hvu⟩ := (listed_of_beq (v := u) h
        (fun v hv => hx us rfl v (List.mem_filter.1 hv).1) (hx us rfl)).2 ⟨u, hu, hud.same_refl⟩
      obtain ⟨hmem, hany⟩ := List.mem_filter.1 hv
      obtain ⟨w, hw, hvw⟩ := List.any_eq_true.1 hany
      have hvd := hx us rfl v hmem
      exact ⟨w, hw, hud.same_trans (hvd.same_symm hud hvu) hvw⟩

theorem Among.chain (hx : Plainly x) (h : Among x y) (h' : Among y z) : Among x z := by
  intro ws hws
  obtain ⟨vs, rfl, hvs⟩ := h' ws hws
  obtain ⟨us, rfl, hus⟩ := h vs rfl
  refine ⟨us, rfl, fun u hu => ?_⟩
  obtain ⟨v, hv, huv⟩ := hus u hu
  obtain ⟨w, hw, hvw⟩ := hvs v hv
  exact ⟨w, hw, (hx us rfl u hu).same_trans huv hvw⟩

end Values

/-! ## All keywords -/

section Repeats

variable {n : ℕ} {s u w : Schema}

theorem flag_chain {p q r : Bool} (h : ((p || q) == p) = true) (h' : ((q || r) == q) = true) :
    ((p || r) == p) = true := by
  revert h h'
  cases p <;> cases q <;> cases r <;> decide

/-- A normal form makes its own demands. -/
theorem repeats_self (hs : s.IsNormal) (hany : s.anyOf = []) (hp : s.Proper Json.Distinct n) :
    Repeats s s := by
  obtain ⟨ks, hks⟩ := Option.ne_none_iff_exists'.1 hs.kinds
  have hinter : ks.inter ks = ks := KindSet.ext fun k => by
    rw [KindSet.contains_inter, Bool.and_self]
  have hvalues : commonValues s.values s.values = s.values := by
    refine commonValues_of_among fun vs hvs => ⟨vs, hvs, fun v hv => ?_⟩
    exact ⟨v, hv, (hp.values vs hvs v hv).same_refl⟩
  have hrequired := SortedSet.union_of_subset hp.required fun _ hk => hk
  unfold Repeats
  simp only [Schema.sameDemands, together, joinKeywords, Arena.whole, Schema.blank,
    smaller_eq_larger, beq_larger_self, Option.or_self, Bool.or_self, hks, Option.getD_some, hinter,
    hvalues, beq_values hp.values, hrequired, hs.allOf, hany, hs.oneOf, BEq.refl, Bool.and_self]
  rfl

/-- What makes the demands of a second schema makes those that the second one makes of a third. -/
theorem Repeats.chain (hs : s.Proper Json.Distinct n) (hu : u.Proper Json.Distinct n)
    (h : Repeats s u) (h' : Repeats u w) : Repeats s w := by
  have upper : ∀ v w : Binary64, v.lt w = true ↔ v.value < w.value := fun _ _ =>
    Binary64.lt_iff_value_lt
  have lower : ∀ v w : Binary64, w.lt v = true ↔ -v.value < -w.value := fun v w =>
    (upper w v).trans neg_lt_neg_iff.symm
  have value : ∀ v w : Binary64, (v == w) = true → v.value = w.value := fun _ _ h => eq_of_beq h
  have most : ∀ m k : ℕ, countLt m k = true ↔ (m : ℤ) < k := fun m k => by simp [countLt]
  have least : ∀ m k : ℕ, countLt k m = true ↔ -(m : ℤ) < -k := fun m k => by simp [countLt]
  have count : ∀ m k : ℕ, (m == k) = true → (m : ℤ) = k := fun _ _ h => by rw [eq_of_beq h]
  unfold Repeats at h h' ⊢
  simp only [Schema.sameDemands, together, joinKeywords, Arena.whole, Schema.blank,
    smaller_eq_larger, Bool.and_eq_true, and_assoc] at h h' ⊢
  obtain ⟨kinds, values, gt, ge, lt, le, multipleOf, minLength, maxLength, pattern, format, items,
    minItems, maxItems, uniqueItems, properties, required, extras, minProperties, maxProperties,
    allOf, anyOf, oneOf, readOnly, writeOnly⟩ := h
  obtain ⟨kinds', values', gt', ge', lt', le', multipleOf', minLength', maxLength', pattern',
    format', -, minItems', maxItems', uniqueItems', -, required', -, minProperties',
    maxProperties', -, -, -, readOnly', writeOnly'⟩ := h'
  refine ⟨?kinds, ?values, larger_chain _ upper value gt gt', larger_chain _ upper value ge ge',
    larger_chain _ lower (fun v w h => congrArg _ (value v w h)) lt lt',
    larger_chain _ lower (fun v w h => congrArg _ (value v w h)) le le',
    or_chain multipleOf multipleOf', larger_chain _ most count minLength minLength',
    larger_chain _ least (fun v w h => congrArg _ (count v w h)) maxLength maxLength',
    or_chain pattern pattern', or_chain format format', items,
    larger_chain _ most count minItems minItems',
    larger_chain _ least (fun v w h => congrArg _ (count v w h)) maxItems maxItems',
    flag_chain uniqueItems uniqueItems', properties, ?required, extras,
    larger_chain _ most count minProperties minProperties',
    larger_chain _ least (fun v w h => congrArg _ (count v w h)) maxProperties maxProperties',
    allOf, anyOf, oneOf, flag_chain readOnly readOnly', flag_chain writeOnly writeOnly'⟩
  case kinds =>
    have hinter : (s.kinds.getD .full).inter (u.kinds.getD .full) = s.kinds.getD .full :=
      congrArg (Option.getD · KindSet.full) (eq_of_beq kinds)
    have hinter' : (u.kinds.getD .full).inter (w.kinds.getD .full) = u.kinds.getD .full :=
      congrArg (Option.getD · KindSet.full) (eq_of_beq kinds')
    rw [KindSet.inter_chain hinter hinter', ← hinter]
    exact kinds
  case values =>
    have hamong := (among_of_common hs.values values).chain hs.values
      (among_of_common hu.values values')
    rw [commonValues_of_among hamong]
    exact beq_values hs.values
  case required =>
    have hsub := eq_of_beq required
    have hsub' := eq_of_beq required'
    refine beq_of_eq (SortedSet.union_of_subset hs.required fun k hk => ?_)
    have hku : k ∈ u.required.elements := by
      rw [← hsub']
      exact SortedSet.mem_union.2 (.inr hk)
    rw [← hsub]
    exact SortedSet.mem_union.2 (.inr hku)

end Repeats

/-! ## Parts of a value -/

section Includes

variable {R R' : SchemaId → SchemaId → Prop} {s u w : Schema} {e f g : Option Extras}

theorem ExtrasIncluded.chain (h : ExtrasIncluded R e f) (h' : ExtrasIncluded R' f g) :
    ExtrasIncluded (Relation.Comp R R') e g := by
  cases h' with
  | free _ => exact .free e
  | closed _ =>
      cases h
      exact .closed g
  | matching hR' =>
      cases h with
      | closed _ => exact .closed _
      | matching hR => exact .matching ⟨_, hR, hR'⟩

/-- What is closed is included by what is closed only. -/
theorem isClosed_of_included (h : ExtrasIncluded R s.extras u.extras) (hu : isClosed u = true) :
    isClosed s = true := by
  rw [extras_of_isClosed hu] at h
  unfold isClosed
  generalize s.extras = e at h
  cases h
  rfl

theorem includes_self (hself : ∀ c, R c c) (he : s.extras ≠ some (.allowed true)) :
    Includes R s s where
  items d hd := ⟨d, hd, hself d⟩
  extras := extrasIncluded_self hself he
  named k c d hc hd := by
    rw [speaker?, hc, Option.some_or] at hd
    cases hd
    exact hself c
  unnamed k c hc hk := nomatch hc.symm.trans hk
  dropped k d hk hd := nomatch hk.symm.trans hd

/-- What a property of a schema is asked by a third one, the second one asks of it too. -/
theorem Includes.exists_speaker {k : String} {c d : SchemaId} (h : Includes R s u)
    (h' : Includes R' u w) (hc : s.properties.get? k = some c) (hd : speaker? w k = some d) :
    ∃ m, speaker? u k = some m ∧ R' m d := by
  cases hu : u.properties.get? k with
  | some m => exact ⟨m, by rw [speaker?, hu, Option.some_or], h'.named k m d hu hd⟩
  | none =>
      -- what the second one does not name it does not rule out, so it has a schema for it
      have hopen := h.unnamed k c hc hu
      cases hw : w.properties.get? k with
      | some d' => cases (h'.dropped k d' hu hw).symm.trans hopen
      | none =>
          rw [speaker?, hw, Option.none_or, extraSchema?_eq_some] at hd
          have hextras := h'.extras
          rw [hd] at hextras
          generalize he : u.extras = e at hextras
          cases hextras with
          | closed _ => cases (beq_of_eq he : isClosed u = true).symm.trans hopen
          | matching hR' =>
              exact ⟨_, by rw [speaker?, hu, Option.none_or, extraSchema?_eq_some, he], hR'⟩

theorem Includes.chain (h : Includes R s u) (h' : Includes R' u w) :
    Includes (Relation.Comp R R') s w where
  items d hd := by
    obtain ⟨m, hm, hR'⟩ := h'.items d hd
    obtain ⟨c, hc, hR⟩ := h.items m hm
    exact ⟨c, hc, m, hR, hR'⟩
  extras := h.extras.chain h'.extras
  named k c d hc hd := by
    obtain ⟨m, hm, hR'⟩ := h.exists_speaker h' hc hd
    exact ⟨m, h.named k c m hc hm, hR'⟩
  unnamed k c hc hw := by
    cases hu : u.properties.get? k with
    | some m => exact h'.unnamed k m hu hw
    | none =>
        refine Bool.eq_false_iff.2 fun hclosed => ?_
        cases (isClosed_of_included h'.extras hclosed).symm.trans (h.unnamed k c hc hu)
  dropped k d hk hd := by
    cases hu : u.properties.get? k with
    | some m => exact h.dropped k m hk hu
    | none => exact isClosed_of_included h.extras (h'.dropped k d hu hd)

end Includes

/-! ## Normal forms -/

section Absorbs

variable {a : Arena} {x y z : SchemaId} {p : Pointer}

/-- A chain of normal forms that absorb the next one. -/
theorem Absorbs.chain (ha : a.WellFormed Json.Distinct) (hz : a.IsForm z) (h : a.Absorbs x y)
    (h' : a.Absorbs y z) : a.Absorbs x z := by
  induction h generalizing z with
  | same _ => exact h'
  | free hany hfree =>
      -- what is absorbed by a schema that demands nothing demands nothing
      refine .free hany ?_
      cases h' with
      | same _ => exact hfree
      | free _ hz => exact hz
      | demands _ hstrict hwhole hparts _ _ =>
          have hmembers : (a.schema z).members = [] := by
            simp [Schema.members, (ha.normal z hz).1.allOf, hstrict.anyOf, hstrict.oneOf]
          exact isUnconstrained_of_includes hfree (ha.proper _).keys hwhole hparts
            (ha.proper z).keys hmembers
  | @demands x y R hx hy hwhole hparts hdone hforms ih =>
      cases h' with
      | same _ => exact .demands hx hy hwhole hparts hdone hforms
      | free _ hz => exact .free hx.anyOf hz
      | demands _ hstrict hwhole' hparts' hdone' hforms' =>
          refine .demands hx hstrict (hwhole.chain (ha.proper x) (ha.proper y) hwhole')
            (hparts.chain hparts') ?_ ?_
          -- between two child schemas stands a third one, which may be either of them
          · rintro c e ⟨d, hR, hR'⟩ hne
            by_cases hcd : c = d
            · subst hcd
              exact hdone' c e hR' hne
            obtain ⟨fc, fd, hfc, hfd⟩ := hdone c d hR hcd
            by_cases hde : d = e
            · subst hde
              exact ⟨fc, fd, hfc, hfd⟩
            obtain ⟨_, fe, -, hfe⟩ := hdone' d e hR' hde
            exact ⟨fc, fe, hfc, hfe⟩
          · rintro c e fc fe ⟨d, hR, hR'⟩ hne hfc hfe
            by_cases hcd : c = d
            · subst hcd
              exact hforms' c e fc fe hR' hne hfc hfe
            by_cases hde : d = e
            · subst hde
              exact hforms c d fc fe hR hcd hfc hfe
            obtain ⟨fd, _, hfd, -⟩ := hdone' d e hR' hde
            exact ih c d fc fd hR hcd hfc hfd (ha.form _ _ hfe)
              (hforms' d e fd fe hR' hde hfd hfe)

/-- It makes no difference where the schema that is absorbed is located. -/
theorem Absorbs.relocate (ha : a.WellFormed Json.Distinct) (hy : a.IsForm y)
    (hstrict : (a.schema y).Strict) (hz : a.schema z = { a.schema y with pointer := p })
    (h : a.Absorbs x y) : a.Absorbs x z := by
  have hstrict' : (a.schema z).Strict := by
    rw [hz]
    exact ⟨hstrict.anyOf, hstrict.oneOf, hstrict.extras⟩
  have hincludes : ∀ {R s}, Includes R s (a.schema y) → Includes R s (a.schema z) := fun h => by
    rw [hz]
    exact ⟨h.items, h.extras, h.named, h.unnamed, h.dropped⟩
  have hrepeats : ∀ {s}, Repeats s (a.schema y) → Repeats s (a.schema z) := fun h => by
    rw [hz]
    exact h
  cases h with
  | same _ =>
      -- the two have the same child schemas
      have hself := repeats_self (ha.normal x hy).1 hstrict.anyOf (ha.proper x)
      exact .demands (R := Eq) hstrict hstrict' (hrepeats hself)
        (hincludes (includes_self (fun _ => rfl) hstrict.extras))
        (fun _ _ heq hne => absurd heq hne) fun _ _ _ _ heq hne => absurd heq hne
  | free hany hfree =>
      refine .free hany ?_
      rw [hz]
      exact hfree
  | demands hx _ hwhole hparts hdone hforms =>
      exact .demands hx hstrict' (hrepeats hwhole) (hincludes hparts) hdone hforms

end Absorbs

end Arena

end ApiModel
