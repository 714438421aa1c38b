/-
  ApiModel.Proofs.Schema.Access

  Access flags. A conjunction has the flags of both sides, unless a side demands nothing else: such a
  side is dropped with its flags. So a flag reaches the field of a property when the schema of the
  property has it, or when a schema that this one is a conjunction of has it along with demands of
  its own.
-/
import ApiModel.Proofs.Schema.Offer
import ApiModel.Proofs.Schema.Plain
import ApiModel.Proofs.Schema.Unconstrained

namespace ApiModel

/-- The two access flags. -/
inductive Access where
  | readOnly
  | writeOnly

namespace Access

/-- Whether a schema has the flag. -/
def onSchema : Access → Schema → Bool
  | readOnly, s => s.readOnly
  | writeOnly, s => s.writeOnly

/-- Whether a field has the flag. -/
def onField : Access → Client.Field → Bool
  | readOnly, f => f.readOnly
  | writeOnly, f => f.writeOnly

theorem onSchema_of_sameDemands {s s' : Schema} (h : s.sameDemands s' = true) (f : Access) :
    f.onSchema s = f.onSchema s' := by
  unfold Schema.sameDemands at h
  simp only [Bool.and_eq_true, and_assoc] at h
  obtain ⟨-, -, -, -, -, -, -, -, -, -, -, -, -, -, -, -, -, -, -, -, -, -, -, readOnly,
    writeOnly⟩ := h
  cases f with
  | readOnly => exact eq_of_beq readOnly
  | writeOnly => exact eq_of_beq writeOnly

end Access

namespace Arena

variable {P : Json → Prop} {f : Access} {a b : Arena} {x y n m c own : SchemaId}
  {s u out : Schema}

/-! ## Flags that a conjunction keeps -/

/-- The normal form `n` has the flag along with other demands, and so has every alternative. -/
inductive Marked (f : Access) (a : Arena) : SchemaId → Prop
  | intro {n : SchemaId} (flag : f.onSchema (a.schema n) = true)
      (demands : ¬(a.schema n).Unconstrained) (branches : ∀ c ∈ (a.schema n).anyOf, Marked f a c) :
      Marked f a n

theorem Marked.flag (h : Marked f a n) : f.onSchema (a.schema n) = true := by
  cases h with
  | intro flag _ _ => exact flag

theorem Marked.demands (h : Marked f a n) : ¬(a.schema n).Unconstrained := by
  cases h with
  | intro _ demands _ => exact demands

theorem Marked.branch (h : Marked f a n) (hc : c ∈ (a.schema n).anyOf) : Marked f a c := by
  cases h with
  | intro _ _ branches => exact branches c hc

theorem Marked.side (h : Marked f a n) (hc : c ∈ a.sides n) : Marked f a c := by
  unfold sides at hc
  split at hc
  · rw [List.mem_singleton] at hc
    exact hc ▸ h
  · exact h.branch hc

/-- The schema `x`, or one that it is a conjunction of, has the flag along with demands of its own.
    A schema that only narrows the kinds of its one member has none; and of a normal form with
    alternatives nothing is known about these. -/
inductive Declares (f : Access) (a : Arena) : SchemaId → Prop
  | own {x : SchemaId} (flag : f.onSchema (a.schema x) = true)
      (child : (a.schema x).soleChild? = none)
      (demands : ¬(a.schema x).withoutCombinators.Unconstrained)
      (raw : ¬a.IsForm x ∨ (a.schema x).anyOf = []) : Declares f a x
  | member {x m : SchemaId} (hm : m ∈ (a.schema x).allOf) (h : Declares f a m) : Declares f a x

/-- The flag is passed on by the schema `x`: along with demands of its own, or alone where nothing
    is conjoined with it. -/
inductive Passes (f : Access) (a : Arena) : SchemaId → Prop
  | declared {x : SchemaId} (h : Declares f a x) : Passes f a x
  | alone {x : SchemaId} (flag : f.onSchema (a.schema x) = true)
      (members : (a.schema x).members = []) : Passes f a x
  | sole {x c : SchemaId} (child : (a.schema x).soleChild? = some c)
      (hc : c ∈ (a.schema x).allOf) (kinds : (a.schema x).kinds = none) (h : Passes f a c) :
      Passes f a x

section Growth

variable (ha : a.WellFormed P) (h : Grows a b)
include ha h

theorem marked_of_grows (hx : x < a.next) : Marked f b x ↔ Marked f a x := by
  constructor
  · intro hb
    induction hb with
    | intro flag demands _ ih =>
        rw [h.schema _ hx] at flag demands ih
        exact .intro flag demands fun c hc => ih c hc (ha.anyOf_lt hc)
  · intro hm
    induction hm with
    | intro flag demands branches ih =>
        rw [← h.schema _ hx] at flag demands
        refine .intro flag demands fun c hc => ?_
        rw [h.schema _ hx] at hc
        exact ih c hc (ha.anyOf_lt hc)

theorem Declares.mono (hx : x < a.next) (hd : Declares f a x) : Declares f b x := by
  induction hd with
  | own flag child demands raw =>
      rw [← h.schema _ hx] at flag child demands raw
      exact .own flag child demands (raw.imp_left fun hraw hform => hraw (h.isForm _ hx hform))
  | member hm _ ih =>
      have hd := ih (ha.allOf_lt hm)
      rw [← h.schema _ hx] at hm
      exact .member hm hd

theorem Declares.of_grows (hx : x < a.next) (hd : Declares f b x) : Declares f a x := by
  induction hd with
  | own flag child demands raw =>
      rw [h.schema _ hx] at flag child demands raw
      exact .own flag child demands (raw.imp_left fun hraw hform => hraw (h.form hform))
  | member hm _ ih =>
      rw [h.schema _ hx] at hm
      exact .member hm (ih (ha.allOf_lt hm))

theorem Passes.mono (hx : x < a.next) (hp : Passes f a x) : Passes f b x := by
  induction hp with
  | declared hd => exact .declared (hd.mono ha h hx)
  | alone flag members =>
      rw [← h.schema _ hx] at flag members
      exact .alone flag members
  | sole child hc kinds _ ih =>
      have hp := ih (ha.allOf_lt hc)
      rw [← h.schema _ hx] at child hc kinds
      exact .sole child hc kinds hp

theorem Passes.of_grows (hx : x < a.next) (hp : Passes f b x) : Passes f a x := by
  induction hp with
  | declared hd => exact .declared (hd.of_grows ha h hx)
  | alone flag members =>
      rw [h.schema _ hx] at flag members
      exact .alone flag members
  | sole child hc kinds _ ih =>
      rw [h.schema _ hx] at child hc kinds
      exact .sole child hc kinds (ih (ha.allOf_lt hc))

end Growth

/-! ## The law -/

/-- What a schema declares, its normal form is marked with, and what it passes on, its normal form
    has. A conjunction is marked with what one side is marked with. -/
def flagging (P : Json → Prop) : Law P where
  form a id r := ∀ n, r = some n → ∀ f, (Declares f a id → Marked f a n) ∧
    (Passes f a id → f.onSchema (a.schema n) = true)
  both a x y r := ∀ n, r = some n → ∀ f, Marked f a x ∨ Marked f a y → Marked f a n
  form_mono ha _ h hid hr hlaw n hn f := by
    have hlt := ha.isForm_lt (hr n hn)
    rw [marked_of_grows ha h hlt, h.schema n hlt]
    obtain ⟨hmarked, hflag⟩ := hlaw n hn f
    exact ⟨fun hd => hmarked (hd.of_grows ha h hid), fun hp => hflag (hp.of_grows ha h hid)⟩
  both_mono ha _ h hx hy hr hlaw n hn f := by
    rw [marked_of_grows ha h (ha.isForm_lt hx), marked_of_grows ha h (ha.isForm_lt hy),
      marked_of_grows ha h (ha.isForm_lt (hr n hn))]
    exact hlaw n hn f
  form_self {a m} ha hm n hn f := by
    cases hn
    -- a normal form is no conjunction, so it can only declare what it has itself
    obtain ⟨hnormal, -⟩ := ha.normal m hm
    have hdeclares : Declares f a m → Marked f a m := by
      intro hd
      cases hd with
      | own flag _ demands raw =>
          have hany := raw.resolve_left fun hraw => hraw hm
          exact .intro flag (fun hfree => demands hfree.withoutCombinators) (by simp [hany])
      | member hc _ => simp [hnormal.allOf] at hc
    refine ⟨hdeclares, fun hp => ?_⟩
    cases hp with
    | declared hd => exact (hdeclares hd).flag
    | alone flag _ => exact flag
    | sole _ hc _ _ => simp [hnormal.allOf] at hc
  both_self _ _ n hn f h := by
    cases hn
    exact h.elim id id

/-! ## Conjunctions -/

/-- The normal form of `x`, if it has one, is marked. -/
def FormMarked (f : Access) (a : Arena) (x : SchemaId) : Prop :=
  ∀ n, a.progress.get? x = some (.done (some n)) → Marked f a n

theorem FormMarked.of_declares (ha : a.Lawful (flagging P)) (h : Declares f a x) :
    FormMarked f a x :=
  fun n hn => (ha.forms x _ hn n rfl f).1 h

theorem Marked.formMarked (h : Marked f a n) (hn : a.IsForm n) : FormMarked f a n := by
  intro m hm
  cases hn.symm.trans hm
  exact h

theorem Joined.marked (hj : Joined (flagging P) a x y (some n))
    (h : FormMarked f a x ∨ FormMarked f a y) : Marked f a n := by
  cases hj with
  | forms hx hy _ _ hlaw => exact hlaw n rfl f (h.imp (fun h => h _ hx) fun h => h _ hy)

theorem OwnJoined.onSchema {L : Law P} (h : OwnJoined L a s u out) (f : Access) :
    f.onSchema out = (f.onSchema s || f.onSchema u) := by
  cases h with
  | mk hk _ _ _ =>
      obtain ⟨place, m, p, g, rfl, -⟩ := hk
      cases f <;> rfl

theorem unconstrained_of_trimValues (h : (trimValues s).Unconstrained) : s.Unconstrained := by
  have hvalues : s.values = none := by
    have hnone := h.values
    unfold trimValues at hnone
    split at hnone
    · cases hnone
    · exact hnone
  obtain ⟨vs, hvs, -⟩ := trimValues_eq s
  rw [hvs] at h
  exact { h with values := hvalues }

theorem Stored.marked (h : Stored a out (some n)) (hflag : f.onSchema out = true)
    (hdemands : ¬out.Unconstrained) (hbranches : ∀ c ∈ out.anyOf, Marked f a c) :
    Marked f a n := by
  cases h with
  | stored _ _ hschema =>
      refine .intro ?_ (fun hfree => hdemands ?_) ?_
      · obtain ⟨vs, hvs, -⟩ := trimValues_eq out
        rw [hschema, hvs]
        cases f <;> exact hflag
      · exact unconstrained_of_trimValues (hschema ▸ hfree)
      · obtain ⟨vs, hvs, -⟩ := trimValues_eq out
        rw [hschema, hvs]
        exact hbranches

/-- An operand with the demands of the conjunction has its flags too. -/
theorem Reused.marked (h : Reused a x y out (some n)) (hflag : f.onSchema out = true)
    (hdemands : ¬out.Unconstrained) (hbranches : ∀ c ∈ out.anyOf, Marked f a c) :
    Marked f a n := by
  have hsame : ∀ {z}, out.sameDemands (a.schema z) = true → Marked f a z := by
    intro z hz
    refine .intro ?_ (fun hfree => hdemands (unconstrained_of_sameDemands hz hfree)) ?_
    · rw [← f.onSchema_of_sameDemands hz, hflag]
    · rw [← (kinds_of_sameDemands hz).2]
      exact hbranches
  generalize hr : some n = r at h
  cases h with
  | left hx => cases hr; exact hsame hx
  | right hy _ => cases hr; exact hsame hy
  | stored hs _ => exact (hr ▸ hs).marked hflag hdemands hbranches

/-- The alternatives of two sides, one of which is marked. -/
theorem Crossed.marked {left right bs : List SchemaId}
    (hbs : Crossed (flagging P) a left right bs)
    (h : (∀ l ∈ left, FormMarked f a l) ∨ ∀ r ∈ right, FormMarked f a r) :
    ∀ c ∈ bs, Marked f a c := by
  intro c hc
  obtain ⟨l, hl, r, hr, hlr⟩ := hbs.sound c hc
  exact hlr.marked (h.imp (fun h => h l hl) fun h => h r hr)

theorem BothJoined.marked (ha : a.WellFormed P) (hx : a.IsForm x) (hy : a.IsForm y)
    (hj : BothJoined (flagging P) a x y (some n)) (h : Marked f a x ∨ Marked f a y) :
    Marked f a n := by
  have hsides : (∀ l ∈ a.sides x, FormMarked f a l) ∨ ∀ r ∈ a.sides y, FormMarked f a r :=
    h.imp (fun h l hl => (h.side hl).formMarked (isForm_of_mem_sides ha hx l hl))
      fun h r hr => (h.side hr).formMarked (isForm_of_mem_sides ha hy r hr)
  have hflag : ∀ {own}, OwnJoined (flagging P) a (a.schema x) (a.schema y) own →
      f.onSchema own = true := fun hown => by
    rw [hown.onSchema f, Bool.or_eq_true]
    exact h.imp Marked.flag Marked.flag
  generalize hr : some n = r at hj
  cases hj with
  | rightFree hfree =>
      cases hr
      exact h.resolve_right fun h => h.demands (Schema.isUnconstrained_iff.1 hfree)
  | leftFree hfree _ =>
      cases hr
      exact h.resolve_left fun h => h.demands (Schema.isUnconstrained_iff.1 hfree)
  | itemsClash _ => cases hr
  | propertyClash _ _ => cases hr
  | plain hown hanyx hanyy hreused hfreey hfreex =>
      refine (hr ▸ hreused).marked (hflag hown) (fun hfree => ?_) (by simp [hown.anyOf])
      rcases hown.unconstrained ((ha.normal x hx).1.members_eq_nil hanyx)
        ((ha.normal y hy).1.members_eq_nil hanyy) hfree with hfree | hfree
      · exact absurd (Schema.isUnconstrained_iff.2 hfree) (by simp [hfreex])
      · exact absurd (Schema.isUnconstrained_iff.2 hfree) (by simp [hfreey])
  | noBranch _ _ => cases hr
  | oneBranch _ hbs => cases hr; exact hbs.marked hsides n (by simp)
  | @branches own _ _ _ hown hbs htwo hreused =>
      have hown : f.onSchema own = true := hflag hown
      refine (hr ▸ hreused).marked (by cases f <;> exact hown) (fun hfree => ?_)
        (hbs.marked hsides)
      obtain rfl := hfree.anyOf
      cases htwo

/-! ## Normal forms -/

theorem onSchema_baseOf (f : Access) (s : Schema) : f.onSchema (baseOf s) = f.onSchema s := by
  cases f <;> rfl

theorem unconstrained_of_baseOf (h : (baseOf s).Unconstrained) :
    s.withoutCombinators.Unconstrained := by
  have hfull : s.kinds.getD .full = .full := h.kinds _ rfl
  refine { h with kinds := fun ks hks => ?_ }
  have hks : s.kinds = some ks := hks
  rwa [hks] at hfull

theorem AllJoined.marked {ms : List SchemaId} (hj : AllJoined (flagging P) a x ms (some n))
    (h : FormMarked f a x ∨ ∃ m ∈ ms, FormMarked f a m) (hx : a.IsForm x) : Marked f a n := by
  generalize hr : some n = r at hj
  induction hj with
  | nil =>
      cases hr
      rcases h with h | ⟨m, hm, -⟩
      · exact h _ hx
      · cases hm
  | clash _ => cases hr
  | @cons own m k ms r hm _ ih =>
      -- once a member is marked, so is everything from there on
      refine ih ?_ hm.isForm hr
      rcases h with h | ⟨d, hd, hmarked⟩
      · exact .inl ((hm.marked (.inl h)).formMarked hm.isForm)
      · rcases List.mem_cons.1 hd with rfl | hd
        · exact .inl ((hm.marked (.inr hmarked)).formMarked hm.isForm)
        · exact .inr ⟨d, hd, hmarked⟩

theorem Gathered.marked {bs : List SchemaId} (hj : Gathered a s own bs (some n))
    (hown : Marked f a own) (hbs : ∀ c ∈ bs, Marked f a c) : Marked f a n := by
  generalize hr : some n = r at hj
  cases hj with
  | none _ => cases hr
  | one heq => cases hr; exact hbs n (by simp [heq])
  | many htwo hs =>
      refine (hr ▸ hs).marked ?_ (fun hfree => ?_) hbs
      · have hflag := hown.flag
        cases f <;> exact hflag
      · obtain rfl := hfree.anyOf
        cases htwo

/-- The alternatives carry the demands of the schema, and so they are marked with them. -/
theorem AlternativesJoined.marked (hj : AlternativesJoined (flagging P) a s own (some n))
    (hown : Marked f a own) (hform : a.IsForm own) : Marked f a n := by
  have hone : ∀ r ∈ [own], FormMarked f a r := fun r hr => by
    rw [List.mem_singleton.1 hr]
    exact hown.formMarked hform
  generalize hr : some n = r at hj
  cases hj with
  | neither _ _ => cases hr; exact hown
  | anyClash _ _ => cases hr
  | oneClash _ _ => cases hr
  | any _ _ hbs hg => exact (hr ▸ hg).marked hown (hbs.marked (.inr hone))
  | one _ _ hbs hg => exact (hr ▸ hg).marked hown (hbs.marked (.inr hone))
  | both _ _ has hos hbs hg =>
      have hleft := has.marked (.inr hone)
      exact (hr ▸ hg).marked hown (hbs.marked (.inl fun l hl =>
        (hleft l hl).formMarked (has.isForm l hl)))

theorem Narrowed.marked (ha : a.WellFormed P) (hj : Narrowed (flagging P) a s c (some n))
    (h : FormMarked f a c) : Marked f a n := by
  generalize hr : some n = r at hj
  cases hj with
  | unmatched _ => cases hr
  | anyKind hc _ => cases hr; exact h n hc
  | noKind _ _ _ => cases hr
  | kinds hc _ _ hjoined =>
      exact (hr ▸ hjoined).marked (.inl ((h _ hc).formMarked (ha.form c _ hc)))

/-- What comes of a schema with more to it than one member: what is conjoined is marked if a part of
    it is. -/
theorem marked_of_alternatives (hbase : Stored a (baseOf s) (some x))
    (hall : AllJoined (flagging P) a x s.allOf (some own))
    (halt : AlternativesJoined (flagging P) a s own (some n))
    (h : f.onSchema s = true ∧ ¬s.withoutCombinators.Unconstrained ∨
      ∃ m ∈ s.allOf, FormMarked f a m) : Marked f a n := by
  refine halt.marked (hall.marked (h.imp_left fun ⟨hflag, hdemands⟩ => ?_) hbase.isForm)
    (hall.isForm hbase.isForm)
  refine Marked.formMarked ?_ hbase.isForm
  exact hbase.marked ((onSchema_baseOf f s).trans hflag)
    (fun hfree => hdemands (unconstrained_of_baseOf hfree)) (by simp [baseOf, Schema.withoutCombinators])

/-- The only member of a conjunction that adds nothing is its sole child. -/
theorem eq_of_soleChild? (hc : s.soleChild? = some c) (hm : m ∈ s.allOf) : m = c := by
  rcases (Schema.soleChild?_spec hc).2 with ⟨hall, -, -⟩ | ⟨hall, -, -⟩ | ⟨hall, -, -⟩ <;>
    rw [hall] at hm
  · exact List.mem_singleton.1 hm
  · cases hm
  · cases hm

theorem FormJoined.marked (ha : a.Lawful (flagging P))
    (hj : FormJoined (flagging P) a (a.schema x) (some n)) (h : Declares f a x) :
    Marked f a n := by
  generalize hr : some n = r at hj
  cases hj with
  | bottom _ => cases hr
  | narrowed hc hn =>
      cases h with
      | own _ hchild _ _ => cases hchild.symm.trans hc
      | member hm hd =>
          obtain rfl := eq_of_soleChild? hc hm
          exact (hr ▸ hn).marked ha.toWellFormed (.of_declares ha hd)
  | noBase _ _ => cases hr
  | allClash _ _ _ => cases hr
  | alternatives _ hbase hall halt =>
      refine marked_of_alternatives hbase hall (hr ▸ halt) ?_
      cases h with
      | own hflag _ hdemands _ => exact .inl ⟨hflag, hdemands⟩
      | member hm hd => exact .inr ⟨_, hm, .of_declares ha hd⟩

theorem FormJoined.onSchema (ha : a.Lawful (flagging P))
    (hj : FormJoined (flagging P) a (a.schema x) (some n)) (h : Passes f a x) :
    f.onSchema (a.schema n) = true := by
  cases h with
  | declared hd => exact (hj.marked ha hd).flag
  | alone hflag hmembers =>
      obtain ⟨vs, hvs, -⟩ := trimValues_eq (baseOf (a.schema x))
      rw [hj.plain hmembers, hvs]
      cases f <;> exact hflag
  | sole hchild _ hkinds hp =>
      generalize hr : some n = r at hj
      cases hj with
      | bottom _ => cases hr
      | narrowed hc hn =>
          cases hchild.symm.trans hc
          cases hn with
          | unmatched _ => cases hr
          | anyKind hdone _ => cases hr; exact (ha.forms _ _ hdone n rfl f).2 hp
          | noKind _ hk _ => cases hkinds.symm.trans hk
          | kinds _ hk _ _ => cases hkinds.symm.trans hk
      | noBase hc _ => cases hchild.symm.trans hc
      | allClash hc _ _ => cases hchild.symm.trans hc
      | alternatives hc _ _ _ => cases hchild.symm.trans hc

theorem upheld_flagging : Upheld (flagging P) where
  form ha _ hj _ hn _ :=
    have hj : FormJoined _ _ _ (some _) := hn ▸ hj
    ⟨hj.marked ha, hj.onSchema ha⟩
  both ha hx hy _ hj _ hn _ h :=
    (hn ▸ hj : BothJoined _ _ _ _ (some _)).marked ha.toWellFormed hx hy h

end Arena

namespace Session

open Work

variable {document : Json} {naming : Naming} {s s' t : Session} {id child : SchemaId}
  {calls : Nat} {c : Client.Class} {f : Access} {k : String}

/-! ## Fields -/

/-- The field comes of a property: it has the flags of its schema and of the normal form. -/
def Fielded (t : Session) (e : String × SchemaId) (field : Client.Field) : Prop :=
  field.wireName = e.1 ∧ ∃ form, t.arena.progress.get? e.2 = some (.done (some form)) ∧
    ∀ f : Access, f.onField field =
      (f.onSchema (t.arena.schema e.2) || f.onSchema (t.arena.schema form))

theorem Fielded.mono {e : String × SchemaId} {field : Client.Field} {P : Json → Prop}
    {L : Arena.Law P} (h : s.Fielded e field) (hs : s.Lawful L) (hst : Follows s t) :
    t.Fielded e field := by
  obtain ⟨hname, form, hform, hflags⟩ := h
  refine ⟨hname, form, hst.arena.done _ _ hform, fun f => ?_⟩
  rw [hst.arena.schema _ (hs.arena.known _ _ hform),
    hst.arena.schema _ (hs.arena.isForm_lt (hs.arena.form _ _ hform))]
  exact hflags f

theorem onField_fieldOf (taken : List String) (wireName : String) (required : Bool)
    (type : TypeExpr) (raw form : Schema) (f : Access) :
    f.onField (fieldOf naming taken wireName required type raw form) =
      (f.onSchema raw || f.onSchema form) := by
  cases f <;> rfl

/-- Every new field comes of a property, and every property gives a field unless it matches
    nothing. -/
theorem keeps_fieldsOf_fielded {P : Json → Prop} {L : Arena.Law P} (hL : Arena.Upheld L)
    (hs : s.Lawful L) (required : SortedSet String) {es : List (String × SchemaId)}
    (hes : ∀ e ∈ es, e.2 < s.arena.next) {done : List Client.Field} :
    Keeps L (fieldsOf calls naming required es done) s fun fields t =>
      (∀ field ∈ fields, field ∈ done ∨ ∃ e ∈ es, t.Fielded e field) ∧
      (∀ field ∈ done, field ∈ fields) ∧
      ∀ e ∈ es, t.arena.progress.get? e.2 = some (.done none) ∨
        ∃ field ∈ fields, t.Fielded e field := by
  induction es generalizing s done with
  | nil => exact .pure hs ⟨fun _ h => .inl h, fun _ h => h, by simp⟩
  | cons e es ih =>
      obtain ⟨wireName, child⟩ := e
      have hrest : ∀ {t}, Follows s t → ∀ e ∈ es, e.2 < t.arena.next := fun hst e he =>
        Nat.lt_of_lt_of_le (hes e (List.mem_cons_of_mem _ he)) hst.arena.next
      unfold fieldsOf
      refine .bind (keeps_normalize hL hs calls (hes _ List.mem_cons_self)) fun r t ht hst hr => ?_
      cases r with
      | none =>
          refine .view_bind (.bind (keeps_warn ht _) fun _ u hu htu _ => ?_)
          have hsu := trans_of Follows hst.toFollows htu.toFollows
          refine (ih hu (hrest hsu)).mono ?_
          rintro fields w - huw ⟨hfrom, hkept, hall⟩
          refine ⟨fun field hf => (hfrom field hf).imp_right ?_, hkept, fun e he => ?_⟩
          · rintro ⟨e, he, h⟩
            exact ⟨e, List.mem_cons_of_mem _ he, h⟩
          · rcases List.mem_cons.1 he with rfl | he
            · exact .inl (huw.arena.done _ _ (htu.arena.done _ _ hr))
            · exact hall e he
      | some form =>
          have hform := ht.arena.form child form hr
          refine .bind (keeper_formTypeWithin hL calls form t ht hform) fun type u hu htu _ => ?_
          have hsu := trans_of Follows hst.toFollows htu.toFollows
          have hnew : u.Fielded (wireName, child) (fieldOf naming (done.map Client.Field.name)
              wireName (required.contains wireName) type (u.arena.schema child)
              (u.arena.schema form)) :=
            ⟨rfl, form, htu.arena.done _ _ hr, fun f => onField_fieldOf ..⟩
          refine .view_bind (.view_bind ?_)
          refine (ih hu (hrest hsu)).mono ?_
          rintro fields w - huw ⟨hfrom, hkept, hall⟩
          have hnew := hnew.mono hu huw.toFollows
          refine ⟨fun field hf => ?_, fun field hf => hkept field (by simp [hf]), fun e he => ?_⟩
          · rcases hfrom field hf with hf | ⟨e, he, h⟩
            · rcases List.mem_append.1 hf with hf | hf
              · exact .inl hf
              · rw [List.mem_singleton.1 hf]
                exact .inr ⟨_, List.mem_cons_self, hnew⟩
            · exact .inr ⟨e, List.mem_cons_of_mem _ he, h⟩
          · rcases List.mem_cons.1 he with rfl | he
            · exact .inr ⟨_, hkept _ (by simp), hnew⟩
            · exact hall e he

theorem keeps_asType_fielded {P : Json → Prop} {L : Arena.Law P} (hL : Arena.Upheld L)
    (hs : s.Lawful L) :
    Keeps L (asType calls naming id) s fun r t => ∀ c ∈ r,
      (∀ field ∈ c.fields, ∃ e ∈ (s.arena.schema id).properties.entries, t.Fielded e field) ∧
      ∀ e ∈ (s.arena.schema id).properties.entries,
        t.arena.progress.get? e.2 = some (.done none) ∨ ∃ field ∈ c.fields, t.Fielded e field := by
  unfold asType
  refine .view_bind ?_
  have hlinks := (hs.arena.proper id).links
  generalize s.arena.schema id = m at hlinks
  split
  · exact .pure hs (by rintro _ ⟨⟩)
  · refine .bind (keeps_className hs id) fun name t ht hst _ => ?_
    refine .bind (keeps_fieldsOf_fielded hL ht m.required fun e he => ?_) fun fields u hu _ h => ?_
    · have hlink : e.2 ∈ m.links := Schema.mem_links_of_part (by
        have hvalue : e.2 ∈ m.properties.values := List.mem_map.2 ⟨e, he, rfl⟩
        simp [Schema.parts, hvalue])
      exact Nat.lt_of_lt_of_le (hlinks _ hlink) hst.arena.next
    · refine .pure hu ?_
      rintro _ ⟨⟩
      obtain ⟨hfrom, -, hall⟩ := h
      exact ⟨fun field hf => (hfrom field hf).resolve_left (by simp), hall⟩

/-- The class of a normal form has a field for every property that something matches, and the field
    has an access flag when the schema of the property has it or passes it on. -/
theorem onField_of_passes (hs : Reachable document naming s)
    (hrun : (asType calls naming id).run s = (.ok (some c), s'))
    (hk : (s.arena.schema id).properties.get? k = some child)
    (hflag : f.onSchema (s.arena.schema child) = true ∨ Arena.Passes f s.arena child) :
    (s'.arena.progress.get? child = some (.done none) ∨ ∃ field ∈ c.fields, field.wireName = k) ∧
      ∀ field ∈ c.fields, field.wireName = k → f.onField field = true := by
  have hL := Arena.upheld_flagging (P := fun _ => True)
  have hlawful := hs.lawful hL hereditary_true trivial
  have hwf := hlawful.arena.toWellFormed
  obtain ⟨⟨hlawful', hstays⟩, hfields⟩ := (keeps_asType_fielded hL hlawful).of_ok hrun
  obtain ⟨hfrom, hall⟩ := hfields c rfl
  have hchild : child < s.arena.next :=
    (hwf.proper id).links _ (Schema.mem_links_of_property hk)
  refine ⟨(hall _ (Dict.mem_entries_of_get? hk)).imp_right fun ⟨field, hf, h⟩ => ⟨field, hf, h.1⟩,
    fun field hf hname => ?_⟩
  obtain ⟨⟨k', child'⟩, he, hwire, form, hform, hflags⟩ := hfrom field hf
  -- no other property goes by the name
  obtain rfl : k' = k := hwire.symm.trans hname
  cases (Dict.get?_of_mem (hwf.proper id).keys he).symm.trans hk
  rw [hflags f, Bool.or_eq_true, hstays.arena.schema child hchild]
  refine hflag.imp_right fun hp => ?_
  exact (hlawful'.arena.forms child _ hform form rfl f).2
    (hp.mono hwf hstays.arena hchild)

/-- An owner with a pet, whose schema is a reference next to a flag alone, and an heir, whose schema
    is the same reference next to a flag and a bound. -/
def owner : Json :=
  .obj [("Owner", .obj [("type", .str "object"), ("properties", .obj [
      ("pet", .obj [("allOf", .arr [.obj [("$ref", .str "#/Pet")],
        .obj [("readOnly", .bool true)]])]),
      ("heir", .obj [("allOf", .arr [.obj [("$ref", .str "#/Pet")],
        .obj [("minProperties", .num (.int 1)), ("readOnly", .bool true)]])])])]),
    ("Pet", .obj [("type", .str "object"),
      ("properties", .obj [("name", .obj [("type", .str "string")])])])]

def ownerLoaded : Session :=
  ((answer owner .marked 1 (.load (Pointer.root.push "Owner"))).run .empty).2

/-- The session that has loaded the owner and has its normal form. -/
def ownerNormalized : Session := ((answer owner .marked 5 (.normalize 0)).run ownerLoaded).2

theorem reachable_ownerNormalized : Reachable owner .marked ownerNormalized := by
  have hloaded : ∀ id ∈ (Request.normalize 0).ids, id < ownerLoaded.arena.next := by
    simp only [Request.ids, List.mem_singleton, forall_eq]
    decide +kernel
  exact .tail (.single (step_ask (.load (Pointer.root.push "Owner")) 1 (by simp [Request.ids])))
    (step_ask (.normalize 0) 5 hloaded)

/-- The class of the owner marks the heir alone. -/
theorem run_asType_owner :
    ∃ c s', (asType 6 .marked 7).run ownerNormalized = (.ok (some c), s') ∧
      c.fields.map (fun field => (field.wireName, field.readOnly)) =
        [("pet", false), ("heir", true)] := by
  have hfields : ((asType 6 .marked 7).run ownerNormalized).1.toOption.join.map
      (fun c => c.fields.map fun field => (field.wireName, field.readOnly)) =
        some [("pet", false), ("heir", true)] := by
    decide +kernel
  obtain ⟨c, hc, hfields⟩ := Option.map_eq_some_iff.1 hfields
  exact ⟨c, _, Work.run_eq_of_toOption (Option.join_eq_some_iff.1 hc), hfields⟩

/-- The flag of the heir stands next to a bound, so its field has the flag. -/
theorem onField_heir :
    ∃ c s', (asType 6 .marked 7).run ownerNormalized = (.ok (some c), s') ∧
      (∃ field ∈ c.fields, field.wireName = "heir") ∧
      ∀ field ∈ c.fields, field.wireName = "heir" → field.readOnly = true := by
  obtain ⟨c, s', hrun, hfields⟩ := run_asType_owner
  have hheir : (ownerNormalized.arena.schema 7).properties.get? "heir" = some 5 := by decide +kernel
  have hmember : 6 ∈ (ownerNormalized.arena.schema 5).allOf := by decide +kernel
  have hpasses : Arena.Passes .readOnly ownerNormalized.arena 5 := by
    refine .declared (.member hmember (.own (by decide +kernel) (by decide +kernel) ?_ (.inr ?_)))
    · rw [← Schema.isUnconstrained_iff]
      decide +kernel
    · decide +kernel
  obtain ⟨-, hflag⟩ := onField_of_passes reachable_ownerNormalized hrun hheir (.inr hpasses)
  have hnamed : ("heir", true) ∈ c.fields.map fun field => (field.wireName, field.readOnly) := by
    simp [hfields]
  obtain ⟨field, hf, hname⟩ := List.mem_map.1 hnamed
  exact ⟨c, s', hrun, ⟨field, hf, congrArg Prod.fst hname⟩, hflag⟩

/-- Not every schema that a property is a conjunction of passes its flag on: the field of the pet
    does not have the flag of the member that demands nothing. -/
theorem not_onField_pet :
    ¬∀ (document : Json) (naming : Naming) (s s' : Session) (calls : Nat) (id child m : SchemaId)
      (k : String) (c : Client.Class) (field : Client.Field),
      Reachable document naming s → (asType calls naming id).run s = (.ok (some c), s') →
      (s.arena.schema id).properties.get? k = some child →
      (s.arena.schema child).anyOf = [] → (s.arena.schema child).oneOf = [] →
      Relation.ReflTransGen (fun x m => m ∈ (s.arena.schema x).allOf) child m →
      (s.arena.schema m).readOnly = true → field ∈ c.fields → field.wireName = k →
      field.readOnly = true := by
  intro hclaim
  obtain ⟨c, s', hrun, hfields⟩ := run_asType_owner
  have hnamed : ("pet", false) ∈ c.fields.map fun field => (field.wireName, field.readOnly) := by
    simp [hfields]
  obtain ⟨field, hf, hpet⟩ := List.mem_map.1 hnamed
  have hmember : 4 ∈ (ownerNormalized.arena.schema 1).allOf := by decide +kernel
  have hflag := hclaim owner .marked ownerNormalized s' 6 7 1 4 "pet" c field
    reachable_ownerNormalized hrun (by decide +kernel) (by decide +kernel) (by decide +kernel)
    (.single hmember) (by decide +kernel) hf (congrArg Prod.fst hpet)
  have hplain : field.readOnly = false := congrArg Prod.snd hpet
  rw [hplain] at hflag
  exact Bool.false_ne_true hflag

end Session

end ApiModel
