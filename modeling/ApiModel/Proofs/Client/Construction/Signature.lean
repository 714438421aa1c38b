/-
  ApiModel.Proofs.Client.Construction.Signature

  From declared parameters to a signature. A parameter is known by its location and its name: of
  several that are the same in both, the last one counts, in the place of the first. Path and query
  parameters then stand in the signature itself, and header and cookie parameters become the fields
  of one class, which a last parameter has as its type. The names of each of the two are distinct.
-/
import ApiModel.Proofs.Client.Construction.Steady
import Mathlib.Data.List.Forall2
import Mathlib.Data.Prod.Basic

namespace ApiModel.Client

open Document (OrRef)

/-! ## Declared parameters -/

/-- A parameter where it is declared: the place that references lead to, and what stands there. -/
abbrev ParameterAt := Pointer × Document.Parameter

/-- What a parameter is known by: the word for its location, and its name. -/
def ParameterAt.key (d : ParameterAt) : String × String := (d.2.location, d.2.name)

/-- The parameter stands in the signature itself. -/
def ParameterAt.direct (d : ParameterAt) : Bool := d.2.location == "path" || d.2.location == "query"

/-- The parameter is gathered with others. -/
def ParameterAt.gathered (d : ParameterAt) : Bool :=
  d.2.location == "header" || d.2.location == "cookie"

/-- The parameter is no header that the settings ignore. -/
def ParameterAt.counts (config : Config) (d : ParameterAt) : Bool :=
  !(d.2.location == "header" && config.ignoresHeader d.2.name)

/-- A list declares these parameters, as each of its references can be resolved. -/
def DeclaresAt (document : Json) (place : Pointer) (items : List (OrRef Document.Parameter))
    (ds : List ParameterAt) : Prop :=
  (items.mapIdx fun i item =>
    Document.resolveItem document Document.Parameter.shape item (place.index i)) = ds.map .ok

/-- Of several elements with the same key the last, in the place of the first. -/
def lastByKey {α κ : Type} [DecidableEq κ] (key : α → κ) (xs : List α) : List α :=
  (xs.map key).eraseDups.filterMap fun k => xs.reverse.find? fun x => key x == k

/-- Of declared parameters those that no later one replaces, each in the place of the first one that
    is known by the same. -/
def winners (ds : List ParameterAt) : List ParameterAt := lastByKey ParameterAt.key ds

/-! ## Parameters that are made of declarations -/

/-- The parameter is made of a declaration; it may have any name in the signature. -/
structure Parameter.MadeOf (b : Setting) (d : ParameterAt) (p : Parameter) : Prop where
  wireName : p.wireName = d.2.name
  location : Location.ofName? d.2.location = some p.location
  required : p.required = (d.2.required || p.location == .path)
  deprecated : p.deprecated = d.2.deprecated
  description : p.description = d.2.description
  style : d.2.style.elim (some (.usual p.location)) Style.ofName? = some p.style
  explode : p.explode = d.2.explode.getD (p.style == .form)
  type : ∃ hint c e, (Construction.payload b d.1 d.2.schema d.2.content p.required hint).run c =
    (.ok (p.type, p.mediaType), e)
  pointer : p.pointer = d.1

/-- The field has what a parameter has that is made of a declaration. -/
def Field.Carries (b : Setting) (d : ParameterAt) (f : Field) : Prop :=
  ∃ p, Parameter.MadeOf b d p ∧ f = {
    name := f.name
    wireName := p.wireName
    type := p.type
    required := p.required
    readOnly := false
    writeOnly := false
    description := p.description
    default := none }

/-- The parameter `a` gathers parameters: it has a class with one field for each of them, in order,
    and is required as soon as one of them is. -/
structure Parameter.Gathers (a : Parameter) (b : Setting) (class? : TypeName → Option Class)
    (ds : List ParameterAt) (c : Class) : Prop where
  location : a.location = .metadata
  wireName : a.wireName = "metadata"
  required : a.required = c.fields.any Field.required
  type : a.type = if a.required then .named c.name else .optionalOf (.named c.name)
  found : class? c.name = some c
  base : c.base = .metadata
  fields : List.Forall₂ (Field.Carries b) ds c.fields
  names : (c.fields.map Field.name).Nodup

/-- The signature of an operation with these declared parameters: those of path and query in order,
    and after them, if there is any header or cookie, one parameter that gathers these. -/
structure Signs (b : Setting) (class? : TypeName → Option Class) (ds : List ParameterAt)
    (ps : List Parameter) : Prop where
  placed : ∀ d ∈ ds, d.direct = true ∨ d.gathered = true
  parts : ∃ direct rest, ps = direct ++ rest ∧
    List.Forall₂ (Parameter.MadeOf b) ((winners ds).filter ParameterAt.direct) direct ∧
    ((winners ds).filter ParameterAt.gathered = [] ∧ rest = [] ∨
      (winners ds).filter ParameterAt.gathered ≠ [] ∧ ∃ a c, rest = [a] ∧
        a.Gathers b class? ((winners ds).filter ParameterAt.gathered) c)
  names : (ps.map Parameter.name).Nodup

variable {b : Setting} {d : ParameterAt} {p : Parameter} {class? class?' : TypeName → Option Class}
  {ds : List ParameterAt} {ps : List Parameter}

theorem Signs.mono (h : Signs b class? ds ps)
    (hfound : ∀ c, class? c.name = some c → class?' c.name = some c) : Signs b class?' ds ps := by
  obtain ⟨hplaced, ⟨direct, rest, rfl, hdirect, hrest⟩, hnames⟩ := h
  refine ⟨hplaced, ⟨direct, rest, rfl, hdirect, hrest.imp_right ?_⟩, hnames⟩
  rintro ⟨hne, a, c, rfl, hgathers⟩
  exact ⟨hne, a, c, rfl, { hgathers with found := hfound c hgathers.found }⟩

/-! ## The last of several -/

section

variable {α β κ μ : Type} [DecidableEq κ] [DecidableEq μ] {key : α → κ}

/-- Insertion into a map, one after the other, leaves the last of each key. -/
theorem values_ofList_eq_lastByKey (key : α → κ) (xs : List α) :
    (Dict.ofList (xs.map fun x => (key x, x))).values = lastByKey key xs := by
  have hlookup : ∀ (ys : List α) k, (ys.map fun x => (key x, x)).lookup k =
      ys.find? fun x => key x == k := by
    intro ys k
    induction ys with
    | nil => rfl
    | cons y ys ih =>
        rw [List.map_cons, List.lookup_cons, List.find?_cons, ih]
        by_cases hk : key y = k
        · simp [hk]
        · rw [beq_false_of_ne hk, beq_false_of_ne (Ne.symm hk)]
  rw [Dict.values_eq_filterMap (Dict.nodup_keys_ofList _), Dict.keys_ofList, List.map_map]
  unfold lastByKey
  refine congrArg (List.filterMap · _) (funext fun k => ?_)
  rw [Dict.get?_ofList, ← List.map_reverse, hlookup]

/-- Entries with keys that correspond, and with values in a relation. -/
def Corresponding (R : α → β → Prop) (g : μ → κ) (e : κ × α) (e' : μ × β) : Prop :=
  e.1 = g e'.1 ∧ R e.2 e'.2

theorem forall₂_put {R : α → β → Prop} {g : μ → κ} (hg : Function.Injective g) {k : μ} {v : α}
    {w : β} (hvw : R v w) {es : List (κ × α)} {es' : List (μ × β)}
    (h : List.Forall₂ (Corresponding R g) es es') :
    List.Forall₂ (Corresponding R g) (Dict.put (g k) v es) (Dict.put k w es') := by
  induction h with
  | nil => exact .cons ⟨rfl, hvw⟩ .nil
  | @cons e e' es es' he hes ih =>
      have hkey : e.1 = g k ↔ e'.1 = k := by rw [he.1, hg.eq_iff]
      unfold Dict.put
      by_cases hk : e'.1 = k
      · rw [if_pos (hkey.2 hk), if_pos hk]
        exact .cons ⟨rfl, hvw⟩ hes
      · rw [if_neg (mt hkey.1 hk), if_neg hk]
        exact .cons he ih

/-- What corresponds one by one still does when only the last of each key is left. -/
theorem forall₂_lastByKey {R : α → β → Prop} {key' : β → μ} {g : μ → κ}
    (hg : Function.Injective g) {xs : List α} {ys : List β}
    (h : List.Forall₂ (fun x y => key x = g (key' y) ∧ R x y) xs ys) :
    List.Forall₂ R (lastByKey key xs) (lastByKey key' ys) := by
  have hfold : ∀ (d : Dict κ α) (d' : Dict μ β),
      List.Forall₂ (Corresponding R g) d.entries d'.entries →
      List.Forall₂ (Corresponding R g)
        ((xs.map fun x => (key x, x)).foldl (fun d e => d.insert e.1 e.2) d).entries
        ((ys.map fun y => (key' y, y)).foldl (fun d e => d.insert e.1 e.2) d').entries := by
    induction h with
    | nil => exact fun _ _ h => h
    | @cons x y xs ys hxy _ ih =>
        intro d d' hd
        refine ih _ _ ?_
        have hput := forall₂_put hg hxy.2 hd (k := key' y)
        rwa [← hxy.1] at hput
  rw [← values_ofList_eq_lastByKey, ← values_ofList_eq_lastByKey]
  refine List.forall₂_map_left_iff.2 (List.forall₂_map_right_iff.2 ?_)
  exact (hfold .empty .empty .nil).imp fun _ _ h => h.2

end

/-! ## Merging -/

theorem Location.eq_name_of_ofName? {word : String} {l : Location}
    (h : Location.ofName? word = some l) : word = l.name := by
  unfold ofName? at h
  split at h <;> cases h <;> rfl

theorem Location.name_injective : Function.Injective Location.name := by
  intro l m h
  cases l <;> cases m <;> first | rfl | exact absurd h (by decide)

namespace Parameter.MadeOf

theorem key (h : MadeOf b d p) : d.key = Prod.map Location.name id (p.location, p.wireName) :=
  Prod.ext (Location.eq_name_of_ofName? h.location) h.wireName.symm

/-- Parameters are gathered by the words for their locations. -/
theorem location_cases (h : MadeOf b d p) :
    d.direct = !p.location.isMetadata ∧ d.gathered = p.location.isMetadata := by
  have hloc := h.location
  have hword := Location.eq_name_of_ofName? hloc
  unfold ParameterAt.direct ParameterAt.gathered
  rw [hword] at hloc ⊢
  cases hl : p.location with
  | metadata =>
      rw [hl] at hloc
      cases hloc
  | _ => exact ⟨rfl, rfl⟩

theorem rename (h : MadeOf b d p) (name : String) : MadeOf b d { p with name := name } :=
  ⟨h.wireName, h.location, h.required, h.deprecated, h.description, h.style, h.explode, h.type,
    h.pointer⟩

end Parameter.MadeOf

namespace Construction

open Work

theorem forall₂_merge (h : List.Forall₂ (Parameter.MadeOf b) ds ps) :
    List.Forall₂ (Parameter.MadeOf b) (winners ds) (mergeParameters ps) := by
  have hmerge : mergeParameters ps = lastByKey (fun p => (p.location, p.wireName)) ps :=
    values_ofList_eq_lastByKey _ ps
  rw [hmerge]
  exact forall₂_lastByKey (Location.name_injective.prodMap Function.injective_id)
    (h.imp fun _ _ hp => ⟨hp.key, hp⟩)

theorem forall₂_rename (h : List.Forall₂ (Parameter.MadeOf b) ds ps) {names : List String}
    (hlength : names.length = ps.length) :
    List.Forall₂ (Parameter.MadeOf b) ds (rename ps names) := by
  unfold rename
  induction h generalizing names with
  | nil => exact .nil
  | cons hp _ ih =>
      cases names with
      | nil => cases hlength
      | cons name names => exact .cons (hp.rename name) (ih (Nat.succ.inj hlength))

/-- Renaming changes nothing that does not look at names. -/
theorem map_rename {α : Type} {f : Parameter → α} (hf : ∀ p name, f { p with name := name } = f p)
    {names : List String} (h : names.length = ps.length) : (rename ps names).map f = ps.map f := by
  unfold rename
  induction ps generalizing names with
  | nil => rfl
  | cons p ps ih =>
      cases names with
      | nil => cases h
      | cons name names =>
          rw [List.zipWith_cons_cons, List.map_cons, List.map_cons, hf, ih (Nat.succ.inj h)]

/-! ## Reading declarations -/

variable {c : Construction} {place : Pointer}

/-- A parameter is made of what its reference leads to, unless that is a header to be ignored. -/
theorem returns_parameter (item : OrRef Document.Parameter) (owner : String) :
    Returns (parameter b item place owner) c fun r _ => ∃ d : ParameterAt,
      Document.resolveItem b.document Document.Parameter.shape item place = .ok d ∧
      List.Forall₂ (Parameter.MadeOf b) ([d].filter (ParameterAt.counts b.config)) r.toList := by
  have hlocation : ∀ place word, Returns (readLocation place word) c fun l _ =>
      Location.ofName? word = some l := by
    intro place word
    unfold readLocation
    split
    · next l hl => exact .pure hl
    · exact .fault
  have hstyle : ∀ place location word (c : Construction), Returns (readStyle place location word) c
      fun s _ => word.elim (some (.usual location)) Style.ofName? = some s := by
    intro place location word c
    unfold readStyle
    split
    · exact .pure rfl
    · split
      · next s hs => exact .pure hs
      · exact .fault
  unfold parameter
  refine .ofExcept_bind fun d hd => ?_
  obtain ⟨place, q⟩ := d
  refine .bind (hlocation _ _) fun l e hl => ?_
  -- the words are known apart just as the locations are
  have hheader : (l == .header) = (q.location == "header") := by
    rw [Location.eq_name_of_ofName? hl]
    cases l <;> rfl
  dsimp only
  rw [hheader]
  split
  · next hignored =>
      refine .bind (.any _ _) fun _ _ _ => .pure ⟨_, hd, ?_⟩
      rw [List.filter_cons_of_neg (by rw [ParameterAt.counts, hignored]; simp)]
      exact .nil
  · next hcounts =>
      refine .bind (Ends.mono (ends_run _ e) (fun _ _ h => h) fun _ _ _ => trivial) fun r f hr => ?_
      refine .bind (hstyle _ _ _ f) fun style g hs => .pure ⟨_, hd, ?_⟩
      rw [List.filter_cons_of_pos (by rw [ParameterAt.counts, Bool.not_eq_true] at *; simp [hcounts])]
      exact .cons ⟨rfl, hl, rfl, rfl, rfl, hs, rfl, ⟨_, _, _, hr⟩, rfl⟩ .nil

/-- The parameters of a list are made of what it declares. -/
theorem returns_parametersFrom (base : Pointer) (owner : String) (i : Nat)
    (items : List (OrRef Document.Parameter)) :
    Returns (parametersFrom b base owner i items) c fun ps _ => ∃ ds : List ParameterAt,
      (items.mapIdx fun j item => Document.resolveItem b.document Document.Parameter.shape item
        (base.index (i + j))) = ds.map .ok ∧
      List.Forall₂ (Parameter.MadeOf b) (ds.filter (ParameterAt.counts b.config)) ps := by
  induction items generalizing i c with
  | nil => exact .pure ⟨[], rfl, .nil⟩
  | cons item rest ih =>
      unfold parametersFrom
      refine .bind (returns_parameter item owner) ?_
      rintro r d ⟨first, hfirst, hr⟩
      refine .bind (ih (i + 1)) ?_
      rintro ps e ⟨ds, hds, hps⟩
      refine .pure ⟨first :: ds, ?_, ?_⟩
      · rw [List.mapIdx_cons, Nat.add_zero, hfirst, List.map_cons, ← hds]
        refine congrArg (_ :: List.mapIdx · rest) (funext fun j => funext fun item => ?_)
        rw [Nat.add_right_comm, Nat.add_assoc]
      · rw [← List.singleton_append, List.filter_append]
        exact List.rel_append hr hps

/-! ## Signatures -/

/-- Between `c` and `d` no class has been given up. -/
def Secures (c d : Construction) : Prop := c.session.Secures d.session

instance : IsPreorder Construction Secures where
  refl c := refl_of Session.Secures c.session
  trans _ _ _ h h' := trans_of Session.Secures h h'

/-- If `x` from `c` gives a result, class names are reserved as before, and no class is given up. -/
abbrev Secured {α : Type} (x : BuildWork α) (c : Construction) (post : α → Construction → Prop) :
    Prop :=
  Gives (fun d => d.session.Reserved) Secures x c post

theorem secured_syntheticClass (hc : c.session.Reserved) (base : String) (fields : List Field)
    (allowExtra : Bool) :
    Secured (syntheticClass b place base fields allowExtra) c fun n d =>
      d.session.classes.get? n = some ⟨n, .metadata, allowExtra, none, fields, place⟩ := by
  obtain ⟨n, hn, hrun⟩ := run_syntheticClass b place base fields allowExtra c
  have hsecures := Session.secures_register hn ⟨n, .metadata, allowExtra, none, fields, place⟩
  unfold Secured Gives Ends
  rw [hrun]
  exact ⟨⟨hsecures.reserved hc, hsecures⟩, Dict.get?_insert_self _ _ _⟩

theorem secured_metadataParameter (hc : c.session.Reserved) (classBase name : String)
    (h : List.Forall₂ (Parameter.MadeOf b) ds ps) :
    Secured (metadataParameter b place classBase name ps) c fun a d =>
      a.name = name ∧ ∃ k, a.Gathers b d.session.classes.get? ds k := by
  have hlength : (distinctNames [] (ps.map Parameter.name)).length = ps.length := by
    rw [length_distinctNames, List.length_map]
  unfold metadataParameter
  refine .bind (secured_syntheticClass hc _ _ _) fun n d hd _ hn =>
    .pure hd ⟨rfl, ⟨n, _, _, _, _, _⟩, rfl, rfl, ?_, rfl, hn, rfl, ?_, ?_⟩
  · show ps.any Parameter.required = _
    rw [List.any_map]
    show _ = (rename ps _).any Parameter.required
    have hany : ∀ qs : List Parameter, qs.any Parameter.required =
        (qs.map Parameter.required).any id := fun qs => by rw [List.any_map, Function.id_comp]
    rw [hany, hany, map_rename (fun _ _ => rfl) hlength]
  · refine List.forall₂_map_right_iff.2 ((forall₂_rename h hlength).imp fun d p hp => ?_)
    exact ⟨p, hp, rfl⟩
  · rw [List.map_map]
    show ((rename ps _).map Parameter.name).Nodup
    rw [map_name_rename hlength]
    exact nodup_distinctNames _ _

/-- Whatever parameters there are, they are signed as declared. -/
theorem secured_signature (hc : c.session.Reserved) (classBase : String)
    (h : List.Forall₂ (Parameter.MadeOf b) ds ps) :
    Secured (signature b place classBase ps) c fun qs d =>
      Signs b d.session.classes.get? ds qs := by
  have hplaced : ∀ d ∈ ds, d.direct = true ∨ d.gathered = true := by
    refine ((List.forall₂_and_left _ _).1 (h.imp fun d p hp => ⟨?_, hp⟩)).1
    rw [hp.location_cases.1, hp.location_cases.2]
    cases p.location.isMetadata
    · exact .inl rfl
    · exact .inr rfl
  have hmerged := forall₂_merge h
  have hgathered : List.Forall₂ (Parameter.MadeOf b) ((winners ds).filter ParameterAt.gathered)
      ((mergeParameters ps).filter fun p => p.location.isMetadata) :=
    List.rel_filter (fun d p hp => iff_of_eq (congrArg (· = true) hp.location_cases.2)) hmerged
  have hdirect : List.Forall₂ (Parameter.MadeOf b) ((winners ds).filter ParameterAt.direct)
      ((mergeParameters ps).filter fun p => !p.location.isMetadata) :=
    List.rel_filter (fun d p hp => iff_of_eq (congrArg (· = true) hp.location_cases.1)) hmerged
  unfold signature
  dsimp only
  generalize (mergeParameters ps).filter (fun p => p.location.isMetadata) = gathered at *
  generalize (mergeParameters ps).filter (fun p => !p.location.isMetadata) = direct at *
  have hlength : (distinctNames [] (direct.map Parameter.name)).length = direct.length := by
    rw [length_distinctNames, List.length_map]
  have hdistinct := nodup_distinctNames [] (direct.map Parameter.name)
  split
  · next hempty =>
      rw [List.isEmpty_iff.1 hempty, List.forall₂_nil_right_iff] at hgathered
      refine .pure hc ⟨hplaced, ⟨_, [], (List.append_nil _).symm, forall₂_rename hdirect hlength,
        .inl ⟨hgathered, rfl⟩⟩, ?_⟩
      rw [map_name_rename hlength]
      exact hdistinct
  · next hany =>
      refine .bind (secured_metadataParameter hc _ _ hgathered) ?_
      rintro a d hd - ⟨hname, k, hk⟩
      refine .pure hd ⟨hplaced, ⟨_, [a], rfl, forall₂_rename hdirect hlength,
        .inr ⟨fun hnil => hany ?_, a, k, rfl, hk⟩⟩, ?_⟩
      · rw [hnil, List.forall₂_nil_left_iff] at hgathered
        rw [hgathered]
        rfl
      · rw [List.map_append, List.map_singleton, map_name_rename hlength, hname]
        refine hdistinct.append (List.nodup_singleton _) fun n hn hn' => ?_
        rw [List.mem_singleton.1 hn'] at hn
        exact firstFree_not_mem (numbered_injective _ _) _ hn

end Construction

end ApiModel.Client
