/-
  ApiModel.Proofs.Schema.Faithful

  What is loaded says what the document says. A pointer that has been loaded leads to the schema of
  the place where references end from there: the keywords are those of the object, the children are
  the schemas loaded for their places, and null is allowed besides where the object says so. Until its
  children have been read, and after that has failed, the schema is blank. This holds between all
  requests, whether they succeed or not.
-/
import ApiModel.Proofs.Schema.Descent
import ApiModel.Proofs.Schema.Effect
import ApiModel.Proofs.Schema.Request
import ApiModel.Proofs.Schema.Slot

namespace ApiModel.Session

open Document Work

variable {P : Json → Prop} {L : Arena.Law P} {document v : Json} {s t u : Session}
  {p q target place : Pointer} {id c : SchemaId} {m k : Schema} {fields : List (String × Json)}
  {load : Loader} {naming : Naming} {calls : Nat}

/-! ## Schemas that say what the document says -/

/-- There is a schema just where there is a value, and it is the one that has been loaded for the
    place. -/
def Leads (s : Session) (place : Pointer) (o : Option Json) (o' : Option SchemaId) : Prop :=
  Option.Rel (fun _ c => s.loaded.get? place = some c) o o'

theorem Leads.later {o : Option Json} {o' : Option SchemaId} (h : Leads s place o o')
    (hloaded : ∀ p id, s.loaded.get? p = some id → t.loaded.get? p = some id) :
    Leads t place o o' := by
  cases h with
  | some hc => exact .some (hloaded _ _ hc)
  | none => exact .none

/-- The schema `m` has the keywords of the object at `target`, and its children are those that have
    been loaded for their places. -/
structure Copies (s : Session) (target : Pointer) (fields : List (String × Json)) (m : Schema) :
    Prop where
  keywords : ∃ k, readKeywords target fields = .ok k ∧ m = { k with
    items := m.items, properties := m.properties, extras := m.extras,
    allOf := m.allOf, anyOf := m.anyOf, oneOf := m.oneOf }
  children : ∀ slot : Slot, Leads s (slot.place target) (slot.value? (.obj fields)) (slot.child? m)

/-- The schema `m` is that of the value `v` at `target`. -/
inductive Renders (s : Session) (target : Pointer) : Json → Schema → Prop
  | anything : Renders s target (.bool true) (.blank target)
  | nothing : Renders s target (.bool false) { Schema.blank target with kinds := some .empty }
  | plain {fields : List (String × Json)} {m : Schema} (hm : Copies s target fields m)
      (hnull : flag fields "nullable" = false) : Renders s target (.obj fields) m
  | nullable {fields : List (String × Json)} {m : Schema} {ks : KindSet}
      (hm : Copies s target fields m) (hnull : flag fields "nullable" = true)
      (hks : m.kinds = some ks) :
      Renders s target (.obj fields) { m with kinds := some (ks.insert .null) }
  | idle {fields : List (String × Json)} {m : Schema} (hm : Copies s target fields m)
      (hnull : flag fields "nullable" = true) (hks : m.kinds = none)
      (hcombines : m.hasCombinators = false) : Renders s target (.obj fields) m
  /-- The schema without null, and null, are the two alternatives. -/
  | split {fields : List (String × Json)} {inner null : SchemaId}
      (hm : Copies s target fields (s.arena.schema inner))
      (hnull : flag fields "nullable" = true) (hks : (s.arena.schema inner).kinds = none)
      (hcombines : (s.arena.schema inner).hasCombinators = true)
      (hnullAt : s.arena.schema null = nullAt target) (hinner : inner < s.arena.next)
      (hlt : null < s.arena.next) :
      Renders s target (.obj fields) { Schema.blank target with anyOf := [inner, null] }

/-- Every pointer that has been loaded leads to the schema of what it leads to in the document, or to
    one that is blank yet. -/
def Faithful (document : Json) (s : Session) : Prop :=
  ∀ p id, s.loaded.get? p = some id → id < s.arena.next ∧
    ∃ target v, resolve document p = .ok (target, v) ∧
      (s.arena.schema id = .blank target ∨ Renders s target v (s.arena.schema id))

/-- The session `t` has more schemas and loaded pointers than `s`; the schemas of `s` are as they
    were. -/
abbrev Adds (s t : Session) : Prop := Loads s.arena.next s t

theorem Loads.of_le {n n' : Nat} (h : Loads n s t) (hle : n' ≤ n) : Loads n' s t :=
  { h with schema := fun id hid => h.schema id (Nat.lt_of_lt_of_le hid hle) }

instance : IsPreorder Session Adds where
  refl s := refl_of (Loads s.arena.next) s
  trans s _ _ h h' := trans_of (Loads s.arena.next) h (h'.of_le h.next)

theorem Copies.mono (hloaded : ∀ p id, s.loaded.get? p = some id → t.loaded.get? p = some id)
    (h : Copies s target fields m) : Copies t target fields m where
  keywords := h.keywords
  children slot := (h.children slot).later hloaded

theorem Copies.pointer (h : Copies s target fields m) : m.pointer = target := by
  obtain ⟨k, hk, hm⟩ := h.keywords
  rw [hm]
  show k.pointer = target
  exact pointer_of_readKeywords hk

theorem Renders.pointer (h : Renders s target v m) : m.pointer = target := by
  cases h with
  | plain hm _ => exact hm.pointer
  | nullable hm _ _ => exact hm.pointer
  | idle hm _ _ _ => exact hm.pointer
  | _ => rfl

/-- A schema stays that of its place as long as what it is split into stays. -/
theorem Renders.mono (hloaded : ∀ p id, s.loaded.get? p = some id → t.loaded.get? p = some id)
    (hnext : s.arena.next ≤ t.arena.next)
    (hschema : ∀ id, id < s.arena.next → s.arena.schema id ≠ .blank (s.arena.schema id).pointer →
      t.arena.schema id = s.arena.schema id)
    (h : Renders s target v m) : Renders t target v m := by
  cases h with
  | anything => exact .anything
  | nothing => exact .nothing
  | plain hm hnull => exact .plain (hm.mono hloaded) hnull
  | nullable hm hnull hks => exact .nullable (hm.mono hloaded) hnull hks
  | idle hm hnull hks hcombines => exact .idle (hm.mono hloaded) hnull hks hcombines
  | @split _ inner null hm hnull hks hcombines hnullAt hinner hlt =>
      have hinner' : t.arena.schema inner = s.arena.schema inner := by
        refine hschema inner hinner fun hblank => ?_
        rw [hblank] at hcombines
        cases hcombines
      have hnull' : t.arena.schema null = s.arena.schema null := by
        refine hschema null hlt fun hblank => ?_
        rw [hnullAt] at hblank
        cases congrArg Schema.kinds hblank
      exact .split (hinner' ▸ hm.mono hloaded) hnull (hinner' ▸ hks) (hinner' ▸ hcombines)
        (hnull'.trans hnullAt) (Nat.lt_of_lt_of_le hinner hnext) (Nat.lt_of_lt_of_le hlt hnext)

theorem Renders.adds (hst : Adds s t) (h : Renders s target v m) : Renders t target v m :=
  h.mono hst.loaded hst.next fun id hid _ => hst.schema id hid

/-! ## Steps that load -/

/-- `x`, started in `s`, keeps the session faithful and only adds to it. -/
abbrev Transcribes {α : Type} (document : Json) (x : SessionWork α) (s : Session)
    (post : α → Session → Prop) : Prop :=
  Yields (Faithful document) Adds x s post

theorem Transcribes.of_le {α : Type} {x : SessionWork α} {post : α → Session → Prop} {n : Nat}
    (h : Transcribes document x s post) (hn : n ≤ s.arena.next) :
    Yields (Faithful document) (Loads n) x s post :=
  Ends.mono h (fun _ _ ht => ⟨⟨ht.1.1, ht.1.2.of_le hn⟩, ht.2⟩)
    fun _ _ ht => ⟨ht.1, ht.2.of_le hn⟩

/-- A way of loading that keeps sessions faithful. -/
def Transcribing (document : Json) (load : Loader) : Prop :=
  ∀ p s, Faithful document s → Transcribes document (load p) s fun id t =>
    t.loaded.get? p = some id

/-- Schemas that come besides change nothing. -/
theorem Faithful.adds (hs : Faithful document s) (hst : Adds s t) (hloaded : t.loaded = s.loaded) :
    Faithful document t := by
  intro p id hp
  rw [hloaded] at hp
  obtain ⟨hlt, target, v, hres, hid⟩ := hs p id hp
  rw [hst.schema id hlt]
  exact ⟨Nat.lt_of_lt_of_le hlt hst.next, target, v, hres, hid.imp_right (.adds hst)⟩

theorem transcribes_loadItems (hload : Transcribing document load) (hs : Faithful document s) :
    Transcribes document (loadItems load place fields) s fun r t =>
      Leads t (place.push "items") (fields.lookup "items") r := by
  unfold loadItems
  split
  · next hnone => exact .pure hs (hnone ▸ .none)
  · exact .fault hs
  · next hsome =>
      exact .bind (hload _ s hs) fun c t ht _ hc => .pure ht (hsome ▸ .some hc)

theorem transcribes_loadProperties (hload : Transcribing document load) (hs : Faithful document s)
    (base : Pointer) (keys : List String) (read : Dict String SchemaId) :
    Transcribes document (loadProperties load base keys read) s fun r t => ∀ name,
      (name ∈ keys → ∃ c, r.get? name = some c ∧ t.loaded.get? (base.push name) = some c) ∧
        (name ∉ keys → r.get? name = read.get? name) := by
  induction keys generalizing read s with
  | nil => exact .pure hs fun name => ⟨nofun, fun _ => rfl⟩
  | cons key keys ih =>
      unfold loadProperties
      refine .bind (hload _ s hs) fun c t ht _ hc => ?_
      refine Yields.mono (ih ht (read.insert key c)) fun r u _ htu hr name => ⟨fun hname => ?_, ?_⟩
      · by_cases hin : name ∈ keys
        · exact (hr name).1 hin
        · obtain rfl := (List.mem_cons.1 hname).resolve_right hin
          exact ⟨c, ((hr name).2 hin).trans (Dict.get?_insert_self _ _ _), htu.loaded _ _ hc⟩
      · intro hname
        rw [List.mem_cons, not_or] at hname
        rw [(hr name).2 hname.2, Dict.get?_insert_of_ne _ hname.1]

theorem transcribes_loadExtras (hload : Transcribing document load) (hs : Faithful document s) :
    Transcribes document (loadExtras load place fields) s fun r t =>
      ∀ m : Schema, m.extras = r → Leads t (place.push "additionalProperties")
        (Slot.extras.value? (.obj fields)) (Arena.extraSchema? m) := by
  have hget : (Json.obj fields).get? "additionalProperties" =
      fields.lookup "additionalProperties" := rfl
  unfold loadExtras Slot.value?
  split
  · next hnone =>
      refine .pure hs fun m hm => ?_
      rw [hget, hnone, Arena.extraSchema?, hm]
      exact .none
  · next hsome =>
      refine .pure hs fun m hm => ?_
      rw [hget, hsome, Arena.extraSchema?, hm]
      exact .none
  · next w hother hsome =>
      refine .bind (hload _ s hs) fun c t ht _ hc => .pure ht fun m hm => ?_
      rw [hget, hsome, Arena.extraSchema?, hm]
      cases w with
      | bool yes => exact absurd rfl (hother yes)
      | _ => exact .some hc

theorem transcribes_loadFrom (hload : Transcribing document load) (hs : Faithful document s)
    (base : Pointer) (i : Nat) (items : List Json) :
    Transcribes document (loadFrom load base i items) s fun r t =>
      ∀ j, Leads t (base.index (i + j)) items[j]? r[j]? := by
  induction items generalizing i s with
  | nil => exact .pure hs fun j => .none
  | cons w items ih =>
      unfold loadFrom
      refine .bind (hload _ s hs) fun c t ht _ hc => ?_
      refine .bind (ih ht (i + 1)) fun cs u hu htu hcs => .pure hu fun j => ?_
      cases j with
      | zero => exact .some (htu.loaded _ _ hc)
      | succ j =>
          have hindex : i + 1 + j = i + (j + 1) := by omega
          have hj := hcs j
          rw [hindex] at hj
          exact hj

theorem transcribes_loadMembers (hload : Transcribing document load) (hs : Faithful document s)
    (keyword : String) :
    Transcribes document (loadMembers load place fields keyword) s fun r t => ∀ i,
      Leads t ((place.push keyword).index i)
        ((fields.lookup keyword).bind fun v => v.items?.bind (·[i]?)) r[i]? := by
  unfold loadMembers
  split
  · next hnone => exact .pure hs fun i => hnone ▸ .none
  · next items hsome =>
      refine Yields.mono (transcribes_loadFrom hload hs _ 0 items) fun r t _ _ hr i => ?_
      have hi := hr i
      rw [Nat.zero_add] at hi
      rw [hsome]
      exact hi
  · exact .fault hs

/-! ## Schemas -/

theorem transcribes_push (hs : Faithful document s) (m : Schema) :
    Transcribes document (push m) s fun id t =>
      id < t.arena.next ∧ t.arena.schema id = m ∧ t.loaded = s.loaded := by
  have hst : Adds s { s with arena := s.arena.push m } := loads_push (Nat.le_refl _) m
  unfold push
  refine .view_bind (.modify_bind (hs.adds hst rfl) hst (.pure (hs.adds hst rfl) ⟨?_, ?_, rfl⟩))
  · exact Arena.next_push s.arena m ▸ Nat.lt_succ_self _
  · show (s.arena.push m).schema s.arena.next = m
    rw [Arena.schema_push, if_pos rfl]

/-- Null is allowed besides. -/
theorem transcribes_allowNull (hs : Faithful document s) (hm : Copies s target fields m)
    (hnull : flag fields "nullable" = true) :
    Transcribes document (allowNull m) s fun r t => Renders t target (.obj fields) r := by
  unfold allowNull
  split
  · next ks hks => exact .pure hs (.nullable hm hnull hks)
  next hks =>
  split
  · next hcombines =>
      refine .bind (transcribes_push hs m) fun inner t ht hst hinner => ?_
      refine .bind (transcribes_push ht _) fun null u hu htu hnullAt => .pure hu ?_
      have hschema : u.arena.schema inner = m :=
        (htu.schema inner hinner.1).trans hinner.2.1
      have hmu : Copies u target fields m := hm.mono fun p id hp => htu.loaded _ _ (hst.loaded _ _ hp)
      rw [hm.pointer]
      rw [hm.pointer] at hnullAt
      rw [← hschema] at hmu hks hcombines
      exact .split hmu hnull hks hcombines hnullAt.2.1
        (Nat.lt_of_lt_of_le hinner.1 htu.next) hnullAt.1
  · next hcombines =>
      exact .pure hs (.idle hm hnull hks (Bool.eq_false_of_not_eq_true hcombines))

theorem transcribes_warn (hs : Faithful document s) (w : Warning) :
    Transcribes document (warn w) s fun _ _ => True := by
  have hstep : ∀ ws, Faithful document { s with warnings := ws } ∧
      Adds s { s with warnings := ws } := by
    intro ws
    have hst : Adds s { s with warnings := ws } :=
      ⟨⟨_, _, _, rfl⟩, Nat.le_refl _, fun _ _ => rfl, fun _ _ h => h⟩
    exact ⟨hs.adds hst rfl, hst⟩
  refine ⟨?_, trivial⟩
  dsimp only
  split
  · exact hstep s.warnings
  · exact hstep _

/-- What is read of a value is the schema of the value. -/
theorem transcribes_readSchema (hload : Transcribing document load) (hs : Faithful document s)
    (target : Pointer) (v : Json) :
    Transcribes document (readSchema load target v) s fun r t => Renders t target v r := by
  unfold readSchema
  split
  · exact .pure hs .anything
  · exact .pure hs .nothing
  · next fields =>
      refine .bind (Q := fun k _ => readKeywords target fields = .ok k)
        (.ofExcept hs fun k hk => hk) fun k s₀ hs₀ _ hk => ?_
      refine .bind (transcribes_loadItems hload hs₀) fun items s₁ hs₁ h₁ hitems => ?_
      refine .bind (transcribes_loadProperties hload hs₁ _ _ _) fun props s₂ hs₂ h₂ hprops => ?_
      refine .bind (transcribes_loadExtras hload hs₂) fun extras s₃ hs₃ h₃ hextras => ?_
      refine .bind (transcribes_loadMembers hload hs₃ "allOf") fun alls s₄ hs₄ h₄ hall => ?_
      refine .bind (transcribes_loadMembers hload hs₄ "anyOf") fun anys s₅ hs₅ h₅ hany => ?_
      refine .bind (transcribes_loadMembers hload hs₅ "oneOf") fun ones s₆ hs₆ h₆ hone => ?_
      dsimp only
      generalize hmeq : ({ k with
        items := items, properties := props, extras := extras,
        allOf := alls, anyOf := anys, oneOf := ones } : Schema) = m
      have hm : Copies s₆ target fields m := by
        have h₄₆ := trans_of Adds h₅ h₆
        have h₃₆ := trans_of Adds h₄ h₄₆
        have h₂₆ := trans_of Adds h₃ h₃₆
        refine ⟨⟨k, hk, hmeq ▸ rfl⟩, fun slot => ?_⟩
        subst hmeq
        cases slot with
        | items => exact hitems.later (trans_of Adds h₂ h₂₆).loaded
        | property name =>
            show Leads s₆ _ _ (props.get? name)
            by_cases hname : name ∈ propertyNames fields
            · obtain ⟨c, hc, hloaded⟩ := (hprops name).1 hname
              obtain ⟨w, hw⟩ := Option.isSome_iff_exists.1 (mem_propertyNames_iff.1 hname)
              rw [hc, hw]
              exact .some (h₂₆.loaded _ _ hloaded)
            · have hnone : (Slot.property name).value? (.obj fields) = none := by
                rwa [mem_propertyNames_iff, Option.not_isSome_iff_eq_none] at hname
              rw [(hprops name).2 hname, hnone]
              exact .none
        | extras => exact (hextras _ rfl).later h₃₆.loaded
        | member combinator i =>
            cases combinator with
            | allOf => exact (hall i).later h₄₆.loaded
            | anyOf => exact (hany i).later h₆.loaded
            | oneOf => exact hone i
      -- a warning comes in between where there is a keyword that is not supported
      have hrest : ∀ u, Faithful document u → Adds s₆ u →
          Transcribes document (if flag fields "nullable" then allowNull m else return m) u
            fun r t => Renders t target (.obj fields) r := by
        intro u hu hsu
        have hmu : Copies u target fields m := hm.mono hsu.loaded
        split
        · next hnull => exact transcribes_allowNull hu hmu hnull
        · next hnull => exact .pure hu (.plain hmu (Bool.eq_false_of_not_eq_true hnull))
      split
      · exact .bind (transcribes_warn hs₆ _) fun _ u hu hsu _ => hrest u hu hsu
      · exact hrest s₆ hs₆ (refl_of Adds s₆)
  · exact .fault hs

/-! ## Loading -/

theorem faithful_reserved (hs : Faithful document s) (hp : s.loaded.get? p = none)
    (htarget : s.loaded.get? target = none) (hres : resolve document p = .ok (target, v)) :
    Faithful document (reserved s target p) := by
  have hst : Adds s (reserved s target p) := loads_reserved (Nat.le_refl _) hp htarget
  intro q id hq
  rw [get?_reserved] at hq
  split at hq
  · next hnew =>
      cases hq
      refine ⟨Arena.next_push s.arena _ ▸ Nat.lt_succ_self _, target, v, ?_, .inl ?_⟩
      · rcases hnew with rfl | rfl
        · exact hres
        · exact resolve_target hres
      · show (s.arena.push (.blank target)).schema s.arena.next = _
        rw [Arena.schema_push, if_pos rfl]
  · obtain ⟨hlt, target', v', hres', hid⟩ := hs q id hq
    rw [hst.schema id hlt]
    exact ⟨Nat.lt_of_lt_of_le hlt hst.next, target', v', hres', hid.imp_right (.adds hst)⟩

/-- The schema that has been read for a place takes the place of a blank one. -/
theorem Faithful.replace (hs : Faithful document s) (hid : s.arena.schema id = .blank target)
    (hlt : id < s.arena.next) (hnode : node document target = .ok v) (hm : Renders s target v m) :
    Faithful document { s with arena := s.arena.replace id m } := by
  have hmono : ∀ {place w k}, Renders s place w k →
      Renders { s with arena := s.arena.replace id m } place w k := by
    refine Renders.mono (fun _ _ h => h) (Nat.le_of_eq (next_replace id m).symm) fun i _ hi => ?_
    rw [Arena.schema_replace, if_neg]
    rintro ⟨rfl, -⟩
    rw [hid] at hi
    exact hi rfl
  intro q i hq
  obtain ⟨hi, target', v', hres, hschema⟩ := hs q i hq
  refine ⟨Nat.lt_of_lt_of_eq hi (next_replace id m).symm, target', v', hres, ?_⟩
  rw [Arena.schema_replace]
  split
  · next heq =>
      obtain ⟨rfl, -⟩ := heq
      have hpointer : target = target' := by
        rw [hid] at hschema
        exact hschema.elim (congrArg Schema.pointer) Renders.pointer
      subst hpointer
      obtain rfl : v = v' := by
        have hnode' := node_of_resolve hres
        rw [hnode] at hnode'
        cases hnode'
        rfl
      exact .inr (hmono hm)
  · exact hschema.imp_right hmono

theorem transcribing_loadStep (hload : Transcribing document load) :
    Transcribing document (loadStep document load) := by
  intro p s hs
  unfold loadStep
  refine .view_bind ?_
  split
  · next id hid => exact .pure hs hid
  next hp =>
  refine .bind (Q := fun r t => resolve document p = .ok r ∧ t = s)
    (.ofExcept hs fun r hr => ⟨hr, rfl⟩) ?_
  rintro ⟨target, v⟩ t ht _ ⟨hres, rfl⟩
  refine .view_bind ?_
  split
  · next id hid =>
      -- a reference to what was loaded under its own pointer
      have hst : Adds t { t with loaded := t.loaded.insert p id } := by
        refine ⟨⟨_, _, _, rfl⟩, Nat.le_refl _, fun _ _ => rfl, fun q i hi => ?_⟩
        rw [Dict.get?_insert, if_neg]
        · exact hi
        · rintro rfl
          cases hp.symm.trans hi
      have ht' : Faithful document { t with loaded := t.loaded.insert p id } := by
        intro q i hi
        rw [Dict.get?_insert] at hi
        split at hi
        · next hq =>
            cases hi
            obtain ⟨hlt, target', v', hres', hschema⟩ := ht target id hid
            cases (resolve_target hres).symm.trans hres'
            exact ⟨hlt, target, v, hq ▸ hres, hschema.imp_right (.adds hst)⟩
        · obtain ⟨hlt, target', v', hres', hschema⟩ := ht q i hi
          exact ⟨hlt, target', v', hres', hschema.imp_right (.adds hst)⟩
      exact .modify_bind ht' hst (.pure ht' (Dict.get?_insert_self ..))
  next htarget =>
  have hreserved := faithful_reserved ht hp htarget hres
  have hst : Adds t (reserved t target p) := loads_reserved (Nat.le_refl _) hp htarget
  obtain ⟨hlt, hblank⟩ : t.arena.next < (reserved t target p).arena.next ∧
      (reserved t target p).arena.schema t.arena.next = .blank target :=
    ⟨Arena.next_push t.arena _ ▸ Nat.lt_succ_self _, by
      show (t.arena.push (.blank target)).schema t.arena.next = _
      rw [Arena.schema_push, if_pos rfl]⟩
  show Yields (Faithful document) (Loads t.arena.next)
    (modify (fun _ => reserved t target p) >>= fun _ => readSchema load target v >>= fun m => do
      modify fun w => { w with arena := w.arena.replace t.arena.next m }
      return t.arena.next) t _
  have hread : Transcribes document (readSchema load target v) (reserved t target p) fun m w =>
      Adds (reserved t target p) w ∧ Renders w target v m :=
    (transcribes_readSchema hload hreserved target v).mono fun _ _ _ hrw hm => ⟨hrw, hm⟩
  refine .modify_bind hreserved hst (.bind (hread.of_le hst.next) ?_)
  rintro m w hw - ⟨hrw, hm⟩
  have hw' := hw.replace ((hrw.schema _ hlt).trans hblank) (Nat.lt_of_lt_of_le hlt hrw.next)
    (node_of_resolve hres) hm
  refine .modify_bind hw' (loads_replace (Nat.le_refl _) m) (.pure hw' ?_)
  refine hrw.loaded p _ ?_
  rw [get?_reserved, if_pos (.inl rfl)]

/-- Loading writes down what the document says. -/
theorem transcribing_load (document : Json) : Transcribing document (Session.load document) := by
  have hwithin : ∀ n, Transcribing document (loadWithin document n) := by
    intro n
    induction n with
    | zero => exact fun _ _ hs => .exhausted hs
    | succ n ih => exact transcribing_loadStep ih
  exact hwithin _

/-! ## Requests -/

theorem faithful_empty (document : Json) : Faithful document .empty := by
  intro p id h
  cases h

/-- What loads nothing and only adds to the session says nothing else of what is loaded. -/
theorem Faithful.follows (hs : Faithful document s) (hst : s.arena.Grows t.arena)
    (hloaded : t.loaded = s.loaded) : Faithful document t := by
  intro p id hp
  rw [hloaded] at hp
  obtain ⟨hlt, target, v, hres, hid⟩ := hs p id hp
  rw [hst.schema id hlt]
  refine ⟨Nat.lt_of_lt_of_le hlt hst.next, target, v, hres, hid.imp_right ?_⟩
  exact .mono (fun _ _ h => hloaded ▸ h) hst.next fun id hid _ => hst.schema id hid

/-- The same pointers have been loaded. -/
def SameLoaded (s t : Session) : Prop := t.loaded = s.loaded

instance : IsPreorder Session SameLoaded where
  refl _ := rfl
  trans _ _ _ h h' := Eq.trans h' h

theorem allowsTypes_sameLoaded : AllowsTypes SameLoaded where
  arena _ _ _ := rfl
  named _ _ _ := rfl
  marked _ _ := rfl
  warned _ _ := rfl
  typing _ _ _ := rfl

theorem allowsTyping_sameLoaded : AllowsTyping calls naming SameLoaded :=
  allowsTypes_sameLoaded.allowsTyping

/-- Only what looks at the document loads. -/
theorem obeys_answer_sameLoaded {r : Request} (hr : r.Offline) :
    Obeys SameLoaded (answer document naming calls r) :=
  obeys_answer allowsTyping_sameLoaded (fun _ _ _ _ _ => rfl) hr

/-- `x`, started in `s`, keeps the session lawful and faithful, and only adds to it. -/
abbrev Relates {α : Type} (L : Arena.Law P) (document : Json) (x : SessionWork α) (s : Session)
    (post : α → Session → Prop) : Prop :=
  Yields (fun t => t.Lawful L ∧ Faithful document t) Follows x s post

theorem Faithful.relates {α : Type} {x : SessionWork α} {post : α → Session → Prop}
    (hs : Faithful document s) (h : Serves L x s post) (hx : Obeys SameLoaded x) :
    Relates L document x s post :=
  h.of_final fun ht hst => ⟨⟨ht, hs.follows hst.arena (hx s)⟩, hst⟩

theorem relates_load (hP : Hereditary P) (hd : P document) (hl : s.Lawful L)
    (hs : Faithful document s) (p : Pointer) :
    Relates L document (Session.load document p) s fun id t => id < t.arena.next := by
  refine Ends.mono (Ends.and (serves_load hl hP hd p) (transcribing_load document p s hs)) ?_ ?_
  · rintro id t ⟨⟨⟨ht, hst⟩, -, hid, -⟩, ⟨hfaithful, -⟩, -⟩
    exact ⟨⟨⟨ht, hfaithful⟩, hst⟩, hid⟩
  · rintro e t ⟨⟨ht, hst⟩, hfaithful, -⟩
    exact ⟨⟨ht, hfaithful⟩, hst⟩

theorem relates_typeAt (hL : Arena.Upheld L) (hP : Hereditary P) (hd : P document)
    (hl : s.Lawful L) (hs : Faithful document s) (p : Pointer) (required : Bool) :
    Relates L document (typeAt document calls naming p required) s fun _ _ => True := by
  have hwork := allowsTypes_sameLoaded.toAllowsWork
  unfold typeAt
  refine .bind (relates_load hP hd hl hs p) fun id t ⟨hl₁, ht⟩ _ hid => ?_
  refine .bind (ht.relates (keeps_positionType hL hl₁ hid required).works.serves
    (obeys_positionType allowsTyping_sameLoaded id required)) fun r u ⟨hl₂, hu⟩ htu _ => ?_
  refine .bind (hu.relates (keeps_normalize hL hl₂ calls
    (Nat.lt_of_lt_of_le hid htu.arena.next)).works.serves (obeys_normalize hwork id))
    fun q v ⟨hl₃, hv⟩ _ hq => ?_
  cases q with
  | none => exact .pure ⟨hl₃, hv⟩ trivial
  | some form =>
      have hlt : form < v.arena.next := hl₃.arena.isForm_lt (hl₃.arena.form id form hq.2)
      refine .bind (hv.relates (works_collectWithin hL hl₃ calls fun x hx => ?_).serves
        (obeys_collect allowsTyping_sameLoaded (fun _ _ _ _ _ => rfl) [form])) fun _ w hw _ _ =>
          .pure hw trivial
      exact List.mem_singleton.1 hx ▸ hlt

theorem relates_answer (hL : Arena.Upheld L) (hP : Hereditary P) (hd : P document)
    (hl : s.Lawful L) (hs : Faithful document s) (r : Request)
    (hids : ∀ id ∈ r.ids, id < s.arena.next) :
    Relates L document (answer document naming calls r) s fun _ _ => True := by
  cases r with
  | load p => exact Yields.discard (relates_load hP hd hl hs p)
  | typeAt p required => exact Yields.discard (relates_typeAt hL hP hd hl hs p required)
  | _ =>
      exact hs.relates (works_answer hL hl (by trivial) hids).serves
        (obeys_answer_sameLoaded (by trivial))

theorem faithful_perform (hL : Arena.Upheld L) (hP : Hereditary P) (hd : P document)
    (hl : s.Lawful L) (hs : Faithful document s) (c : Call) (hc : c.Admissible s) :
    Lawful L ((perform document naming calls c).run s).2 ∧
      Faithful document ((perform document naming calls c).run s).2 := by
  rcases c.ask_or_aside with ⟨r, rfl⟩ | haside
  · rw [run_perform_ask]
    exact (relates_answer hL hP hd hl hs r hc.ids).final.1
  · have hsame : Spares s ((perform document naming calls c).run s).2 :=
      obeys_spares_perform haside s
    exact ⟨lawful_perform hl haside hc,
      hs.follows (hsame.arena ▸ .refl s.arena) hsame.loaded⟩

/-- In every session that is reached, what is loaded says what the document says. -/
theorem Reachable.faithful (h : Reachable document naming s) : Faithful document s := by
  suffices s.Lawful .free ∧ Faithful document s from this.2
  induction h with
  | refl => exact ⟨lawful_empty .free, faithful_empty document⟩
  | tail _ hstep ih =>
      obtain ⟨c, calls, hc, rfl⟩ := hstep
      exact faithful_perform Arena.upheld_free hereditary_true trivial ih.1 ih.2 c hc

end ApiModel.Session
