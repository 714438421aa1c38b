/-
  ApiModel.Proofs.Schema.ClassNames

  Class names are fresh and stable. A name is the identifier of what is asked for, or that and a
  counter, and the search for one that is free ends, as its candidates differ from each other. What
  a schema was named it is called ever after, and no name is given out twice, whether to schemas or
  on demand, whatever a session is asked in between.
-/
import ApiModel.Proofs.Fresh
import ApiModel.Proofs.Schema.Settled

namespace ApiModel

/-! ## The search for a name -/

/-- The segments of the place of a schema that are the module of its class. -/
def Schema.nameModule (m : Schema) : List String :=
  m.pointer.segments.take (Session.moduleLength m.pointer.segments)

/-- The base of the class name of a schema: its own hint, a suggestion, or what its place gives. -/
def Schema.baseName (m : Schema) (suggestion : Option String) : String :=
  (m.classHint.or suggestion).getD
    (Session.derivedName (m.pointer.segments.drop (Session.moduleLength m.pointer.segments)))

namespace Session

open Work

variable {s t : Session} {document : Json} {naming : Naming} {calls : Nat} {id : SchemaId}
  {n : TypeName} {module : List String} {base : String}

/-- The names tried for a base in a module, one after the other. -/
def candidate (naming : Naming) (module : List String) (base : String) (k : Nat) : TypeName :=
  ⟨module.map naming.moduleName, numbered "" (naming.className base) k⟩

theorem candidate_injective (naming : Naming) (module : List String) (base : String) :
    Function.Injective (candidate naming module base) :=
  fun _ _ h => numbered_injective "" _ (congrArg TypeName.name h)

/-- The name is the identifier of a base in a module, bare or with a counter of at least 2. -/
structure Spells (naming : Naming) (module : List String) (base : String) (n : TypeName) :
    Prop where
  module : n.module = module.map naming.moduleName
  name : n.name = naming.className base ∨ ∃ c ≥ 2, n.name = naming.className base ++ toString c

theorem spells_candidate (naming : Naming) (module : List String) (base : String) (k : Nat) :
    Spells naming module base (candidate naming module base k) where
  module := rfl
  name := by simpa [candidate] using numbered_eq "" (naming.className base) k

/-- The first candidate that is free is given out, and there are no more candidates before it than
    names that are taken. -/
theorem run_allocateName (naming : Naming) (module : List String) (base : String) (s : Session) :
    ∃ k ≤ s.takenNames.length, candidate naming module base k ∉ s.takenNames ∧
      (∀ j < k, candidate naming module base j ∈ s.takenNames) ∧
      (allocateName naming module base).run s = (.ok (candidate naming module base k),
        { s with takenNames := s.takenNames ++ [candidate naming module base k] }) := by
  obtain ⟨k, hle, heq, hfree, hbefore⟩ :=
    firstFree_eq (candidate_injective naming module base) s.takenNames
  have hrun : (allocateName naming module base).run s =
      (.ok (firstFree s.takenNames (candidate naming module base)), { s with
        takenNames := s.takenNames ++ [firstFree s.takenNames (candidate naming module base)] }) :=
    rfl
  rw [heq] at hrun
  exact ⟨k, hle, hfree, hbefore, hrun⟩

/-- A schema without a name is given one that is free. -/
theorem run_className_of_unnamed (naming : Naming) (h : s.classNames.get? id = none) :
    ∃ n, n ∉ s.takenNames ∧
      Spells naming (s.arena.schema id).nameModule
        ((s.arena.schema id).baseName (s.suggestions.get? (s.arena.schema id).pointer)) n ∧
      (className naming id).run s = (.ok n, { s with
        takenNames := s.takenNames ++ [n], classNames := s.classNames.insert id n }) := by
  generalize hbase :
    (s.arena.schema id).baseName (s.suggestions.get? (s.arena.schema id).pointer) = base
  obtain ⟨k, -, hfree, -, hrun⟩ := run_allocateName naming (s.arena.schema id).nameModule base s
  refine ⟨_, hfree, spells_candidate _ _ _ k, ?_⟩
  have hnamed : (className naming id).run s = Work.run (do
      let name ← allocateName naming (s.arena.schema id).nameModule base
      Work.modify fun t => { t with classNames := t.classNames.insert id name }
      return name) s := by
    unfold className
    rw [← hbase, run_bind, run_view, h]
    rfl
  rw [hnamed, run_bind, hrun]
  rfl

/-! ## What names are given out -/

/-- The name is one that the schema asks for. A suggestion that has been made since it was named
    does not count. -/
def Entitled (naming : Naming) (s : Session) (id : SchemaId) (n : TypeName) : Prop :=
  id < s.arena.next ∧ ∃ suggestion,
    (suggestion = none ∨ suggestion = s.suggestions.get? (s.arena.schema id).pointer) ∧
    Spells naming (s.arena.schema id).nameModule ((s.arena.schema id).baseName suggestion) n

/-- The names of schemas have been given out, each to one schema. -/
structure Distinct (s : Session) : Prop where
  taken : ∀ id n, s.classNames.get? id = some n → n ∈ s.takenNames
  unique : ∀ id id' n, s.classNames.get? id = some n → s.classNames.get? id' = some n → id = id'

/-- What there is in `s` is there in `t`, the names included; a schema that has been named since has
    a name that it asks for and that was free. -/
structure Entitles (naming : Naming) (s t : Session) : Prop where
  next : s.arena.next ≤ t.arena.next
  schema : ∀ id < s.arena.next, t.arena.schema id = s.arena.schema id
  suggestions : ∀ p w, s.suggestions.get? p = some w → t.suggestions.get? p = some w
  taken : s.takenNames ⊆ t.takenNames
  kept : ∀ id n, s.classNames.get? id = some n → t.classNames.get? id = some n
  fresh : ∀ id n, t.classNames.get? id = some n → s.classNames.get? id = some n ∨
    n ∉ s.takenNames ∧ n ∈ t.takenNames ∧ t.Entitled naming id n
  distinct : s.Distinct → t.Distinct

/-- What a schema asks for it still asks for. -/
theorem Entitled.mono (h : s.Entitled naming id n) (hst : Entitles naming s t) :
    t.Entitled naming id n := by
  obtain ⟨hid, suggestion, hsuggestion, hspells⟩ := h
  unfold Entitled
  rw [hst.schema id hid]
  refine ⟨Nat.lt_of_lt_of_le hid hst.next, suggestion, ?_, hspells⟩
  cases suggestion with
  | none => exact .inl rfl
  | some w =>
      have hold := hsuggestion.resolve_left (Option.some_ne_none w)
      exact .inr (hst.suggestions _ w hold.symm).symm

instance : IsPreorder Session (Entitles naming) where
  refl _ := ⟨Nat.le_refl _, fun _ _ => rfl, fun _ _ h => h, fun _ h => h, fun _ _ h => h,
    fun _ _ h => .inl h, fun h => h⟩
  trans s t u hst htu := by
    refine ⟨Nat.le_trans hst.next htu.next, fun id hid => ?_, fun p w hw => ?_,
      fun n hn => htu.taken (hst.taken hn), fun id n hn => htu.kept id n (hst.kept id n hn),
      fun id n hn => ?_, fun hs => htu.distinct (hst.distinct hs)⟩
    · rw [htu.schema id (Nat.lt_of_lt_of_le hid hst.next), hst.schema id hid]
    · exact htu.suggestions p w (hst.suggestions p w hw)
    · rcases htu.fresh id n hn with hold | ⟨hfree, htaken, hentitled⟩
      · rcases hst.fresh id n hold with holder | ⟨hfree, htaken, hentitled⟩
        · exact .inl holder
        · exact .inr ⟨hfree, htu.taken htaken, hentitled.mono htu⟩
      · exact .inr ⟨fun hs => hfree (hst.taken hs), htaken, hentitled⟩

/-- What gives no name to a schema. -/
theorem entitles_of_eq (hnext : s.arena.next ≤ t.arena.next)
    (hschema : ∀ id < s.arena.next, t.arena.schema id = s.arena.schema id)
    (hsuggestions : ∀ p w, s.suggestions.get? p = some w → t.suggestions.get? p = some w)
    (htaken : s.takenNames ⊆ t.takenNames) (hnames : t.classNames = s.classNames) :
    Entitles naming s t where
  next := hnext
  schema := hschema
  suggestions := hsuggestions
  taken := htaken
  kept _ _ hn := hnames ▸ hn
  fresh _ _ hn := .inl (hnames ▸ hn)
  distinct hs := ⟨fun id n hn => htaken (hs.taken id n (hnames ▸ hn)), hnames ▸ hs.unique⟩

/-- What leaves the schemas and the tables of names alone. -/
theorem entitles_of_same (harena : t.arena = s.arena) (hsuggestions : t.suggestions = s.suggestions)
    (htaken : t.takenNames = s.takenNames) (hnames : t.classNames = s.classNames) :
    Entitles naming s t :=
  entitles_of_eq (Nat.le_of_eq (harena ▸ rfl)) (fun _ _ => harena ▸ rfl)
    (fun _ _ hw => hsuggestions ▸ hw) (fun _ hn => htaken ▸ hn) hnames

theorem entitles_className (s : Session) (hid : id < s.arena.next) :
    Entitles naming s ((className naming id).run s).2 := by
  cases hnone : s.classNames.get? id with
  | some n =>
      rw [run_className_of_known naming hnone]
      exact refl_of (Entitles naming) s
  | none =>
  obtain ⟨n, hfree, hspells, hrun⟩ := run_className_of_unnamed naming hnone
  have hget : ∀ i, (s.classNames.insert id n).get? i =
      if i = id then some n else s.classNames.get? i := fun i => Dict.get?_insert _ _ _ _
  rw [hrun]
  refine ⟨Nat.le_refl _, fun _ _ => rfl, fun _ _ h => h, List.subset_append_left _ _,
    fun i m hm => ?kept, fun i m hm => ?fresh, fun hs => ⟨fun i m hm => ?taken, ?unique⟩⟩
  case kept =>
    have hne : i ≠ id := by
      rintro rfl
      cases hm.symm.trans hnone
    exact (hget i).trans (by rw [if_neg hne, hm])
  case fresh =>
    rw [hget] at hm
    split at hm
    · next heq =>
        obtain rfl := heq
        cases hm
        exact .inr ⟨hfree, List.mem_append_right _ (List.mem_singleton_self n), hid, _, .inr rfl,
          hspells⟩
    · exact .inl hm
  case taken =>
    rw [hget] at hm
    split at hm
    · cases hm
      exact List.mem_append_right _ (List.mem_singleton_self n)
    · exact List.mem_append_left _ (hs.taken i m hm)
  -- the new name was free, and the names of other schemas were taken
  case unique =>
    intro i j m hi hj
    rw [hget] at hi hj
    split at hi <;> split at hj
    · next hi' hj' => exact hi'.trans hj'.symm
    · cases hi
      exact absurd (hs.taken j n hj) hfree
    · cases hj
      exact absurd (hs.taken i n hi) hfree
    · exact hs.unique i j m hi hj

/-! ## Requests -/

/-- The tables of names are the same. -/
def SameNames (s t : Session) : Prop :=
  t.suggestions = s.suggestions ∧ t.takenNames = s.takenNames ∧ t.classNames = s.classNames

instance : IsPreorder Session SameNames where
  refl _ := ⟨rfl, rfl, rfl⟩
  trans _ _ _ h h' := ⟨h'.1.trans h.1, h'.2.1.trans h.2.1, h'.2.2.trans h.2.2⟩

theorem allowsWork_sameNames : AllowsWork SameNames where
  arena _ _ _ := ⟨rfl, rfl, rfl⟩
  marked _ _ := ⟨rfl, rfl, rfl⟩
  warned _ _ := ⟨rfl, rfl, rfl⟩

theorem entitles_change {a : Arena} (h : s.arena.Change a) :
    Entitles naming s { s with arena := a } := by
  have hsame : ∀ m id, id < s.arena.next → (s.arena.push m).schema id = s.arena.schema id := by
    intro m id hid
    rw [Arena.schema_push, if_neg (Nat.ne_of_lt hid)]
  refine entitles_of_eq ?_ ?_ (fun _ _ hw => hw) (fun _ hn => hn) rfl
  · cases h with
    | pushed m => exact Arena.next_push s.arena m ▸ Nat.le_succ _
    | noted => exact Nat.le_refl _
    | deferred place => exact Arena.next_addDeferred s.arena _ place ▸ Nat.le_succ _
  · cases h with
    | pushed m => exact hsame m
    | noted => exact fun _ _ => rfl
    | deferred place => exact hsame _

theorem allowsWork_entitles : AllowsWork (Entitles naming) where
  arena _ _ := entitles_change
  marked _ _ := entitles_of_same rfl rfl rfl rfl
  warned _ _ := entitles_of_same rfl rfl rfl rfl

/-- Only schemas with properties are named on the way to a type, and these exist. -/
theorem lt_of_properties (h : (s.arena.schema id).properties.isEmpty = false) :
    id < s.arena.next := by
  by_contra hle
  rw [Arena.schema_of_le s.arena (Nat.le_of_not_lt hle)] at h
  cases h

theorem allowsNames_entitles :
    AllowsNames naming (fun s id => id < s.arena.next) (Entitles naming) where
  named s _ hid := entitles_className s hid
  guard _ _ := lt_of_properties
  kept hst hid := Nat.lt_of_lt_of_le hid hst.next

theorem allowsTyping_entitles : AllowsTyping calls naming (Entitles naming) where
  toAllowsWork := allowsWork_entitles
  className s _ hprops := entitles_className s (lt_of_properties hprops)
  formType := obeys_formType allowsNames_entitles allowsWork_entitles fun _ _ _ =>
    entitles_of_same rfl rfl rfl rfl

theorem allowsClasses_entitles : AllowsClasses calls naming (Entitles naming) :=
  fun _ _ _ _ _ => entitles_of_same rfl rfl rfl rfl

/-- Loading gives out no names. -/
theorem entitles_load {L : Arena.Law fun _ => True} (hs : s.Lawful L) (p : Pointer) :
    Leads (Entitles naming) (load document p) s := by
  have hsame : Obeys SameNames (load document p) :=
    obeys_load allowsWork_sameNames ⟨fun _ _ => ⟨rfl, rfl, rfl⟩, fun _ _ _ => ⟨rfl, rfl, rfl⟩⟩ p
  obtain ⟨hsuggestions, htaken, hnames⟩ := hsame s
  have hserves : Serves L (load document p) s _ := serves_load hs hereditary_true trivial p
  have hgrows := hserves.final.2.arena
  exact entitles_of_eq hgrows.next hgrows.schema (fun _ _ hw => hsuggestions ▸ hw)
    (fun _ hn => htaken ▸ hn) hnames

/-- Whatever a session is asked, names are given out as they should be. -/
theorem entitles_answer {L : Arena.Law fun _ => True} (hs : s.Lawful L) (r : Request) :
    Leads (Entitles naming) (answer document naming calls r) s := by
  cases r with
  | load p => exact .bind (entitles_load hs p) fun _ _ _ => .pure _
  | typeAt p required =>
      refine .bind (.bind (entitles_load hs p) fun id t _ => Obeys.leads ?_ t) fun _ _ _ => .pure _
      exact obeys_typeOf allowsTyping_entitles allowsClasses_entitles id required
  | _ =>
      refine Obeys.leads (obeys_answer allowsTyping_entitles allowsClasses_entitles ?_) s
      trivial

/-! ## Calls -/

/-- A call and how it ended. -/
abbrev Entry := Call × Except Failure (Option TypeName)

/-- The names that were given out on demand, in the order of the calls. -/
def allocated (log : List Entry) : List TypeName :=
  log.filterMap fun
    | (.allocateName _ _, .ok name) => name
    | _ => none

theorem allocated_snoc (log : List Entry) (e : Entry) :
    allocated (log ++ [e]) = allocated log ++ allocated [e] :=
  List.filterMap_append

theorem mem_allocated_singleton {e : Entry} :
    n ∈ allocated [e] ↔ ∃ module base, e = (.allocateName module base, .ok (some n)) := by
  obtain ⟨c, r⟩ := e
  unfold allocated
  cases c with
  | allocateName module base =>
      rcases r with _ | _ | m
      · simp
      · simp
      · simp [eq_comm]
  | _ => simp

theorem nodup_allocated_singleton (e : Entry) : (allocated [e]).Nodup := by
  unfold allocated
  rw [List.filterMap_cons]
  split
  · exact List.nodup_nil
  · exact List.nodup_singleton _

/-- The session `s` is left by a sequence of calls to an empty one, which ended as the log says. -/
inductive Transcript (document : Json) (naming : Naming) : List Entry → Session → Prop where
  | nil : Transcript document naming [] .empty
  | call {log : List Entry} {s : Session} (c : Call) (calls : Nat)
      (h : Transcript document naming log s) (hc : c.Admissible s) :
      Transcript document naming (log ++ [(c, ((perform document naming calls c).run s).1)])
        ((perform document naming calls c).run s).2

/-- Whatever is called, names are given out as they should be. -/
theorem entitles_perform {L : Arena.Law fun _ => True} (hs : s.Lawful L) (c : Call)
    (hc : c.Admissible s) : Leads (Entitles naming) (perform document naming calls c) s := by
  cases c with
  | ask r => exact .bind (entitles_answer hs r) fun _ _ _ => .pure _
  | className id =>
      exact .bind (entitles_className s (hc.ids id (by simp [Call.ids]))) fun _ _ _ => .pure _
  | allocateName module base =>
      refine .bind ?_ fun _ _ _ => .pure _
      exact entitles_of_eq (Nat.le_refl _) (fun _ _ => rfl) (fun _ _ hw => hw)
        (List.subset_append_left _ _) rfl
  | suggest place name =>
      refine .bind ?_ fun _ _ _ => .pure _
      refine entitles_of_eq (Nat.le_refl _) (fun _ _ => rfl) (fun p w hw => ?_) (fun _ hn => hn) rfl
      show (s.suggestions.insertIfNew place name).get? p = some w
      rw [Dict.get?_insertIfNew]
      split
      · next heq => rw [← heq, hw, Option.getD_some]
      · exact hw
  | warn w =>
      refine .bind ?_ fun _ _ _ => .pure _
      exact obeys_warn allowsWork_entitles w s
  | register c => exact .bind (entitles_of_same rfl rfl rfl rfl) fun _ _ _ => .pure _
  | takeClasses =>
      refine .bind (.view_bind (.bind ?_ fun _ _ _ => .pure _)) fun _ _ _ => .pure _
      exact entitles_of_same rfl rfl rfl rfl
  | takeWarnings =>
      refine .bind (.view_bind (.bind ?_ fun _ _ _ => .pure _)) fun _ _ _ => .pure _
      exact entitles_of_same rfl rfl rfl rfl

/-! ## Sequences of calls -/

/-- The log accounts for the names of the session: what schemas were called on the way they are
    called still, and what was given out on demand is the name of no schema. -/
structure Accounts (naming : Naming) (log : List Entry) (s : Session) : Prop where
  lawful : s.Lawful Arena.Law.free
  distinct : s.Distinct
  entitled : ∀ id n, s.classNames.get? id = some n → s.Entitled naming id n
  schemas : ∀ id r, (.className id, r) ∈ log →
    ∃ n, r = .ok (some n) ∧ s.classNames.get? id = some n
  demands : ∀ module base r, (.allocateName module base, r) ∈ log →
    ∃ n, r = .ok (some n) ∧ Spells naming module base n
  apart : ∀ n ∈ allocated log, n ∈ s.takenNames ∧ ∀ id, s.classNames.get? id ≠ some n
  nodup : (allocated log).Nodup

namespace Accounts

variable {log : List Entry}

theorem empty (naming : Naming) : Accounts naming [] .empty where
  lawful := lawful_empty _
  distinct := ⟨fun _ _ h => by simp [Session.empty] at h, fun _ _ _ h => by simp [Session.empty] at h⟩
  entitled _ _ h := by simp [Session.empty] at h
  schemas _ _ h := by cases h
  demands _ _ _ h := by cases h
  apart _ h := by cases h
  nodup := List.nodup_nil

theorem mono (h : Accounts naming log s) (ht : t.Lawful Arena.Law.free)
    (hst : Entitles naming s t) : Accounts naming log t where
  lawful := ht
  distinct := hst.distinct h.distinct
  entitled id n hn := by
    rcases hst.fresh id n hn with hold | ⟨-, -, hentitled⟩
    · exact (h.entitled id n hold).mono hst
    · exact hentitled
  schemas id r hr := by
    obtain ⟨n, hok, hn⟩ := h.schemas id r hr
    exact ⟨n, hok, hst.kept id n hn⟩
  demands := h.demands
  apart n hn := by
    obtain ⟨htaken, hapart⟩ := h.apart n hn
    refine ⟨hst.taken htaken, fun id hid => ?_⟩
    rcases hst.fresh id n hid with hold | ⟨hfree, -⟩
    · exact hapart id hold
    · exact hfree htaken
  nodup := h.nodup

/-- One more call: a name that it gives to a schema is the one that the schema has, and a name that
    it gives on demand is new. -/
theorem snoc (h : Accounts naming log s) {e : Entry}
    (hschema : ∀ id, e.1 = .className id →
      ∃ n, e.2 = .ok (some n) ∧ s.classNames.get? id = some n)
    (hdemand : ∀ module base, e.1 = .allocateName module base →
      ∃ n, e.2 = .ok (some n) ∧ Spells naming module base n ∧ n ∈ s.takenNames ∧
        (∀ id, s.classNames.get? id ≠ some n) ∧ n ∉ allocated log) :
    Accounts naming (log ++ [e]) s := by
  have hnew : ∀ n ∈ allocated [e], n ∈ s.takenNames ∧ (∀ id, s.classNames.get? id ≠ some n) ∧
      n ∉ allocated log := by
    intro n hn
    obtain ⟨module, base, rfl⟩ := mem_allocated_singleton.1 hn
    obtain ⟨m, hm, -, hrest⟩ := hdemand module base rfl
    cases hm
    exact hrest
  refine { h with schemas := fun id r hr => ?_, demands := fun module base r hr => ?_,
                  apart := ?_, nodup := ?_ }
  · rcases List.mem_append.1 hr with hr | hr
    · exact h.schemas id r hr
    · cases List.mem_singleton.1 hr
      exact hschema id rfl
  · rcases List.mem_append.1 hr with hr | hr
    · exact h.demands module base r hr
    · cases List.mem_singleton.1 hr
      obtain ⟨n, hn, hspells, -⟩ := hdemand module base rfl
      exact ⟨n, hn, hspells⟩
  · rw [allocated_snoc]
    intro n hn
    rcases List.mem_append.1 hn with hn | hn
    · exact h.apart n hn
    · exact ⟨(hnew n hn).1, (hnew n hn).2.1⟩
  · rw [allocated_snoc]
    refine List.nodup_append.2 ⟨h.nodup, nodup_allocated_singleton e, fun n hn m hm hnm => ?_⟩
    exact (hnew m hm).2.2 (hnm ▸ hn)

end Accounts

/-- A call for the name of a schema gives the name that the schema has from then on. -/
theorem run_className_named (naming : Naming) (s : Session) (id : SchemaId) :
    ∃ n t, (className naming id).run s = (.ok n, t) ∧ t.classNames.get? id = some n := by
  cases hnone : s.classNames.get? id with
  | some n => exact ⟨n, s, run_className_of_known naming hnone, hnone⟩
  | none =>
      obtain ⟨n, -, -, hrun⟩ := run_className_of_unnamed naming hnone
      exact ⟨n, _, hrun, Dict.get?_insert_self _ _ _⟩

theorem Transcript.accounts {log : List Entry} (h : Transcript document naming log s) :
    Accounts naming log s := by
  induction h with
  | nil => exact .empty naming
  | @call log s c calls _ hc ih =>
      have hstep : Step document naming s ((perform document naming calls c).run s).2 :=
        ⟨c, calls, hc, rfl⟩
      have hlawful := (lawful_step Arena.upheld_free hereditary_true trivial ih.lawful hstep).1
      have hafter := ih.mono hlawful (entitles_perform ih.lawful c hc)
      refine hafter.snoc ?_ ?_
      · rintro id rfl
        obtain ⟨n, t, hrun, hn⟩ := run_className_named naming s id
        have hperform : (perform document naming calls (.className id)).run s = (.ok (some n), t) := by
          unfold perform
          rw [run_bind, hrun]
          rfl
        exact ⟨n, by rw [hperform], by rw [hperform]; exact hn⟩
      · rintro module base rfl
        obtain ⟨k, -, hfree, -, hrun⟩ := run_allocateName naming module base s
        generalize hn : candidate naming module base k = n at hfree hrun
        have hperform : (perform document naming calls (.allocateName module base)).run s =
            (.ok (some n), { s with takenNames := s.takenNames ++ [n] }) := by
          unfold perform
          rw [run_bind, hrun]
          rfl
        rw [hperform]
        refine ⟨n, rfl, hn ▸ spells_candidate naming module base k,
          List.mem_append_right _ (List.mem_singleton_self n), fun id hid => ?_, fun hmem => ?_⟩
        · exact hfree (ih.distinct.taken id n hid)
        · exact hfree (ih.apart n hmem).1

/-- After any sequence of calls: the search for a name goes through no more taken candidates than
    there are taken names and ends at one that is free; a call for the name of a schema has given
    the name that the schema still has, and a name that was demanded is the identifier demanded; so
    is the name of a schema what the schema asks for; and no two of these names are the same. -/
theorem classNames_fresh_and_stable {log : List Entry} (h : Transcript document naming log s) :
    (∀ module base, ∃ k ≤ s.takenNames.length, candidate naming module base k ∉ s.takenNames ∧
      (∀ j < k, candidate naming module base j ∈ s.takenNames) ∧
      ((allocateName naming module base).run s).1 = .ok (candidate naming module base k)) ∧
    (∀ id r, (.className id, r) ∈ log →
      ∃ n, r = .ok (some n) ∧ s.classNames.get? id = some n) ∧
    (∀ module base r, (.allocateName module base, r) ∈ log →
      ∃ n, r = .ok (some n) ∧ Spells naming module base n) ∧
    (∀ id n, s.classNames.get? id = some n → s.Entitled naming id n) ∧
    (∀ id id' n, s.classNames.get? id = some n → s.classNames.get? id' = some n → id = id') ∧
    (allocated log).Nodup ∧ ∀ n ∈ allocated log, ∀ id, s.classNames.get? id ≠ some n := by
  have haccounts := h.accounts
  refine ⟨fun module base => ?_, haccounts.schemas, haccounts.demands, haccounts.entitled,
    haccounts.distinct.unique, haccounts.nodup, fun n hn => (haccounts.apart n hn).2⟩
  obtain ⟨k, hle, hfree, hbefore, hrun⟩ := run_allocateName naming module base s
  exact ⟨k, hle, hfree, hbefore, by rw [hrun]⟩

/-- Two kinds of objects. -/
def twoObjects : Json :=
  .obj [("cat", .obj [("properties", .obj [("lives", .obj [])])]),
    ("dog", .obj [("properties", .obj [("owner", .obj [])])])]

/-- All classes have one identifier. -/
def oneIdentifier : Naming := { Naming.marked with className := fun _ => "C" }

/-- A cat is named, then a name is demanded, then the class of a dog is worked out, and then the cat
    is named again: three names are given out, each of them once. -/
theorem classNames_fresh_and_stable_oneIdentifier :
    ∃ log s, Transcript twoObjects oneIdentifier log s ∧ log.length = 6 ∧
      s.classNames.get? 0 = some ⟨[], "C"⟩ ∧ s.classNames.get? 2 = some ⟨[], "C3"⟩ ∧
      allocated log = [⟨[], "C2"⟩] ∧
      (∀ r, (.className 0, r) ∈ log → ∃ n, r = .ok (some n) ∧ s.classNames.get? 0 = some n) ∧
      ∀ n ∈ allocated log, ∀ id, s.classNames.get? id ≠ some n := by
  have hlog : Transcript twoObjects oneIdentifier _ _ :=
    .call (.className 0) 5
      (.call (.ask (.asType 2)) 5
        (.call (.allocateName [] "bird") 5
          (.call (.className 0) 5
            (.call (.ask (.load (Pointer.root.push "dog"))) 5
              (.call (.ask (.load (Pointer.root.push "cat"))) 5 .nil ⟨by decide, nofun⟩)
              ⟨by decide, nofun⟩)
            ⟨by decide +kernel, nofun⟩)
          ⟨by decide, nofun⟩)
        ⟨by decide +kernel, nofun⟩)
      ⟨by decide +kernel, nofun⟩
  obtain ⟨-, hstable, -, -, -, -, happart⟩ := classNames_fresh_and_stable hlog
  exact ⟨_, _, hlog, rfl, by decide +kernel, by decide +kernel, by decide +kernel, hstable 0,
    happart⟩

end Session

end ApiModel
