/-
  ApiModel.Proofs.Schema.Search

  How a type is searched for. Working out the type of a normal form goes depth first along what the
  type is spelled with, and keeps a path: a walk without repetition, of which nothing is remembered
  yet. What it finds is spelled out, and remembered as such. Where it fails, it has come to a normal
  form that is on the path already, or a normalization has failed on the way.
-/
import ApiModel.Proofs.Schema.Completion
import ApiModel.Proofs.Schema.Recall
import ApiModel.Proofs.Schema.Spelling
import ApiModel.Proofs.Schema.Unconstrained
import ApiModel.Proofs.Schema.Upkeep

namespace ApiModel.Session

open Work (Ends Settles)
open Filter (atTop Tendsto)

variable {P : Json → Prop} {o : Arena} {n id x c form : SchemaId} {path : List SchemaId}
  {s t : Session} {naming : Naming} {m : Schema}

/-! ## Scenes of the search -/

/-- All types that are remembered are those of normal forms that are spelled out. -/
def Remembers (s : Session) : Prop :=
  ∀ id u, s.types.get? id = some u → s.arena.IsForm id ∧ s.arena.SpelledOut id

theorem Remembers.mono (h : s.Remembers) (ha : s.arena.WellFormed P)
    (hst : s.arena.Grows t.arena) (htypes : t.types = s.types) : t.Remembers := by
  intro id u hu
  obtain ⟨hid, hout⟩ := h id u (htypes ▸ hu)
  exact ⟨hst.form hid, hout.mono ha hst hid⟩

/-- The search for the type of `n`, which began in the arena `o`, has come along the path. -/
structure Scene (o : Arena) (n : SchemaId) (path : List SchemaId) (s : Session) : Prop where
  lawful : s.Lawful Arena.Law.free
  remembers : s.Remembers
  explored : Arena.Explores n o s.arena
  typing : s.typing = path
  undone : ∀ x ∈ path, s.types.get? x = none
  walk : path ≠ [] → s.arena.Walk n path
  nodup : path.Nodup

/-- Why the search along the path fails in the arena `a`: it has come back to where it was before, or
    a normalization failed that it needed. -/
inductive Cause (o : Arena) (n : SchemaId) (a : Arena) : List SchemaId → Fault → Prop
  | cycle (before : List SchemaId) (x : SchemaId) (rest : List SchemaId) :
      Cause o n a (before ++ x :: (rest ++ [x]))
        (.referenceCycle ((x :: (rest ++ [x])).map fun i => (a.schema i).pointer))
  | normalization {path : List SchemaId} {x c : SchemaId} {b : Arena} {calls : Nat} {f : Fault}
      (hlast : path.getLast? = some x) (hb : Arena.Explores n o b)
      (hx : Relation.ReflTransGen b.Spells n x) (hc : c ∈ (b.schema x).spelled)
      (hrun : ((Arena.solve calls (.normalize c)).run b).1 = .error (.fault f)) : Cause o n a path f

/-- The search has come along the path and has failed somewhere below it; on the walk to there
    nothing is remembered. -/
structure Failing (o : Arena) (n : SchemaId) (path : List SchemaId) (e : Failure) (t : Session) :
    Prop where
  remembers : t.Remembers
  typing : t.typing = path
  fault : ∀ f, e = .fault f → ∃ rest, t.arena.Walk n (path ++ rest) ∧
    (∀ x ∈ path ++ rest, t.types.get? x = none) ∧ Cause o n t.arena (path ++ rest) f

theorem Scene.next (hs : Scene o n path s) (ht : t.Lawful Arena.Law.free) (hst : Stays s t)
    (hexplored : Arena.Explores n o t.arena) (hsame : SameMemo s t) : Scene o n path t where
  lawful := ht
  remembers := hs.remembers.mono hs.lawful.arena.toWellFormed hst.arena hsame.1
  explored := hexplored
  typing := hsame.2.trans hs.typing
  undone := hsame.1 ▸ hs.undone
  walk hne := (hs.walk hne).mono hst.arena
  nodup := hs.nodup

theorem Scene.ne_nil (hlast : path.getLast? = some x) : path ≠ [] := by
  rintro rfl
  cases hlast

/-- Everything on the path can be reached. -/
theorem Scene.reach (hs : Scene o n path s) (hx : x ∈ path) :
    Relation.ReflTransGen s.arena.Spells n x :=
  (hs.walk (List.ne_nil_of_mem hx)).reach hx

/-! ## Single steps -/

variable {ι : Type} {l : Filter ι} {T : Prop} {calls : ι → Nat} {typer : ι → Typer}

theorem run_className (naming : Naming) (id : SchemaId) (s : Session) : ∃ name t,
    (className naming id).run s = (.ok name, t) ∧ t.arena = s.arena ∧ SameMemo s t := by
  cases hknown : s.classNames.get? id with
  | some name => exact ⟨name, s, run_className_of_known naming hknown, rfl, rfl, rfl⟩
  | none =>
      obtain ⟨name, hrun⟩ := run_className_of_new naming hknown
      exact ⟨name, _, hrun, rfl, rfl, rfl⟩

theorem settles_className (hs : Scene o n path s) (id : SchemaId) :
    Settles T l (fun _ => className naming id) s (fun _ t => Scene o n path t ∧ Stays s t)
      (Failing o n path) := by
  obtain ⟨name, t, hrun, harena, hsame⟩ := run_className naming id s
  obtain ⟨⟨ht, hst⟩, -⟩ := (keeps_className hs.lawful id).of_ok hrun
  exact .of_ok hrun ⟨hs.next ht hst (harena ▸ hs.explored) hsame, hst⟩

theorem settles_warn (hs : Scene o n path s) (w : Warning) :
    Settles T l (fun _ => warn w) s (fun _ t => Scene o n path t ∧ Stays s t)
      (Failing o n path) := by
  have hrun : (warn w).run s = (.ok (), ((warn w).run s).2) := rfl
  obtain ⟨⟨ht, hst⟩, -⟩ := (keeps_warn hs.lawful w).of_ok hrun
  have hsame : ((warn w).run s).2.arena = s.arena ∧ SameMemo s ((warn w).run s).2 := by
    show (if w ∈ s.warnings then s else _).arena = s.arena ∧ SameMemo s (if _ then s else _)
    split
    · exact ⟨rfl, rfl, rfl⟩
    · exact ⟨rfl, rfl, rfl⟩
  exact .of_ok hrun ⟨hs.next ht hst (hsame.1 ▸ hs.explored) hsame.2, hst⟩

/-- Normalizing what the end of the path is spelled with goes on with the search, or ends it. -/
theorem settles_normalize (hT : T → o.Traversable n) (hcalls : T → Tendsto calls l atTop)
    (hs : Scene o n path s) (hlast : path.getLast? = some x)
    (hc : c ∈ (s.arena.schema x).spelled) :
    Settles T l (fun i => normalize (calls i) c) s
      (fun r t => Scene o n path t ∧ Stays s t ∧ t.arena.progress.get? c = some (.done r))
      (Failing o n path) where
  ends i := by
    have hreach := hs.reach (List.mem_of_getLast? hlast)
    have hkeeps : Keeps Arena.Law.free (normalize (calls i) c) s _ :=
      keeps_normalize Arena.upheld_free hs.lawful (calls i)
        (Arena.lt_of_spelled hs.lawful.arena.toWellFormed hc)
    have hrun : (normalize (calls i) c).Ends s
        (fun r t => Arena.Explores n o t.arena ∧ SameMemo s t)
        (fun e t => SameMemo s t ∧
          ((Arena.solve (calls i) (.normalize c)).run s.arena).1 = .error e) := by
      unfold normalize onArena
      refine Work.ends_focus.2 (Ends.mono (Work.ends_run _ _) ?_ ?_)
      · exact fun r b hrun => ⟨.step hs.explored hreach hc hrun, rfl, rfl⟩
      · exact fun e b hrun => ⟨⟨rfl, rfl⟩, by rw [hrun]⟩
    refine Ends.mono (Ends.and hkeeps hrun) ?_ ?_
    · rintro r t ⟨⟨⟨ht, hst⟩, hr⟩, hexplored, hsame⟩
      exact ⟨hs.next ht hst hexplored hsame, hst, hr⟩
    · rintro e t ⟨⟨-, hst⟩, hsame, herror⟩
      refine ⟨hs.remembers.mono hs.lawful.arena.toWellFormed hst.arena hsame.1,
        hsame.2.trans hs.typing, ?_⟩
      rintro f rfl
      refine ⟨[], ?_, ?_, ?_⟩ <;> rw [List.append_nil]
      · exact (hs.walk (Scene.ne_nil hlast)).mono hst.arena
      · exact hsame.1 ▸ hs.undone
      · exact .normalization hlast hs.explored hreach hc herror
  halts h := by
    have hfinishes := (hT h).finishes s.arena x c hs.explored
      (hs.reach (List.mem_of_getLast? hlast)) hc
    unfold normalize onArena
    exact .focus (hfinishes.comp (hcalls h))

/-! ## Types on the way -/

/-- From a scene of the search along the path, the type of what comes next is found, and what it is
    spelled with is spelled out; or the search fails. -/
def Searches (T : Prop) (l : Filter ι) (o : Arena) (n : SchemaId) (path : List SchemaId)
    (typer : ι → Typer) : Prop :=
  ∀ s y, Scene o n path s → s.arena.IsForm y → s.arena.Walk n (path ++ [y]) →
    Settles T l (fun i => typer i y) s
      (fun _ t => Scene o n path t ∧ Stays s t ∧ t.arena.SpelledOut y) (Failing o n path)

variable [l.NeBot] (htyper : Searches T l o n path typer) (hlast : path.getLast? = some id)

include htyper hlast

theorem settles_formTypes (hs : Scene o n path s) {ids : List SchemaId}
    (hids : ∀ y ∈ ids, y ∈ (s.arena.schema id).anyOf) (hform : s.arena.IsForm id) :
    Settles T l (fun i => formTypes (typer i) ids) s
      (fun _ t => Scene o n path t ∧ Stays s t ∧ ∀ y ∈ ids, t.arena.SpelledOut y)
      (Failing o n path) := by
  induction ids generalizing s with
  | nil => exact .pure ⟨hs, refl_of Stays s, List.forall_mem_nil _⟩
  | cons y ids ih =>
      unfold formTypes
      have hy : y ∈ (s.arena.schema id).anyOf := hids y List.mem_cons_self
      have hyform := (hs.lawful.arena.normal id hform).2 y hy
      refine .bind (htyper s y hs hyform
        ((hs.walk (Scene.ne_nil hlast)).snoc hlast (.branch hy))) ?_
      rintro u t ⟨ht, hst, hout⟩
      have hrest : ∀ z ∈ ids, z ∈ (t.arena.schema id).anyOf := by
        rw [hst.arena.schema id (hs.lawful.arena.isForm_lt hform)]
        exact fun z hz => hids z (List.mem_cons_of_mem y hz)
      refine .bind (ih ht hrest (hst.arena.form hform)) ?_
      rintro us w ⟨hw, htw, hall⟩
      refine .pure ⟨hw, trans_of Stays hst htw, List.forall_mem_cons.2 ⟨?_, hall⟩⟩
      exact hout.mono ht.lawful.arena.toWellFormed htw.arena (hst.arena.form hyform)

variable (hT : T → o.Traversable n) (hcalls : T → Tendsto calls l atTop)

include hT hcalls

/-- The normal form of a schema that is spelled, and something made of it: where there is one, its
    type is searched for next. -/
theorem settles_child_bind {α : Type} {f : ι → Option SchemaId → SessionWork α}
    {ok : α → Session → Prop} (hs : Scene o n path s) (hc : c ∈ (s.arena.schema id).spelled)
    (hnone : ∀ t, Scene o n path t → Stays s t → t.arena.Settled c →
      Settles T l (fun i => f i none) t ok (Failing o n path))
    (hsome : ∀ form t, Scene o n path t → Stays s t →
      Settles T l (fun i => typer i form) t
        (fun _ u => Scene o n path u ∧ Stays s u ∧ u.arena.Settled c) (Failing o n path) →
      Settles T l (fun i => f i (some form)) t ok (Failing o n path)) :
    Settles T l (fun i => normalize (calls i) c >>= f i) s ok (Failing o n path) := by
  refine .bind (settles_normalize hT hcalls hs hlast hc) ?_
  rintro r t ⟨ht, hst, hr⟩
  cases r with
  | none => exact hnone t ht hst ⟨none, hr, nofun⟩
  | some form =>
      have hspells : t.arena.Spells id form := by
        refine .part ?_ hr
        rw [hst.arena.schema id (Arena.lt_of_mem_spelled hc)]
        exact hc
      refine hsome form t ht hst ((htyper t form ht (ht.lawful.arena.form c form hr)
        ((ht.walk (Scene.ne_nil hlast)).snoc hlast hspells)).mono ?_ fun _ _ h => h)
      rintro u w ⟨hw, htw, hout⟩
      refine ⟨hw, trans_of Stays hst htw, some form, htw.arena.done c _ hr, ?_⟩
      rintro _ ⟨⟩
      exact hout

theorem settles_objectType (hs : Scene o n path s) (hm : s.arena.schema id = m)
    (hspelled : ∀ c ∈ m.spelledBy .object, c ∈ m.spelled) :
    Settles T l (fun i => objectType (calls i) naming (typer i) id m) s
      (fun _ t => Scene o n path t ∧ Stays s t ∧ ∀ c ∈ m.spelledBy .object, t.arena.Settled c)
      (Failing o n path) := by
  have hby : m.spelledBy .object =
      if m.properties.isEmpty then (Arena.extraSchema? m).toList else [] := rfl
  unfold objectType
  refine .ite (fun hprops => ?_) fun hprops => ?_
  · refine .bind (settles_className hs id) ?_
    rintro name t ⟨ht, hst⟩
    refine .pure ⟨ht, hst, ?_⟩
    rw [hby, if_neg (by simpa using hprops)]
    exact List.forall_mem_nil _
  rw [if_pos (by simpa using hprops)] at hby
  rcases hextras : m.extras with _ | (_ | _) | values
  case some.matching =>
    have hc : m.spelledBy .object = [values] := by
      rw [hby, Arena.extraSchema?_eq_some.2 hextras]
      rfl
    rw [hc]
    refine settles_child_bind htyper hlast hT hcalls hs (c := values) ?_ ?_ ?_
    · rw [hm]
      exact hspelled values (by simp [hc])
    · exact fun t ht hst hsettled => .pure ⟨ht, hst, by simpa using hsettled⟩
    · refine fun form t ht hst hform => .bind hform ?_
      rintro u w ⟨hw, hsw, hsettled⟩
      exact .pure ⟨hw, hsw, by simpa using hsettled⟩
  all_goals
    refine .pure ⟨hs, refl_of Stays s, ?_⟩
    rw [hby, Arena.extraSchema?, hextras]
    exact List.forall_mem_nil _

theorem settles_arrayType (hs : Scene o n path s) (hm : s.arena.schema id = m)
    (hspelled : ∀ c ∈ m.spelledBy .array, c ∈ m.spelled) :
    Settles T l (fun i => arrayType (calls i) (typer i) m) s
      (fun _ t => Scene o n path t ∧ Stays s t ∧ ∀ c ∈ m.spelledBy .array, t.arena.Settled c)
      (Failing o n path) := by
  have hby : m.spelledBy .array = m.items.toList := rfl
  unfold arrayType
  dsimp only
  cases hitems : m.items with
  | none =>
      refine .pure ⟨hs, refl_of Stays s, ?_⟩
      rw [hby, hitems]
      exact List.forall_mem_nil _
  | some items =>
      rw [hitems] at hby
      rw [hby]
      refine settles_child_bind htyper hlast hT hcalls hs (c := items) ?_ ?_ ?_
      · rw [hm]
        exact hspelled items (by simp [hby])
      · intro t ht hst hsettled
        refine .view_bind (.bind (settles_warn ht _) ?_)
        rintro _ u ⟨hu, htu⟩
        have hsettled := hsettled.mono ht.lawful.arena.toWellFormed htu.arena
        exact .pure ⟨hu, trans_of Stays hst htu, by simpa using hsettled⟩
      · refine fun form t ht hst hform => .bind hform ?_
        rintro u w ⟨hw, hsw, hsettled⟩
        exact .pure ⟨hw, hsw, by simpa using hsettled⟩

theorem settles_kindType (hs : Scene o n path s) (hm : s.arena.schema id = m) (kinds : KindSet)
    {k : Kind} (hspelled : ∀ c ∈ m.spelledBy k, c ∈ m.spelled) :
    Settles T l (fun i => kindType (calls i) naming (typer i) id m kinds k) s
      (fun _ t => Scene o n path t ∧ Stays s t ∧ ∀ c ∈ m.spelledBy k, t.arena.Settled c)
      (Failing o n path) := by
  cases k with
  | object =>
      exact .bind (settles_objectType htyper hlast hT hcalls hs hm hspelled) fun _ _ h => .pure h
  | array =>
      exact .bind (settles_arrayType htyper hlast hT hcalls hs hm hspelled) fun _ _ h => .pure h
  | _ => exact .pure ⟨hs, refl_of Stays s, List.forall_mem_nil _⟩

theorem settles_kindTypes (hs : Scene o n path s) (hid : id < s.arena.next)
    (hm : s.arena.schema id = m) (kinds : KindSet) {ks : List Kind}
    (hspelled : ∀ k ∈ ks, ∀ c ∈ m.spelledBy k, c ∈ m.spelled) :
    Settles T l (fun i => kindTypes (calls i) naming (typer i) id m kinds ks) s
      (fun _ t => Scene o n path t ∧ Stays s t ∧
        ∀ k ∈ ks, ∀ c ∈ m.spelledBy k, t.arena.Settled c) (Failing o n path) := by
  induction ks generalizing s with
  | nil => exact .pure ⟨hs, refl_of Stays s, List.forall_mem_nil _⟩
  | cons k ks ih =>
      unfold kindTypes
      obtain ⟨hk, hks⟩ := List.forall_mem_cons.1 hspelled
      refine .bind (settles_kindType htyper hlast hT hcalls hs hm kinds hk) ?_
      rintro r t ⟨ht, hst, hsettled⟩
      obtain ⟨hidt, hmt⟩ := hst.schema hid hm
      refine .bind (ih ht hidt hmt hks) ?_
      rintro us w ⟨hw, htw, hall⟩
      refine .pure ⟨hw, trans_of Stays hst htw, List.forall_mem_cons.2 ⟨fun c hc => ?_, hall⟩⟩
      exact (hsettled c hc).mono ht.lawful.arena.toWellFormed htw.arena

/-- When the type of a normal form has been found, all that it is spelled with is spelled out. -/
theorem settles_freshType (hs : Scene o n path s) (hform : s.arena.IsForm id) :
    Settles T l (fun i => freshType (calls i) naming (typer i) id) s
      (fun _ t => Scene o n path t ∧ Stays s t ∧ t.arena.SpelledOut id) (Failing o n path) := by
  have hid : id < s.arena.next := hs.lawful.arena.isForm_lt hform
  -- without alternatives, and with no schema to spell, there is nothing to be spelled out
  have hout : (s.arena.schema id).anyOf = [] → (s.arena.schema id).spelled = [] →
      s.arena.SpelledOut id := fun hany hspelled =>
    Arena.spelledOut_of_settled (by simp [hany]) (by simp [hspelled])
  unfold freshType
  apply Settles.view_bind
  refine .ite (fun hfree => ?_) fun _ => .ite (fun hany => ?_) fun hany => ?_
  · obtain hfree := Schema.isUnconstrained_iff.1 hfree
    refine .pure ⟨hs, refl_of Stays s, hout hfree.anyOf (List.eq_nil_iff_forall_not_mem.2 ?_)⟩
    intro c hc
    obtain ⟨-, -, k, -, hck⟩ := Schema.mem_spelled.1 hc
    cases k with
    | array => simp [Schema.spelledBy, hfree.items] at hck
    | object => simp [Schema.spelledBy, Arena.extraSchema?, hfree.extras] at hck
    | _ => cases hck
  · have hne : (s.arena.schema id).anyOf ≠ [] := by simpa using hany
    refine .bind (settles_formTypes htyper hlast hs (fun _ h => h) hform) ?_
    rintro us t ⟨ht, hst, hall⟩
    refine .pure ⟨ht, hst, Arena.spelledOut_of_settled ?_ fun c hc => ?_⟩
    · rw [hst.arena.schema id hid]
      exact hall
    · rw [hst.arena.schema id hid] at hc
      exact absurd (Schema.mem_spelled.1 hc).1 hne
  have hany : (s.arena.schema id).anyOf = [] := by simpa using hany
  dsimp only
  cases hvalues : (s.arena.schema id).values with
  | some values =>
      refine .pure ⟨hs, refl_of Stays s, hout hany (List.eq_nil_iff_forall_not_mem.2 ?_)⟩
      intro c hc
      have hnone := (Schema.mem_spelled.1 hc).2.1
      rw [hvalues] at hnone
      cases hnone
  | none =>
      refine .bind (settles_kindTypes htyper hlast hT hcalls hs hid rfl _ fun k hk c hc => ?_) ?_
      · exact Schema.mem_spelled.2 ⟨hany, hvalues, k, hk, hc⟩
      · rintro us t ⟨ht, hst, hall⟩
        refine .pure ⟨ht, hst, Arena.spelledOut_of_settled ?_ fun c hc => ?_⟩
        · rw [hst.arena.schema id hid, hany]
          exact List.forall_mem_nil _
        · rw [hst.arena.schema id hid] at hc
          obtain ⟨-, -, k, hk, hck⟩ := Schema.mem_spelled.1 hc
          exact hall k hk c hck

end ApiModel.Session
