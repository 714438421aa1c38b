/-
  ApiModel.Proofs.Client.Model

  The types and the classes of a model. The classes are filed by the dotted path of their module;
  filing keeps every class, each once, under its own path. So a class is found again by its name as
  soon as no two names are the same.
-/
import ApiModel.Client.Build
import ApiModel.Proofs.Dict
import Mathlib.Data.List.Nodup

namespace ApiModel.Client

/-! ## What a model holds -/

/-- The types of a response: of its body, and of its headers. -/
def Response.types (r : Response) : List TypeExpr := r.body :: r.metadata.toList

/-- The types of an operation: of its parameters, its body and its responses, and the type that it
    returns. -/
def Operation.types (op : Operation) : List TypeExpr :=
  op.parameters.map Parameter.type ++ op.requestBody.toList.map RequestBody.type ++
    op.responses.flatMap Response.types ++ [op.returnType]

/-- The types of the headers and responses that all requests share. -/
def Init.types (i : Init) : List TypeExpr :=
  i.globalHeaders.map Parameter.type ++ i.globalResponses.flatMap Response.types

/-- The types of the fields of a class. -/
def Class.types (c : Class) : List TypeExpr := c.fields.map Field.type

/-- All classes of a model. -/
def Model.classes (m : Model) : List Class := m.modules.values.flatten

/-- All types of a model. -/
def Model.types (m : Model) : List TypeExpr :=
  m.init.types ++ m.operations.flatMap Operation.types ++ m.classes.flatMap Class.types

/-! ## Filing classes by module -/

/-- Every class is filed under the path of its module. -/
structure Filed (modules : Dict String (List Class)) : Prop where
  keys : modules.keys.Nodup
  path : ∀ k cs, (k, cs) ∈ modules.entries → ∀ c ∈ cs, c.name.modulePath = k

/-- The classes by module, with one more at the end of its module. -/
def fileClass (modules : Dict String (List Class)) (c : Class) : Dict String (List Class) :=
  modules.insert c.name.modulePath ((modules.get? c.name.modulePath).getD [] ++ [c])

theorem Filed.fileClass {modules : Dict String (List Class)} (h : Filed modules) (c : Class) :
    Filed (fileClass modules c) := by
  refine ⟨Dict.nodup_keys_insert h.keys _ _, fun k cs hcs d hd => ?_⟩
  rcases Dict.mem_put hcs with hnew | hold
  · cases hnew
    rcases List.mem_append.1 hd with hd | hd
    · cases hget : modules.get? c.name.modulePath with
      | none => simp [hget] at hd
      | some old =>
          rw [hget, Option.getD_some] at hd
          exact h.path _ old (Dict.mem_entries_of_get? hget) d hd
    · rw [List.mem_singleton.1 hd]
  · exact h.path k cs hold d hd

/-- Filing a class adds it and moves no other one out. -/
theorem perm_fileClass (modules : Dict String (List Class)) (c : Class) :
    (fileClass modules c).values.flatten.Perm (modules.values.flatten ++ [c]) := by
  unfold fileClass Dict.insert Dict.values Dict.get?
  induction modules.entries with
  | nil => simp [Dict.put]
  | cons e es ih =>
      obtain ⟨k, cs⟩ := e
      rw [List.lookup_cons, Dict.put]
      by_cases hk : k = c.name.modulePath
      · rw [if_pos hk, beq_iff_eq.2 hk.symm]
        simp only [Option.getD_some, List.map_cons, List.flatten_cons, List.append_assoc]
        exact List.Perm.append_left cs List.perm_append_comm
      · rw [if_neg hk, beq_false_of_ne fun h => hk h.symm]
        simp only [List.map_cons, List.flatten_cons, List.append_assoc]
        exact List.Perm.append_left cs ih

theorem filed_foldl {modules : Dict String (List Class)} (h : Filed modules)
    (classes : List Class) : Filed (classes.foldl fileClass modules) ∧
      (classes.foldl fileClass modules).values.flatten.Perm
        (modules.values.flatten ++ classes) := by
  induction classes generalizing modules with
  | nil => exact ⟨h, by simp⟩
  | cons c classes ih =>
      obtain ⟨hfiled, hperm⟩ := ih (h.fileClass c)
      refine ⟨hfiled, hperm.trans ?_⟩
      have hstep := (perm_fileClass modules c).append_right classes
      rwa [List.append_assoc, List.singleton_append] at hstep

theorem filed_byModule (classes : List Class) : Filed (Construction.byModule classes) := by
  have hempty : Filed .empty := ⟨List.nodup_nil, fun k cs hcs => by cases hcs⟩
  obtain ⟨hkeys, hpath⟩ := (filed_foldl hempty classes).1
  have hperm := Dict.perm_sortByKey (classes.foldl fileClass .empty)
  refine ⟨(hperm.map Prod.fst).nodup_iff.2 hkeys, fun k cs hcs => ?_⟩
  exact hpath k cs (hperm.mem_iff.1 hcs)

theorem perm_byModule (classes : List Class) :
    (Construction.byModule classes).values.flatten.Perm classes := by
  have hempty : Filed .empty := ⟨List.nodup_nil, fun k cs hcs => by cases hcs⟩
  have hperm := Dict.perm_sortByKey (classes.foldl fileClass .empty)
  exact ((hperm.map Prod.snd).flatten).trans (filed_foldl hempty classes).2

/-- The classes of a module, in the order in which they were filed. -/
theorem get?_foldl_fileClass (modules : Dict String (List Class)) (classes : List Class)
    (path : String) : (classes.foldl fileClass modules).get? path =
      if classes.filter (·.name.modulePath = path) = [] then modules.get? path
      else some ((modules.get? path).getD [] ++ classes.filter (·.name.modulePath = path)) := by
  induction classes generalizing modules with
  | nil => rfl
  | cons c classes ih =>
      rw [List.foldl_cons, ih, List.filter_cons]
      unfold fileClass
      by_cases hc : c.name.modulePath = path
      · subst hc
        by_cases hrest : classes.filter (·.name.modulePath = c.name.modulePath) = [] <;>
          simp [hrest]
      · simp [hc, Dict.get?_insert_of_ne _ (Ne.symm hc)]

theorem get?_byModule (classes : List Class) (path : String) :
    (Construction.byModule classes).get? path =
      if classes.filter (·.name.modulePath = path) = [] then none
      else some (classes.filter (·.name.modulePath = path)) := by
  have hsorted := Dict.get?_eq_of_perm (Dict.perm_sortByKey (classes.foldl fileClass .empty))
    (filed_byModule classes).keys path
  refine hsorted.trans ?_
  rw [get?_foldl_fileClass]
  rfl

/-- Further classes come after those of the same module. -/
theorem get?_byModule_append {classes cs : List Class} {path : String}
    (h : (Construction.byModule classes).get? path = some cs) (more : List Class) :
    ∃ rest, (Construction.byModule (classes ++ more)).get? path = some (cs ++ rest) := by
  rw [get?_byModule] at h
  split at h
  · cases h
  next hne =>
  cases h
  refine ⟨more.filter (·.name.modulePath = path), ?_⟩
  rw [get?_byModule, List.filter_append, if_neg]
  exact fun happend => hne (List.append_eq_nil_iff.1 happend).1

/-! ## Finding classes by name -/

/-- Where no two names are the same, a class is found under its name. -/
theorem Model.class?_eq_some {m : Model} (hfiled : Filed m.modules)
    (hnames : (m.classes.map Class.name).Nodup) {c : Class} (hc : c ∈ m.classes) :
    m.class? c.name = some c := by
  obtain ⟨cs, hcs, hmem⟩ := List.mem_flatten.1 hc
  obtain ⟨⟨k, filed⟩, he, rfl⟩ := List.mem_map.1 hcs
  have hget : m.modules.get? c.name.modulePath = some filed := by
    rw [hfiled.path k filed he c hmem]
    exact Dict.get?_of_mem hfiled.keys he
  have hsub : ∀ d ∈ filed, d ∈ m.classes := fun d hd => List.mem_flatten.2 ⟨filed, hcs, hd⟩
  have hfind : (filed.find? fun d => d.name == c.name) = some c := by
    cases hd : filed.find? fun d => d.name == c.name with
    | none => exact absurd (beq_self_eq_true c.name) (List.find?_eq_none.1 hd c hmem)
    | some d =>
        have hsame := List.find?_some hd
        have hname : d.name = c.name := eq_of_beq hsame
        have hin : d ∈ m.classes := hsub d (List.mem_of_find?_eq_some hd)
        rw [List.inj_on_of_nodup_map hnames hin hc hname]
  unfold Model.class?
  rw [hget]
  exact hfind

end ApiModel.Client
