/-
  ApiModel.Proofs.Client.BaseUrl

  The address of the first server. Its variables are filled in one after the other, so a placeholder
  that a default brings along is filled as well if its variable comes later, and the address depends
  on the order of the variables. Where the template filled at once shows no placeholder of a
  variable, the address is that text, whatever the order; no default with braces and no braces
  within braces are enough for this.
-/
import ApiModel.Proofs.Client.Construction.Traversal
import ApiModel.Proofs.Dict
import ApiModel.Proofs.Text.Template

namespace ApiModel.Client

open Document

variable {vars vars' : Dict String ServerVariable} {template : String}

/-! ## Templates of addresses -/

/-- The names of some variables with their defaults. -/
def defaults (vars : Dict String ServerVariable) : List (List Char × List Char) :=
  vars.entries.map fun e => (e.1.toList, e.2.default.toList)

/-- A template with each placeholder of a variable replaced by the default of the variable, all at
    the same time. -/
def filledAtOnce (template : String) (vars : Dict String ServerVariable) : String :=
  String.ofList (Text.fillAtOnce (defaults vars) template.toList)

/-- The names of some variables have no braces. -/
def NamedBraceless (vars : Dict String ServerVariable) : Prop :=
  ∀ name ∈ vars.keys, Text.Braceless name.toList

/-- No variable stands in a text between braces. -/
def NoneLeft (vars : Dict String ServerVariable) (text : String) : Prop :=
  ∀ name ∈ vars.keys, ¬ Text.placeholder name.toList <:+: text.toList

theorem NamedBraceless.defaults (h : NamedBraceless vars) :
    Text.NamesBraceless (defaults vars) := by
  intro v hv
  obtain ⟨e, he, rfl⟩ := List.mem_map.1 hv
  exact h e.1 (List.mem_map_of_mem he)

theorem NoneLeft.unfilled {cs : List Char} (h : NoneLeft vars (String.ofList cs)) :
    Text.Unfilled (defaults vars) cs := by
  intro v hv
  obtain ⟨e, he, rfl⟩ := List.mem_map.1 hv
  have hnone := h e.1 (List.mem_map_of_mem he)
  rwa [String.toList_ofList] at hnone

theorem fillTemplate_eq_foldl (template : String) (vars : Dict String ServerVariable) :
    Construction.fillTemplate template vars = String.ofList ((defaults vars).foldl
      (fun cs v => Text.replaceAll (Text.placeholder v.1) v.2 cs) template.toList) := by
  rw [defaults, List.foldl_map]
  rfl

/-- Where no placeholder of a variable is left over, a template is filled as it is at once. -/
theorem fillTemplate_eq_filledAtOnce (hnames : NamedBraceless vars)
    (hleft : NoneLeft vars (filledAtOnce template vars)) :
    Construction.fillTemplate template vars = filledAtOnce template vars := by
  rw [fillTemplate_eq_foldl, Text.foldl_replaceAll_eq hnames.defaults hleft.unfilled]
  rfl

/-- Defaults without braces leave no placeholder over in a template whose braces do not nest. -/
theorem noneLeft_filledAtOnce (hnames : NamedBraceless vars)
    (hdefaults : ∀ v ∈ vars.values, Text.Braceless v.default.toList)
    (hflat : Text.Flat template.toList) : NoneLeft vars (filledAtOnce template vars) := by
  have hvalues : ∀ v ∈ defaults vars, Text.Braceless v.2 := by
    intro v hv
    obtain ⟨e, he, rfl⟩ := List.mem_map.1 hv
    exact hdefaults e.2 (List.mem_map_of_mem he)
  intro name hname
  obtain ⟨e, he, rfl⟩ := List.mem_map.1 hname
  rw [filledAtOnce, String.toList_ofList]
  exact Text.unfilled_fillAtOnce hnames.defaults hvalues hflat _ (List.mem_map_of_mem he)

theorem fillTemplate_eq_of_flat (hnames : NamedBraceless vars)
    (hdefaults : ∀ v ∈ vars.values, Text.Braceless v.default.toList)
    (hflat : Text.Flat template.toList) :
    Construction.fillTemplate template vars = filledAtOnce template vars :=
  fillTemplate_eq_filledAtOnce hnames (noneLeft_filledAtOnce hnames hdefaults hflat)

theorem lookup_defaults (vars : Dict String ServerVariable) (name : String) :
    (defaults vars).lookup name.toList = (vars.get? name).map fun v => v.default.toList := by
  unfold defaults Dict.get?
  induction vars.entries with
  | nil => rfl
  | cons e es ih =>
    rw [List.map_cons, List.lookup_cons, List.lookup_cons, ih]
    by_cases hname : name = e.1
    · subst hname
      simp
    · have hchars : name.toList ≠ e.1.toList := fun h => hname (String.toList_inj.1 h)
      rw [beq_false_of_ne hname, beq_false_of_ne hchars]

/-- Filling at once takes no notice of the order of the variables. -/
theorem filledAtOnce_of_perm (hnames : NamedBraceless vars) (hkeys : vars.keys.Nodup)
    (hperm : vars.entries.Perm vars'.entries) (template : String) :
    filledAtOnce template vars = filledAtOnce template vars' := by
  have hnames' : NamedBraceless vars' := fun name h =>
    hnames name ((hperm.map Prod.fst).mem_iff.2 h)
  refine congrArg String.ofList (Text.fillAtOnce_congr hnames.defaults hnames'.defaults ?_ _)
  intro name
  have hsame := Dict.get?_eq_of_perm hperm hkeys (String.ofList name)
  rw [← String.toList_ofList (l := name), lookup_defaults, lookup_defaults, hsame]

/-- Where no placeholder of a variable is left over, the order of the variables does not matter. -/
theorem fillTemplate_of_perm (hnames : NamedBraceless vars) (hkeys : vars.keys.Nodup)
    (hleft : NoneLeft vars (filledAtOnce template vars))
    (hperm : vars.entries.Perm vars'.entries) :
    Construction.fillTemplate template vars = Construction.fillTemplate template vars' := by
  have hmem : ∀ name, name ∈ vars'.keys → name ∈ vars.keys := fun name h =>
    (hperm.map Prod.fst).mem_iff.2 h
  have hsame := filledAtOnce_of_perm hnames hkeys hperm template
  rw [fillTemplate_eq_filledAtOnce hnames hleft, hsame, fillTemplate_eq_filledAtOnce]
  · exact fun name h => hnames name (hmem name h)
  · rw [← hsame]
    exact fun name h => hleft name (hmem name h)

/-- Two variables, the default of the first with the placeholder of the second. -/
def linkedVariables : List (String × ServerVariable) :=
  [("host", ⟨"\x7bzone\x7d.example.com", [], none⟩), ("zone", ⟨"eu", [], none⟩)]

/-- A default that brings a placeholder along makes the order matter. -/
theorem fillTemplate_reordered :
    Construction.fillTemplate "https://\x7bhost\x7d" ⟨linkedVariables⟩ = "https://eu.example.com" ∧
      Construction.fillTemplate "https://\x7bhost\x7d" ⟨linkedVariables.reverse⟩ =
        "https://\x7bzone\x7d.example.com" := by
  decide

/-! ## Addresses of models -/

namespace Construction

open Work

variable {b : Setting} {c : Construction}

/-- The template of the first server, filled by one variable after the other. -/
def address (servers : List Document.Server) : Option String :=
  servers.head?.map fun s => fillTemplate s.url s.vars

theorem returns_baseUrl (servers : List Document.Server) :
    Returns (baseUrl servers) c fun url _ => url = address servers := by
  cases servers with
  | nil => exact .pure rfl
  | cons s others =>
    unfold baseUrl
    dsimp only
    split
    · exact .bind (.any _ _) fun _ _ _ => .pure rfl
    · exact .pure rfl

theorem returns_init_baseUrl (api : Document.Api) :
    Returns (init b api) c fun i _ => i.baseUrl = address api.servers := by
  unfold init
  -- what comes before the servers has no say
  refine .bind (.any _ _) fun _ _ _ => .bind (.any _ _) fun _ _ _ => .bind (.any _ _) fun _ _ _ =>
    .bind (.any _ _) fun _ _ _ => ?_
  exact .bind (returns_baseUrl _) fun url _ hurl => .pure hurl

theorem returns_model_baseUrl (api : Document.Api) :
    Returns (model b api) c fun m _ => m.init.baseUrl = address api.servers := by
  refine returns_model_of (P := fun i _ => i.baseUrl = address api.servers)
    (Q := fun i _ _ => i.baseUrl = address api.servers) (returns_init_baseUrl api) ?_ ?_ ?_
  · exact fun i d hi => (Returns.any _ d).mono fun _ _ _ => hi
  · exact fun i os d names hi => (Returns.any _ d).mono fun _ _ _ => hi
  · exact fun i os d hi => hi

end Construction

/-- The address of a model is the template of the first server with its variables filled in, all at
    the same time where no placeholder of them is left over. -/
theorem baseUrl_of_buildWithin {calls : Nat} {document : Json} {config : Config} {naming : Naming}
    {m : Model} (h : buildWithin calls document config naming = .ok m) :
    ∃ api, readApi document = .ok api ∧ m.init.baseUrl = Construction.address api.servers ∧
      ∀ s, api.servers.head? = some s → NamedBraceless s.vars →
        NoneLeft s.vars (filledAtOnce s.url s.vars) →
          m.init.baseUrl = some (filledAtOnce s.url s.vars) := by
  obtain ⟨api, c, hapi, hrun⟩ := run_model_of_buildWithin h
  have hurl := (Construction.returns_model_baseUrl api).of_ok hrun
  refine ⟨api, hapi, hurl, fun s hs hnames hleft => ?_⟩
  rw [hurl, Construction.address, hs, Option.map_some, fillTemplate_eq_filledAtOnce hnames hleft]

end ApiModel.Client
