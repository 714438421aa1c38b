/-
  ApiModel.Proofs.Client.Construction.Responses

  Request bodies and responses. The type of a body is that of a schema; the headers of a response
  make up a class that has just been registered; and the type that an operation returns is put
  together from those of its responses.
-/
import ApiModel.Client.Construction.Responses
import ApiModel.Proofs.Client.Construction

namespace ApiModel.Client.Construction

open Work

variable {b : Setting} {c d : Construction} {place : Pointer}

/-- The type of a request body names registered classes only. -/
theorem builds_requestBody (hc : c.Closed) (item : Document.OrRef Document.RequestBody)
    (classBase : String) :
    Builds (requestBody b item place classBase) c fun r d => ∀ body ∈ r, d.Registered body.type := by
  unfold requestBody
  refine .bind (.ofExcept (Q := fun _ _ => True) hc fun _ _ => trivial) fun r d hd _ _ => ?_
  dsimp only
  split
  · split
    · refine .bind (builds_schemaType hd _ _) fun t e he _ ht => .pure he ?_
      rintro _ ⟨⟩
      exact ht
    · refine .pure hd ?_
      rintro _ ⟨⟩
      exact registered_of_names_eq_nil rfl
  · refine .pure hd ?_
    rintro _ ⟨⟩

theorem builds_headerFields (hc : c.Closed) (base : Pointer) (stem : String)
    (headers : List (String × Document.OrRef Document.Header)) :
    Builds (headerFields b base stem headers) c fun fs d => ∀ f ∈ fs, d.Registered f.type := by
  induction headers generalizing c with
  | nil => exact .pure hc (by simp)
  | cons header rest ih =>
      obtain ⟨wireName, item⟩ := header
      unfold headerFields
      split
      · exact .bind (builds_warn hc _) fun _ d hd _ _ => ih hd
      · refine .bind (.ofExcept (Q := fun _ _ => True) hc fun _ _ => trivial) fun r d hd _ _ => ?_
        refine .bind (builds_payload hd _ _ _ _) fun t e he _ ht => ?_
        refine .bind (ih he) fun fs f hf hef hfs => .pure hf fun field hfield => ?_
        rcases List.mem_cons.1 hfield with rfl | hfield
        · exact ht.mono hef
        · exact hfs field hfield

theorem builds_responseHeaders (hc : c.Closed)
    (headers : Dict String (Document.OrRef Document.Header)) (stem : String) :
    Builds (responseHeaders b headers place stem) c fun r d => ∀ t ∈ r, d.Registered t := by
  unfold responseHeaders
  refine .bind (builds_headerFields hc _ stem _) fun fields d hd _ hfields => ?_
  split
  · refine .pure hd ?_
    rintro _ ⟨⟩
  · refine .bind (builds_syntheticClass hd _ hfields true) fun n e he _ hn => .pure he ?_
    rintro _ ⟨⟩
    exact registered_named hn

theorem builds_responseBody (hc : c.Closed) (content : Document.Content) (stem : String) :
    Builds (responseBody b content place stem) c fun r d => d.Registered r.1 := by
  unfold responseBody
  split
  · exact .pure hc (registered_of_names_eq_nil rfl)
  · split
    · exact .bind (builds_schemaType hc _ _) fun t d hd _ ht => .pure hd ht
    · exact .pure hc (registered_of_names_eq_nil rfl)

theorem builds_response (hc : c.Closed) (key : String)
    (item : Document.OrRef Document.Response) (classBase : String) :
    Builds (response b key item place classBase) c fun r d => ∀ t ∈ r.types, d.Registered t := by
  unfold response
  split
  · refine .bind (.ofExcept (Q := fun _ _ => True) hc fun _ _ => trivial) fun r d hd _ _ => ?_
    refine .bind (builds_responseBody hd _ _) fun body e he _ hbody => ?_
    refine .bind (builds_responseHeaders he _ _) fun metadata f hf hef hmetadata => .pure hf ?_
    intro t ht
    rcases List.mem_cons.1 ht with rfl | ht
    · exact hbody.mono hef
    · exact hmetadata t (Option.mem_toList.1 ht)
  · exact .fault

theorem builds_responses (hc : c.Closed) (base : Pointer) (classBase : String)
    (items : List (String × Document.OrRef Document.Response)) :
    Builds (responses b base classBase items) c
      fun rs d => ∀ r ∈ rs, ∀ t ∈ r.types, d.Registered t := by
  induction items generalizing c with
  | nil => exact .pure hc (by simp)
  | cons item rest ih =>
      obtain ⟨key, item⟩ := item
      unfold responses
      refine .bind (builds_response hc key item classBase) fun r d hd _ hr => ?_
      refine .bind (ih hd) fun rs e he hde hrs => .pure he fun q hq => ?_
      rcases List.mem_cons.1 hq with rfl | hq
      · exact fun t ht => (hr t ht).mono hde
      · exact hrs q hq

/-- The type that an operation returns names what its responses name. -/
theorem registered_returnType {rs : List Response}
    (h : ∀ r ∈ rs, ∀ t ∈ r.types, c.Registered t) : c.Registered (Response.returnType rs) := by
  refine registered_unionOf fun t ht => ?_
  obtain ⟨r, hr, rfl⟩ := List.mem_map.1 ht
  have hr := h r (List.mem_filter.1 hr).1
  have hbody : c.Registered r.body := hr r.body List.mem_cons_self
  split
  · intro n hn
    rw [TypeExpr.names, TypeExpr.mem_namesAll] at hn
    obtain ⟨u, hu, hn⟩ := hn
    rcases List.mem_cons.1 hu with rfl | hu
    · exact hbody n hn
    · rw [List.mem_singleton.1 hu] at hn
      cases hm : r.metadata with
      | none => simp [hm, TypeExpr.names] at hn
      | some m =>
          rw [hm, Option.getD_some] at hn
          exact hr m (by simp [Response.types, hm]) n hn
  · exact hbody

end ApiModel.Client.Construction
