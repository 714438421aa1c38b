/-
  ApiModel.Proofs.Client.Construction.Parameters

  Parameters. Merging and renaming invent no parameter and change no type, so what comes of the
  signature of an operation has the types of the parameters that went in; the one new type names the
  metadata class, which has just been registered.
-/
import ApiModel.Client.Construction.Parameters
import ApiModel.Proofs.Client.Construction

namespace ApiModel.Client.Construction

open Work

variable {b : Setting} {c : Construction} {place : Pointer}

theorem mem_mergeParameters {p : Parameter} {ps : List Parameter}
    (h : p ∈ mergeParameters ps) : p ∈ ps := by
  have hvalue := Dict.mem_values_ofList h
  rw [List.map_map, List.mem_map] at hvalue
  obtain ⟨q, hq, rfl⟩ := hvalue
  exact hq

/-- Renaming gives parameters that were there, under other names. -/
theorem mem_rename {p : Parameter} {ps : List Parameter} {names : List String}
    (h : p ∈ rename ps names) : ∃ q ∈ ps, p.type = q.type := by
  unfold rename at h
  induction ps generalizing names with
  | nil => simp at h
  | cons q ps ih =>
      cases names with
      | nil => simp at h
      | cons name names =>
          rw [List.zipWith_cons_cons] at h
          rcases List.mem_cons.1 h with rfl | h
          · exact ⟨q, List.mem_cons_self, rfl⟩
          · obtain ⟨r, hr, htype⟩ := ih h
            exact ⟨r, List.mem_cons_of_mem q hr, htype⟩

theorem builds_readLocation (hc : c.Closed) (word : String) :
    Builds (readLocation place word) c fun _ _ => True := by
  unfold readLocation
  split
  · exact .pure hc trivial
  · exact .fault

theorem builds_readStyle (hc : c.Closed) (location : Location) (word : Option String) :
    Builds (readStyle place location word) c fun _ _ => True := by
  unfold readStyle
  split
  · exact .pure hc trivial
  · split
    · exact .pure hc trivial
    · exact .fault

theorem builds_parameter (hc : c.Closed) (item : Document.OrRef Document.Parameter)
    (owner : String) :
    Builds (parameter b item place owner) c fun r d => ∀ p ∈ r, d.Registered p.type := by
  unfold parameter
  refine .bind (.ofExcept (Q := fun _ _ => True) hc fun _ _ => trivial) fun r d hd _ _ => ?_
  refine .bind (builds_readLocation hd _) fun location e he _ _ => ?_
  split
  · refine .bind (builds_warn he _) fun _ f hf _ _ => .pure hf ?_
    rintro _ ⟨⟩
  · refine .bind (builds_payload he _ _ _ _) fun t f hf _ ht => ?_
    refine .bind (builds_readStyle hf _ _) fun style g hg hfg _ => .pure hg ?_
    rintro _ ⟨⟩
    exact ht.mono hfg

theorem builds_parametersFrom (hc : c.Closed) (base : Pointer) (owner : String) (i : Nat)
    (items : List (Document.OrRef Document.Parameter)) :
    Builds (parametersFrom b base owner i items) c fun ps d => ∀ p ∈ ps, d.Registered p.type := by
  induction items generalizing c i with
  | nil => exact .pure hc (by simp)
  | cons item rest ih =>
      unfold parametersFrom
      refine .bind (builds_parameter hc item owner) fun r d hd _ hr => ?_
      refine .bind (ih hd (i + 1)) fun ps e he hde hps => .pure he fun p hp => ?_
      rcases List.mem_append.1 hp with hp | hp
      · exact (hr p (Option.mem_toList.1 hp)).mono hde
      · exact hps p hp

theorem builds_metadataParameter (hc : c.Closed) (classBase name : String)
    {metadata : List Parameter} (hmetadata : ∀ p ∈ metadata, c.Registered p.type) :
    Builds (metadataParameter b place classBase name metadata) c
      fun p d => d.Registered p.type := by
  unfold metadataParameter
  refine .bind (builds_syntheticClass hc _ ?_ false) fun n d hd _ hn => .pure hd ?_
  · intro f hf
    obtain ⟨p, hp, rfl⟩ := List.mem_map.1 hf
    obtain ⟨q, hq, htype⟩ := mem_rename hp
    rw [htype]
    exact hmetadata q hq
  · show d.Registered (if metadata.any Parameter.required then _ else _)
    split
    · exact registered_named hn
    · exact registered_optionalOf (registered_named hn)

theorem builds_signature (hc : c.Closed) (classBase : String) {ps : List Parameter}
    (hps : ∀ p ∈ ps, c.Registered p.type) :
    Builds (signature b place classBase ps) c fun qs d => ∀ q ∈ qs, d.Registered q.type := by
  have hmerged : ∀ p ∈ mergeParameters ps, c.Registered p.type := fun p hp =>
    hps p (mem_mergeParameters hp)
  unfold signature
  dsimp only
  generalize hdirect : rename ((mergeParameters ps).filter _) _ = direct
  have hregistered : ∀ p ∈ direct, c.Registered p.type := by
    subst hdirect
    intro p hp
    obtain ⟨q, hq, htype⟩ := mem_rename hp
    rw [htype]
    exact hmerged q (List.mem_filter.1 hq).1
  split
  · exact .pure hc hregistered
  · refine .bind (builds_metadataParameter hc classBase _ ?_) fun m d hd hcd hm => .pure hd ?_
    · exact fun p hp => hmerged p (List.mem_filter.1 hp).1
    · intro q hq
      rcases List.mem_append.1 hq with hq | hq
      · exact (hregistered q hq).mono hcd
      · rw [List.mem_singleton.1 hq]
        exact hm

end ApiModel.Client.Construction
