/-
  ApiModel.Proofs.Naming

  Reserved words among identifiers. A name whose escaped characters make a reserved word gets one
  underscore and no more, for two would be read back as an underscore of the name. An identifier is
  therefore reserved only where a reserved word with an underscore after it is reserved as well. No
  word of the built-in list ends in an underscore, so the usual naming never gives out a reserved
  word unless a further one does.
-/
import ApiModel.Naming
import ApiModel.Proofs.Identifier

namespace ApiModel.Identifier

/-- An identifier is reserved exactly if it bears the mark and is a reserved word with it. -/
theorem contains_escape_iff (name : String) (words : SortedSet String) :
    words.contains (escape name words) = true ↔
      (unmarked name = "" ∨ words.contains (unmarked name) = true) ∧
        words.contains ((unmarked name).push '_') = true := by
  by_cases h : unmarked name = "" ∨ words.contains (unmarked name) = true
  · rw [escape_of_reserved h, and_iff_right h]
  · rw [escape_of_unreserved h]
    exact ⟨fun hword => absurd (.inr hword) h, fun hboth => absurd hboth.1 h⟩

theorem contains_keywords_iff {extra : List String} {word : String} :
    (keywords extra).contains word = true ↔ word ∈ reservedWords ∨ word ∈ extra := by
  rw [SortedSet.contains, List.contains_iff_mem, keywords, SortedSet.mem_ofList, List.mem_append]

theorem getLast?_of_mem_reservedWords :
    ∀ word ∈ reservedWords, word.toList.getLast? ≠ some '_' := by
  decide

/-- No word of the list with an underscore after it is reserved, unless a further word is that. -/
theorem not_contains_push {extra : List String}
    (hextra : ∀ word ∈ extra, word.toList.getLast? ≠ some '_') (word : String) :
    (keywords extra).contains (word.push '_') = false := by
  rw [Bool.eq_false_iff, Ne, contains_keywords_iff]
  have hlast : (word.push '_').toList.getLast? = some '_' := by simp
  rintro (h | h)
  · exact getLast?_of_mem_reservedWords _ h hlast
  · exact hextra _ h hlast

theorem not_contains_escape {extra : List String}
    (hextra : ∀ word ∈ extra, word.toList.getLast? ≠ some '_') (name : String) :
    (keywords extra).contains (escape name (keywords extra)) = false := by
  rw [Bool.eq_false_iff, Ne, contains_escape_iff]
  rintro ⟨-, h⟩
  rw [not_contains_push hextra] at h
  cases h

/-- Every identifier of the usual naming is escaped last. -/
theorem exists_escape_of_escaping {extra : List String} {name identifier : String}
    (h : identifier ∈ [(Naming.escaping extra).className name,
      (Naming.escaping extra).fieldName name, (Naming.escaping extra).moduleName name,
      (Naming.escaping extra).operationName name]) :
    ∃ s, identifier = escape s (keywords extra) := by
  simp only [Naming.escaping, List.mem_cons, List.not_mem_nil, or_false] at h
  rcases h with h | h | h | h
  · exact ⟨pascalCase name, h⟩
  · exact ⟨name, h⟩
  · exact ⟨name, h⟩
  · exact ⟨name, h⟩

/-- An identifier is a reserved word exactly if its name makes one, or is empty, and the mark makes
    another one; the usual naming never does so if no further word ends in an underscore. -/
theorem reserved_escape_iff (name : String) (words : SortedSet String) (extra : List String) :
    (words.contains (escape name words) = true ↔
      (unmarked name = "" ∨ words.contains (unmarked name) = true) ∧
        words.contains ((unmarked name).push '_') = true) ∧
    ((∀ word ∈ extra, word.toList.getLast? ≠ some '_') →
      ∀ identifier ∈ [(Naming.escaping extra).className name,
        (Naming.escaping extra).fieldName name, (Naming.escaping extra).moduleName name,
        (Naming.escaping extra).operationName name],
        (keywords extra).contains identifier = false) := by
  refine ⟨contains_escape_iff name words, fun hextra identifier h => ?_⟩
  obtain ⟨s, rfl⟩ := exists_escape_of_escaping h
  exact not_contains_escape hextra s

/-- With a reserved word that is another one with the mark, the mark leads from one to the other. -/
theorem escape_twiceReserved : escape "class" (keywords ["class_"]) = "class_" ∧
    (keywords ["class_"]).contains (escape "class" (keywords ["class_"])) = true := by
  decide

theorem reserved_escape_iff_model :
    (∀ word ∈ ["model", "_id"], word.toList.getLast? ≠ some '_') ∧
      (keywords ["model", "_id"]).contains
        ((Naming.escaping ["model", "_id"]).fieldName "model") = false := by
  have hextra : ∀ word ∈ ["model", "_id"], word.toList.getLast? ≠ some '_' := by decide
  refine ⟨hextra, (reserved_escape_iff "model" .empty ["model", "_id"]).2 hextra _ ?_⟩
  exact List.mem_cons_of_mem _ List.mem_cons_self

end ApiModel.Identifier
