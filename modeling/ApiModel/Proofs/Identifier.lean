/-
  ApiModel.Proofs.Identifier

  The way back from identifiers. What a character is escaped to is read as the bytes of that
  character whatever comes after it, so a name is read back from its identifier character by
  character; an underscore that is left over at the end is the mark of a reserved word. Names with
  the same identifier are therefore the same. The text of an identifier is one that every target
  language takes: letters, digits and underscores, with no digit in front.
-/
import ApiModel.Identifier

namespace ApiModel.Identifier

/-! ## Bytes of escaped characters -/

/-- The bytes of some characters. -/
def bytesOf (cs : List Char) : List UInt8 := cs.flatMap String.utf8EncodeChar

theorem bytesOf_append (cs cs' : List Char) : bytesOf (cs ++ cs') = bytesOf cs ++ bytesOf cs' :=
  List.flatMap_append

theorem toUTF8_ofList (cs : List Char) : (String.ofList cs).toUTF8.data.toList = bytesOf cs := by
  show cs.utf8Encode.data.toList = _
  simp [List.utf8Encode, bytesOf]

/-- The characters `cs` are read as the bytes `bs`, whatever comes after them. -/
def ReadAs (cs : List Char) (bs : List UInt8) : Prop :=
  ∀ rest, unescapeBytes (bytesOf cs ++ rest) = (unescapeBytes rest).map (bs ++ ·)

theorem readAs_nil : ReadAs [] [] := by
  intro rest
  cases h : unescapeBytes rest <;> simp [bytesOf, h]

theorem ReadAs.append {cs cs' : List Char} {bs bs' : List UInt8} (h : ReadAs cs bs)
    (h' : ReadAs cs' bs') : ReadAs (cs ++ cs') (bs ++ bs') := by
  intro rest
  rw [bytesOf_append, List.append_assoc, h, h', Option.map_map]
  congr 1
  funext bs''
  simp

theorem readAs_flatMap {α : Type} {f : α → List Char} {g : α → List UInt8} {xs : List α}
    (h : ∀ x ∈ xs, ReadAs (f x) (g x)) : ReadAs (xs.flatMap f) (xs.flatMap g) := by
  induction xs with
  | nil => exact readAs_nil
  | cons x xs ih =>
      rw [List.flatMap_cons, List.flatMap_cons]
      exact (h x List.mem_cons_self).append (ih fun y hy => h y (List.mem_cons_of_mem x hy))

/-- A byte that is no underscore stands for itself. -/
theorem unescapeBytes_cons {b : UInt8} (hb : b ≠ 0x5F) (rest : List UInt8) :
    unescapeBytes (b :: rest) = (unescapeBytes rest).map (b :: ·) := by
  cases rest with
  | nil => simp [unescapeBytes, hb]
  | cons c rest =>
      rw [unescapeBytes.eq_def]
      dsimp only
      rw [if_pos hb]
      cases unescapeBytes (c :: rest) <;> rfl

theorem unescapeBytes_underscores (rest : List UInt8) :
    unescapeBytes (0x5F :: 0x5F :: rest) = (unescapeBytes rest).map (0x5F :: ·) := by
  rw [unescapeBytes.eq_def]
  dsimp only
  rw [if_neg (not_not_intro rfl), if_pos rfl]
  cases unescapeBytes rest <;> rfl

/-- After a single underscore come the two digits of a byte. -/
theorem unescapeBytes_digits {hi lo b : UInt8} (hhi : hi ≠ 0x5F) (hb : hexByte? hi lo = some b)
    (rest : List UInt8) :
    unescapeBytes (0x5F :: hi :: lo :: rest) = (unescapeBytes rest).map (b :: ·) := by
  rw [unescapeBytes.eq_def]
  dsimp only
  rw [if_neg (not_not_intro rfl), if_neg hhi, hb]
  cases unescapeBytes rest <;> rfl

/-! ## Digits -/

/-- The byte of a hexadecimal digit. -/
def digitByte (n : Nat) : UInt8 := UInt8.ofNat (Nat.digitChar n).toNat

theorem utf8EncodeChar_digitChar :
    ∀ n < 16, String.utf8EncodeChar (Nat.digitChar n) = [digitByte n] := by
  decide

theorem hexValue?_digitByte : ∀ n < 16, hexValue? (digitByte n) = some (UInt8.ofNat n) := by
  decide

/-- A digit is neither an underscore nor a plus sign. -/
theorem digitByte_ne : ∀ n < 16, digitByte n ≠ 0x5F ∧ digitByte n ≠ 0x2B := by
  decide

theorem hexByte?_digitBytes (b : UInt8) :
    hexByte? (digitByte (b.toNat / 16)) (digitByte (b.toNat % 16)) = some b := by
  have hlt : b.toNat < 256 := b.toNat_lt
  have hhi : b.toNat / 16 < 16 := by omega
  have hlo : b.toNat % 16 < 16 := by omega
  have hsum : 16 * UInt8.ofNat (b.toNat / 16) + UInt8.ofNat (b.toNat % 16) = b := by
    apply UInt8.toNat_inj.1
    simp only [UInt8.toNat_add, UInt8.toNat_mul, UInt8.toNat_ofNat, UInt8.toNat_ofNat']
    omega
  rw [hexByte?, if_neg (digitByte_ne _ hhi).2, hexValue?_digitByte _ hhi, hexValue?_digitByte _ hlo]
  exact congrArg some hsum

/-! ## Escaped characters -/

/-- Capitals, small letters and digits are three ranges of codes. -/
theorem ranges_of_isWordChar {c : Char} (hc : isWordChar c = true) :
    (65 ≤ c.toNat ∧ c.toNat ≤ 90) ∨ (97 ≤ c.toNat ∧ c.toNat ≤ 122) ∨
      (48 ≤ c.toNat ∧ c.toNat ≤ 57) := by
  change ((decide (c.val ≥ 65 ∧ c.val ≤ 90) || (c.val ≥ 97 && c.val ≤ 122)) ||
    (c.val ≥ 48 && c.val ≤ 57)) = true at hc
  simp only [Bool.or_eq_true, Bool.and_eq_true, decide_eq_true_eq, ge_iff_le,
    UInt32.le_iff_toNat_le] at hc
  exact or_assoc.1 hc

/-- Letters and digits have one byte, which is no underscore. -/
theorem utf8EncodeChar_of_isWordChar {c : Char} (hc : isWordChar c = true) :
    ∃ b, String.utf8EncodeChar c = [b] ∧ b ≠ 0x5F := by
  have hbound : c.toNat ≤ 122 ∧ c.toNat ≠ 95 := by
    have hranges := ranges_of_isWordChar hc
    omega
  refine ⟨UInt8.ofNat c.toNat, if_pos (Nat.le_trans hbound.1 (by decide)), fun h => ?_⟩
  have hnat : c.toNat % 256 = 95 := congrArg UInt8.toNat h
  omega

theorem readAs_of_isWordChar {c : Char} (hc : isWordChar c = true) :
    ReadAs [c] (String.utf8EncodeChar c) := by
  intro rest
  obtain ⟨b, hb, hne⟩ := utf8EncodeChar_of_isWordChar hc
  simp only [bytesOf, List.flatMap_cons, List.flatMap_nil, hb, List.append_nil]
  exact unescapeBytes_cons hne rest

theorem readAs_underscores : ReadAs ['_', '_'] (String.utf8EncodeChar '_') :=
  fun rest => unescapeBytes_underscores rest

theorem readAs_escapeByte (b : UInt8) : ReadAs (escapeByte b) [b] := by
  intro rest
  have hlt : b.toNat < 256 := b.toNat_lt
  have hhi : b.toNat / 16 < 16 := by omega
  have hlo : b.toNat % 16 < 16 := by omega
  have hbytes : bytesOf (escapeByte b) =
      [0x5F, digitByte (b.toNat / 16), digitByte (b.toNat % 16)] := by
    simp only [bytesOf, escapeByte, List.flatMap_cons, List.flatMap_nil,
      utf8EncodeChar_digitChar _ hhi, utf8EncodeChar_digitChar _ hlo]
    rfl
  rw [hbytes]
  exact unescapeBytes_digits (digitByte_ne _ hhi).1 (hexByte?_digitBytes b) rest

theorem readAs_escapeBytes (c : Char) : ReadAs (escapeBytes c) (String.utf8EncodeChar c) := by
  have h : ReadAs (escapeBytes c) ((String.utf8EncodeChar c).flatMap fun b => [b]) :=
    readAs_flatMap fun b _ => readAs_escapeByte b
  rwa [List.flatMap_singleton'] at h

theorem readAs_escapeChar (c : Char) : ReadAs (escapeChar c) (String.utf8EncodeChar c) := by
  unfold escapeChar
  split
  · next hc => exact readAs_of_isWordChar hc
  · split
    · next hc => exact hc ▸ readAs_underscores
    · exact readAs_escapeBytes c

theorem readAs_escapeChars (cs : List Char) : ReadAs (escapeChars cs) (bytesOf cs) := by
  cases cs with
  | nil => exact readAs_nil
  | cons c rest =>
      have hfirst : ReadAs (escapeFirst c) (String.utf8EncodeChar c) := by
        unfold escapeFirst
        split
        · exact readAs_escapeBytes c
        · exact readAs_escapeChar c
      exact hfirst.append (readAs_flatMap fun c _ => readAs_escapeChar c)

/-! ## Characters of identifiers -/

/-- ASCII letters, digits and the underscore. -/
def IsIdentifierChar (c : Char) : Prop :=
  ('a' ≤ c ∧ c ≤ 'z') ∨ ('A' ≤ c ∧ c ≤ 'Z') ∨ ('0' ≤ c ∧ c ≤ '9') ∨ c = '_'

instance : DecidablePred IsIdentifierChar := fun c =>
  inferInstanceAs (Decidable
    (('a' ≤ c ∧ c ≤ 'z') ∨ ('A' ≤ c ∧ c ≤ 'Z') ∨ ('0' ≤ c ∧ c ≤ '9') ∨ c = '_'))

/-- What every target language takes for an identifier. -/
structure IsIdentifier (text : String) : Prop where
  nonempty : text ≠ ""
  chars : ∀ c ∈ text.toList, IsIdentifierChar c
  first : ∀ c, text.toList.head? = some c → ¬ ('0' ≤ c ∧ c ≤ '9')

theorem isDigit_iff (c : Char) : c.isDigit = true ↔ '0' ≤ c ∧ c ≤ '9' := by
  simp only [Char.isDigit, Bool.and_eq_true, decide_eq_true_eq, Char.le_def, ge_iff_le]

theorem isIdentifierChar_of_isWordChar {c : Char} (hc : isWordChar c = true) :
    IsIdentifierChar c := by
  rcases ranges_of_isWordChar hc with hupper | hlower | hdigit
  · exact .inr (.inl hupper)
  · exact .inl hlower
  · exact .inr (.inr (.inl hdigit))

theorem isIdentifierChar_underscore : IsIdentifierChar '_' := by decide

theorem isIdentifierChar_digitChar : ∀ n < 16, IsIdentifierChar (Nat.digitChar n) := by
  decide

theorem isIdentifierChar_of_mem_escapeByte {b : UInt8} {c : Char} (hc : c ∈ escapeByte b) :
    IsIdentifierChar c := by
  have hlt : b.toNat < 256 := b.toNat_lt
  simp only [escapeByte, List.mem_cons, List.not_mem_nil, or_false] at hc
  rcases hc with rfl | rfl | rfl
  · exact isIdentifierChar_underscore
  · exact isIdentifierChar_digitChar _ (by omega)
  · exact isIdentifierChar_digitChar _ (by omega)

theorem isIdentifierChar_of_mem_escapeBytes {d c : Char} (hc : c ∈ escapeBytes d) :
    IsIdentifierChar c := by
  obtain ⟨b, -, hb⟩ := List.mem_flatMap.1 hc
  exact isIdentifierChar_of_mem_escapeByte hb

theorem isIdentifierChar_of_mem_escapeChar {d c : Char} (hc : c ∈ escapeChar d) :
    IsIdentifierChar c := by
  unfold escapeChar at hc
  split at hc
  · next hd => exact List.mem_singleton.1 hc ▸ isIdentifierChar_of_isWordChar hd
  · split at hc
    · simp only [List.mem_cons, List.not_mem_nil, or_false, or_self] at hc
      exact hc ▸ isIdentifierChar_underscore
    · exact isIdentifierChar_of_mem_escapeBytes hc

theorem isIdentifierChar_of_mem_escapeChars {cs : List Char} {c : Char}
    (hc : c ∈ escapeChars cs) : IsIdentifierChar c := by
  cases cs with
  | nil => exact absurd hc List.not_mem_nil
  | cons d rest =>
      rcases List.mem_append.1 hc with hc | hc
      · unfold escapeFirst at hc
        split at hc
        · exact isIdentifierChar_of_mem_escapeBytes hc
        · exact isIdentifierChar_of_mem_escapeChar hc
      · obtain ⟨d', -, hd'⟩ := List.mem_flatMap.1 hc
        exact isIdentifierChar_of_mem_escapeChar hd'

/-- What is written by its bytes starts with an underscore: every character has a byte. -/
theorem escapeBytes_eq_cons (c : Char) : ∃ rest, escapeBytes c = '_' :: rest := by
  obtain ⟨b, bs, hbs⟩ := List.exists_cons_of_ne_nil (String.utf8EncodeChar_ne_nil (c := c))
  exact ⟨_, by rw [escapeBytes, hbs]; rfl⟩

/-- The first character is no digit, and it is there. -/
theorem escapeFirst_eq_cons (c : Char) :
    ∃ d rest, escapeFirst c = d :: rest ∧ d.isDigit = false := by
  unfold escapeFirst
  split
  · obtain ⟨rest, hrest⟩ := escapeBytes_eq_cons c
    exact ⟨'_', rest, hrest, rfl⟩
  · next hdigit =>
    unfold escapeChar
    split
    · exact ⟨c, [], rfl, Bool.eq_false_iff.2 hdigit⟩
    · split
      · exact ⟨'_', ['_'], rfl, rfl⟩
      · obtain ⟨rest, hrest⟩ := escapeBytes_eq_cons c
        exact ⟨'_', rest, hrest, rfl⟩

/-! ## Identifiers -/

/-- The identifier of a name where no word is reserved; nothing for the empty name. -/
def unmarked (name : String) : String := String.ofList (escapeChars name.toList)

theorem escape_of_reserved {name : String} {words : SortedSet String}
    (h : unmarked name = "" ∨ words.contains (unmarked name) = true) :
    escape name words = (unmarked name).push '_' := by
  have hmark : ((unmarked name).isEmpty || words.contains (unmarked name)) = true := by
    rcases h with h | h <;> simp [h]
  exact if_pos hmark

theorem escape_of_unreserved {name : String} {words : SortedSet String}
    (h : ¬ (unmarked name = "" ∨ words.contains (unmarked name) = true)) :
    escape name words = unmarked name := by
  have hmark : ¬ ((unmarked name).isEmpty || words.contains (unmarked name)) = true := by
    simpa using h
  exact if_neg hmark

/-- An identifier is its escaped characters, with or without the mark of a reserved word. -/
theorem escape_eq (name : String) (keywords : SortedSet String) :
    ∃ mark, (mark = [] ∨ mark = ['_']) ∧
      escape name keywords = String.ofList (escapeChars name.toList ++ mark) := by
  by_cases h : unmarked name = "" ∨ keywords.contains (unmarked name) = true
  · exact ⟨['_'], .inr rfl, by rw [escape_of_reserved h, unmarked, ← String.toList_inj]; simp⟩
  · exact ⟨[], .inl rfl, by rw [escape_of_unreserved h, unmarked, List.append_nil]⟩

theorem escape_ne_empty (name : String) (keywords : SortedSet String) :
    escape name keywords ≠ "" := by
  intro hempty
  by_cases h : unmarked name = "" ∨ keywords.contains (unmarked name) = true
  · rw [escape_of_reserved h] at hempty
    simpa using congrArg String.toList hempty
  · rw [escape_of_unreserved h] at hempty
    exact h (.inl hempty)

/-- The mark of a reserved word is at the front of an identifier only when nothing else is. -/
theorem isDigit_head?_escapeChars {cs mark : List Char} {c : Char}
    (hmark : mark = [] ∨ mark = ['_']) (hc : (escapeChars cs ++ mark).head? = some c) :
    c.isDigit = false := by
  cases cs with
  | nil =>
      rcases hmark with rfl | rfl
      · exact absurd hc (by simp [escapeChars])
      · obtain rfl : '_' = c := Option.some.inj hc
        rfl
  | cons d rest =>
      obtain ⟨d', rest', hd', hdigit⟩ := escapeFirst_eq_cons d
      rw [escapeChars, hd'] at hc
      obtain rfl : d' = c := Option.some.inj hc
      exact hdigit

theorem isIdentifier_escape (name : String) (keywords : SortedSet String) :
    IsIdentifier (escape name keywords) := by
  have hne := escape_ne_empty name keywords
  obtain ⟨mark, hmark, hescape⟩ := escape_eq name keywords
  have hchars : (escape name keywords).toList = escapeChars name.toList ++ mark := by
    rw [hescape, String.toList_ofList]
  refine ⟨hne, fun c hc => ?_, fun c hc => ?_⟩
  · rw [hchars, List.mem_append] at hc
    rcases hc with hc | hc
    · exact isIdentifierChar_of_mem_escapeChars hc
    · rcases hmark with rfl | rfl
      · exact absurd hc List.not_mem_nil
      · exact List.mem_singleton.1 hc ▸ isIdentifierChar_underscore
  · rw [hchars] at hc
    rw [← isDigit_iff, Bool.not_eq_true]
    exact isDigit_head?_escapeChars hmark hc

/-- The bytes of a name are read back from its identifier. -/
theorem unescapeBytes_escape (name : String) (keywords : SortedSet String) :
    unescapeBytes (escape name keywords).toUTF8.data.toList = some (bytesOf name.toList) := by
  obtain ⟨mark, hmark, hescape⟩ := escape_eq name keywords
  rw [hescape, toUTF8_ofList, bytesOf_append, readAs_escapeChars]
  rcases hmark with rfl | rfl
  · simp [bytesOf, unescapeBytes]
  · have hend : unescapeBytes (bytesOf ['_']) = some [] := rfl
    simp [hend]

/-- The bytes of a name are valid UTF-8, so reading them back is reading the name back. -/
theorem unescape_escape (name : String) (keywords : SortedSet String) :
    unescape (escape name keywords) = some name := by
  have hdecode : String.fromUTF8? name.toUTF8 = some name := by
    unfold String.fromUTF8?
    rw [String.toUTF8_eq_toByteArray, dif_pos name.isValidUTF8]
    rfl
  rw [unescape, unescapeBytes_escape, ← toUTF8_ofList, String.ofList_toList]
  show String.fromUTF8? ⟨name.toUTF8.data.toList.toArray⟩ = some name
  rw [Array.toArray_toList]
  exact hdecode

/-- Two names with the same identifier are the same, whatever words are reserved. -/
theorem eq_of_escape_eq {name name' : String} {keywords keywords' : SortedSet String}
    (h : escape name keywords = escape name' keywords') : name = name' := by
  have hread := unescape_escape name keywords
  rw [h, unescape_escape name' keywords'] at hread
  exact (Option.some.inj hread).symm

/-- Escaping can be undone, and what it gives is an identifier; no two names share one, whatever
    words are reserved for either. -/
theorem escape_reversible (name : String) (keywords : SortedSet String) :
    unescape (escape name keywords) = some name ∧
      IsIdentifier (escape name keywords) ∧
      ∀ name' keywords', name' ≠ name → escape name' keywords' ≠ escape name keywords :=
  ⟨unescape_escape name keywords, isIdentifier_escape name keywords,
    fun _ _ hne h => hne (eq_of_escape_eq h)⟩

/-- The mark of a reserved word is not mistaken for an underscore of the name. -/
theorem escape_reserved_ne_trailing :
    "for_" ≠ "for" ∧ escape "for_" (.ofList []) ≠ escape "for" (keywords []) :=
  have hne : "for_" ≠ "for" := by decide
  ⟨hne, (escape_reversible "for" (keywords [])).2.2 "for_" (.ofList []) hne⟩

end ApiModel.Identifier
