/-
  ApiModel.Proofs.Identifier.Image

  Which texts are identifiers of names. Escaping spells a name byte by byte: a byte stands for
  itself, is doubled, or is given by two small hexadecimal digits, and it has no choice. The way
  back takes more than that, capital digits for example, and escapes of letters, so a text that it
  accepts need not be an identifier. With a test of the spelling beside it the accepted texts are
  exactly the identifiers: what is spelt so comes out again as it was.
-/
import ApiModel.Proofs.Identifier

namespace ApiModel.Identifier

variable {kept : Char → Bool} {b : UInt8} {bs : List UInt8} {c hi lo : Char}
  {cs rest mark : List Char}

/-! ## Names spelt byte by byte -/

/-- The spelling of a byte where the characters `kept` stand for themselves. -/
def spellByte (kept : Char → Bool) (b : UInt8) : List Char :=
  if kept (Char.ofNat b.toNat) then [Char.ofNat b.toNat]
  else if b = 0x5F then ['_', '_']
  else escapeByte b

/-- The spelling of some bytes; after the first one letters and digits are kept. -/
def spell (kept : Char → Bool) : List UInt8 → List Char
  | [] => []
  | b :: bs => spellByte kept b ++ spell isWordChar bs

theorem spell_append (bs bs' : List UInt8) :
    spell isWordChar (bs ++ bs') = spell isWordChar bs ++ spell isWordChar bs' := by
  induction bs with
  | nil => rfl
  | cons b bs ih => rw [List.cons_append, spell, spell, ih, List.append_assoc]

/-- Letters and digits at most are kept. -/
def KeepsWords (kept : Char → Bool) : Prop := ∀ c, kept c = true → isWordChar c = true

theorem keepsWords_isWordChar : KeepsWords isWordChar := fun _ h => h

theorem keepsWords_isAlpha : KeepsWords Char.isAlpha := by
  intro c h
  rw [isWordChar, h, Bool.true_or]

theorem ne_underscore_of_isWordChar (hc : isWordChar c = true) : c ≠ '_' := by
  rintro rfl
  exact absurd hc (by decide)

theorem not_isAlpha_of_isDigit (hc : c.isDigit = true) : ¬ c.isAlpha = true := by
  intro halpha
  have hdigit : 48 ≤ c.toNat ∧ c.toNat ≤ 57 := (isDigit_iff c).1 hc
  change (decide (c.val ≥ 65 ∧ c.val ≤ 90) || (c.val ≥ 97 && c.val ≤ 122)) = true at halpha
  simp only [Bool.or_eq_true, Bool.and_eq_true, decide_eq_true_eq, ge_iff_le,
    UInt32.le_iff_toNat_le] at halpha
  change (65 ≤ c.toNat ∧ c.toNat ≤ 90) ∨ (97 ≤ c.toNat ∧ c.toNat ≤ 122) at halpha
  omega

theorem not_isWordChar_ofNat : ∀ n < 256, 128 ≤ n → ¬ isWordChar (Char.ofNat n) = true := by
  decide +kernel

/-- A byte within ASCII is a character. -/
theorem ofNat_toNat_ofNat (hc : c.toNat < 128) : Char.ofNat (UInt8.ofNat c.toNat).toNat = c := by
  rw [UInt8.toNat_ofNat', Nat.mod_eq_of_lt (by omega), Char.ofNat_toNat]

theorem utf8EncodeChar_of_lt (hc : c.toNat < 128) :
    String.utf8EncodeChar c = [UInt8.ofNat c.toNat] := if_pos (by change c.toNat ≤ 127; omega)

/-- Characters beyond ASCII have no byte within it. -/
theorem le_of_mem_utf8EncodeChar (hc : 128 ≤ c.toNat) (hb : b ∈ String.utf8EncodeChar c) :
    128 ≤ b.toNat := by
  have hval : c.val.toNat = c.toNat := rfl
  unfold String.utf8EncodeChar at hb
  dsimp only at hb
  rw [hval, if_neg (by omega)] at hb
  split at hb
  · simp only [List.mem_cons, List.not_mem_nil, or_false] at hb
    rcases hb with rfl | rfl <;> simp only [UInt8.toNat_ofNat'] <;> omega
  · split at hb
    · simp only [List.mem_cons, List.not_mem_nil, or_false] at hb
      rcases hb with rfl | rfl | rfl <;> simp only [UInt8.toNat_ofNat'] <;> omega
    · simp only [List.mem_cons, List.not_mem_nil, or_false] at hb
      rcases hb with rfl | rfl | rfl | rfl <;> simp only [UInt8.toNat_ofNat'] <;> omega

/-- A byte beyond ASCII is given by its digits. -/
theorem spellByte_of_le (hkept : KeepsWords kept) (hb : 128 ≤ b.toNat) :
    spellByte kept b = escapeByte b := by
  have hlt : b.toNat < 256 := b.toNat_lt
  have hno : ¬ kept (Char.ofNat b.toNat) = true := fun h =>
    not_isWordChar_ofNat _ hlt hb (hkept _ h)
  have hne : b ≠ 0x5F := by
    rintro rfl
    exact absurd hb (by decide)
  rw [spellByte, if_neg hno, if_neg hne]

theorem spell_of_le (hkept : KeepsWords kept) (hbs : ∀ b ∈ bs, 128 ≤ b.toNat) :
    spell kept bs = bs.flatMap escapeByte := by
  induction bs generalizing kept with
  | nil => rfl
  | cons b bs ih =>
      rw [List.forall_mem_cons] at hbs
      rw [spell, spellByte_of_le hkept hbs.1, ih keepsWords_isWordChar hbs.2, List.flatMap_cons]

/-- The bytes of a character spell what the character is escaped to. -/
theorem spell_utf8EncodeChar (hkept : KeepsWords kept) (c : Char) :
    spell kept (String.utf8EncodeChar c) =
      if kept c then [c] else if c = '_' then ['_', '_'] else escapeBytes c := by
  by_cases hc : c.toNat < 128
  · have hunderscore : UInt8.ofNat c.toNat = 0x5F ↔ c = '_' := by
      refine ⟨fun h => ?_, by rintro rfl; rfl⟩
      rw [← ofNat_toNat_ofNat hc, h]
      rfl
    rw [escapeBytes, utf8EncodeChar_of_lt hc, spell, spell, List.append_nil, spellByte,
      ofNat_toNat_ofNat hc, List.flatMap_singleton]
    simp only [hunderscore]
  · have hno : ¬ kept c = true := by
      intro h
      have hranges := ranges_of_isWordChar (hkept c h)
      omega
    have hne : c ≠ '_' := by
      rintro rfl
      exact absurd hc (by decide)
    rw [if_neg hno, if_neg hne, escapeBytes]
    exact spell_of_le hkept fun b hb => le_of_mem_utf8EncodeChar (Nat.le_of_not_lt hc) hb

theorem spell_bytesOf (cs : List Char) : spell isWordChar (bytesOf cs) = cs.flatMap escapeChar := by
  induction cs with
  | nil => rfl
  | cons c cs ih =>
      have hc : spell isWordChar (String.utf8EncodeChar c) = escapeChar c :=
        spell_utf8EncodeChar keepsWords_isWordChar c
      rw [bytesOf, List.flatMap_cons, ← bytesOf, spell_append, ih, hc, List.flatMap_cons]

/-- Escaping a name is spelling its bytes, with only letters kept at the start. -/
theorem escapeChars_eq_spell (cs : List Char) :
    escapeChars cs = spell Char.isAlpha (bytesOf cs) := by
  cases cs with
  | nil => rfl
  | cons c cs =>
      obtain ⟨b, bs, hbs⟩ := List.exists_cons_of_ne_nil (String.utf8EncodeChar_ne_nil (c := c))
      have hfirst : escapeFirst c = spell Char.isAlpha (String.utf8EncodeChar c) := by
        rw [spell_utf8EncodeChar keepsWords_isAlpha, escapeFirst, escapeChar, isWordChar]
        by_cases hdigit : c.isDigit = true
        · have hne : c ≠ '_' := by
            rintro rfl
            exact absurd hdigit (by decide)
          rw [if_pos hdigit, if_neg (not_isAlpha_of_isDigit hdigit), if_neg hne]
        · simp [hdigit]
      rw [escapeChars, hfirst, bytesOf, List.flatMap_cons, ← bytesOf, hbs, List.cons_append, spell,
        spell, spell_append, spell_bytesOf, List.append_assoc]

/-! ## The test of a spelling -/

/-- The value of a hexadecimal digit; a letter among them is small. -/
def hexDigit? (c : Char) : Option Nat :=
  if '0' ≤ c ∧ c ≤ '9' then some (c.toNat - 48)
  else if 'a' ≤ c ∧ c ≤ 'f' then some (c.toNat - 87)
  else none

/-- The byte that two hexadecimal digits write. -/
def escapedByte? (hi lo : Char) : Option UInt8 := do
  return UInt8.ofNat (16 * (← hexDigit? hi) + (← hexDigit? lo))

/-- Whether a text is spelt like a name where the characters `kept` stand for themselves: only a
    byte that has no other spelling is given by its digits. One underscore may be left over. -/
def isSpelling (kept : Char → Bool) : List Char → Bool
  | [] => true
  | ['_'] => true
  | '_' :: '_' :: rest => isSpelling isWordChar rest
  | '_' :: hi :: lo :: rest =>
    match escapedByte? hi lo with
    | some b => !kept (Char.ofNat b.toNat) && b != 0x5F && isSpelling isWordChar rest
    | none => false
  | c :: rest => kept c && isSpelling isWordChar rest

/-- Whether a text is spelt like an identifier: no digit stands at the start. -/
def isSpelt (text : String) : Bool := text != "" && isSpelling Char.isAlpha text.toList

theorem hexDigit?_digitChar : ∀ n < 16, hexDigit? (Nat.digitChar n) = some n := by decide

theorem digitChar_of_hexDigit? {n : Nat} (h : hexDigit? c = some n) :
    n < 16 ∧ Nat.digitChar n = c := by
  have hdigits : ∀ n < 10, Nat.digitChar n = Char.ofNat (48 + n) := by decide
  have hletters : ∀ n < 6, Nat.digitChar (10 + n) = Char.ofNat (97 + n) := by decide
  unfold hexDigit? at h
  split at h
  · next hc =>
    have hrange : 48 ≤ c.toNat ∧ c.toNat ≤ 57 := hc
    obtain rfl := Option.some.inj h
    refine ⟨by omega, ?_⟩
    rw [hdigits _ (by omega), Nat.add_sub_of_le hrange.1, Char.ofNat_toNat]
  · split at h
    · next hc =>
      have hrange : 97 ≤ c.toNat ∧ c.toNat ≤ 102 := hc
      obtain rfl := Option.some.inj h
      refine ⟨by omega, ?_⟩
      rw [show c.toNat - 87 = 10 + (c.toNat - 97) by omega, hletters _ (by omega),
        Nat.add_sub_of_le hrange.1, Char.ofNat_toNat]
    · cases h

/-- The digits of a byte are read as that byte, and no other characters are. -/
theorem escapedByte?_eq_some_iff : escapedByte? hi lo = some b ↔ escapeByte b = ['_', hi, lo] := by
  have hlt : b.toNat < 256 := b.toNat_lt
  constructor
  · intro h
    obtain ⟨n, hn, h⟩ := Option.bind_eq_some_iff.1 h
    obtain ⟨m, hm, h⟩ := Option.bind_eq_some_iff.1 h
    obtain rfl := Option.some.inj h
    obtain ⟨hn, rfl⟩ := digitChar_of_hexDigit? hn
    obtain ⟨hm, rfl⟩ := digitChar_of_hexDigit? hm
    have hvalue : (UInt8.ofNat (16 * n + m)).toNat = 16 * n + m := by
      rw [UInt8.toNat_ofNat', Nat.mod_eq_of_lt (by omega)]
    rw [escapeByte, hvalue, show (16 * n + m) / 16 = n by omega,
      show (16 * n + m) % 16 = m by omega]
  · intro h
    obtain ⟨hhi, hlo⟩ : Nat.digitChar (b.toNat / 16) = hi ∧ Nat.digitChar (b.toNat % 16) = lo := by
      simpa [escapeByte] using h
    rw [escapedByte?, ← hhi, ← hlo, hexDigit?_digitChar _ (by omega),
      hexDigit?_digitChar _ (by omega)]
    refine congrArg some ?_
    rw [Nat.div_add_mod, UInt8.ofNat_toNat]

theorem isSpelling_cons_of_ne (hc : c ≠ '_') :
    isSpelling kept (c :: rest) = (kept c && isSpelling isWordChar rest) := by
  rw [isSpelling.eq_def]
  split <;> simp_all

theorem isSpelling_escapeByte (b : UInt8) (rest : List Char) :
    isSpelling kept (escapeByte b ++ rest) =
      (!kept (Char.ofNat b.toNat) && b != 0x5F && isSpelling isWordChar rest) := by
  have hlt : b.toNat < 256 := b.toNat_lt
  have hdigits : ∀ n < 16, Nat.digitChar n ≠ '_' := by decide
  have hhi : Nat.digitChar (b.toNat / 16) ≠ '_' := hdigits _ (by omega)
  have hbyte :
      escapedByte? (Nat.digitChar (b.toNat / 16)) (Nat.digitChar (b.toNat % 16)) = some b :=
    escapedByte?_eq_some_iff.2 rfl
  show isSpelling kept ('_' :: Nat.digitChar (b.toNat / 16) :: Nat.digitChar (b.toNat % 16) :: rest)
    = _
  rw [isSpelling, hbyte]
  exact hhi

/-- What is spelt byte by byte passes the test, with or without the mark of a reserved word. -/
theorem isSpelling_spell (hkept : KeepsWords kept) (hmark : mark = [] ∨ mark = ['_'])
    (bs : List UInt8) : isSpelling kept (spell kept bs ++ mark) = true := by
  induction bs generalizing kept with
  | nil => rcases hmark with rfl | rfl <;> rfl
  | cons b bs ih =>
      have hrest := ih keepsWords_isWordChar
      rw [spell, List.append_assoc, spellByte]
      split
      · next h =>
        have hne := ne_underscore_of_isWordChar (hkept _ h)
        rw [List.singleton_append, isSpelling_cons_of_ne hne, h, hrest]
        rfl
      · next h =>
        split
        · exact hrest
        · next hne =>
          rw [isSpelling_escapeByte, hrest]
          simp [h, hne]

theorem spellByte_of_kept (hkept : KeepsWords kept) (hc : kept c = true) :
    spellByte kept (UInt8.ofNat c.toNat) = [c] := by
  have hranges := ranges_of_isWordChar (hkept c hc)
  rw [spellByte, ofNat_toNat_ofNat (by omega), if_pos hc]

/-- A text that passes the test is spelt byte by byte. -/
theorem exists_spell_of_isSpelling (hkept : KeepsWords kept) (h : isSpelling kept cs = true) :
    ∃ bs mark, (mark = [] ∨ mark = ['_']) ∧ cs = spell kept bs ++ mark := by
  fun_induction isSpelling kept cs with
  | case1 => exact ⟨[], [], .inl rfl, rfl⟩
  | case2 => exact ⟨[], ['_'], .inr rfl, rfl⟩
  | case3 kept rest ih =>
    obtain ⟨bs, mark, hmark, rfl⟩ := ih keepsWords_isWordChar h
    have hno : ¬ kept '_' = true := fun h => ne_underscore_of_isWordChar (hkept _ h) rfl
    have hbyte : spellByte kept 0x5F = ['_', '_'] := (if_neg hno).trans (if_pos rfl)
    exact ⟨0x5F :: bs, mark, hmark, by rw [spell, hbyte]; rfl⟩
  | case4 kept hi lo rest hhi b hb ih =>
    simp only [Bool.and_eq_true, Bool.not_eq_true', bne_iff_ne] at h
    obtain ⟨⟨hno, hne⟩, hrest⟩ := h
    obtain ⟨bs, mark, hmark, rfl⟩ := ih keepsWords_isWordChar hrest
    have hbyte : spellByte kept b = ['_', hi, lo] := by
      rw [spellByte, if_neg (by rw [hno]; decide), if_neg hne, escapedByte?_eq_some_iff.1 hb]
    exact ⟨b :: bs, mark, hmark, by rw [spell, hbyte]; rfl⟩
  | case5 => cases h
  | case6 kept c rest _ _ _ ih =>
    rw [Bool.and_eq_true] at h
    obtain ⟨bs, mark, hmark, rfl⟩ := ih keepsWords_isWordChar h.2
    exact ⟨_ :: bs, mark, hmark, by rw [spell, spellByte_of_kept hkept h.1]; rfl⟩

theorem isSpelling_iff (hkept : KeepsWords kept) : isSpelling kept cs = true ↔
    ∃ bs mark, (mark = [] ∨ mark = ['_']) ∧ cs = spell kept bs ++ mark := by
  refine ⟨exists_spell_of_isSpelling hkept, ?_⟩
  rintro ⟨bs, mark, hmark, rfl⟩
  exact isSpelling_spell hkept hmark bs

/-! ## Texts that are identifiers -/

theorem toNat_ofNat_of_lt : ∀ n < 128, (Char.ofNat n).toNat = n := by decide +kernel

theorem readAs_spellByte (hkept : KeepsWords kept) (b : UInt8) : ReadAs (spellByte kept b) [b] := by
  unfold spellByte
  split
  · next h =>
    have hlt : b.toNat < 128 := Nat.lt_of_not_le fun hle =>
      not_isWordChar_ofNat _ b.toNat_lt hle (hkept _ h)
    have hencode : String.utf8EncodeChar (Char.ofNat b.toNat) = [b] := by
      rw [utf8EncodeChar_of_lt (by rwa [toNat_ofNat_of_lt _ hlt]), toNat_ofNat_of_lt _ hlt,
        UInt8.ofNat_toNat]
    exact hencode ▸ readAs_of_isWordChar (hkept _ h)
  · split
    · next h => exact h ▸ readAs_underscores
    · exact readAs_escapeByte b

theorem readAs_spell (hkept : KeepsWords kept) (bs : List UInt8) : ReadAs (spell kept bs) bs := by
  induction bs generalizing kept with
  | nil => exact readAs_nil
  | cons b bs ih => exact (readAs_spellByte hkept b).append (ih keepsWords_isWordChar)

/-- What is spelt byte by byte is read back as those bytes. -/
theorem unescapeBytes_spell (hkept : KeepsWords kept) (hmark : mark = [] ∨ mark = ['_'])
    (bs : List UInt8) : unescapeBytes (bytesOf (spell kept bs ++ mark)) = some bs := by
  have hend : unescapeBytes (bytesOf mark) = some [] := by
    rcases hmark with rfl | rfl <;> rfl
  rw [bytesOf_append, readAs_spell hkept, hend, Option.map_some, List.append_nil]

theorem toUTF8_toList (text : String) : text.toUTF8.data.toList = bytesOf text.toList := by
  rw [← toUTF8_ofList, String.ofList_toList]

/-- The text that some bytes encode has these bytes. -/
theorem bytesOf_of_fromUTF8? {name : String} (h : String.fromUTF8? ⟨bs.toArray⟩ = some name) :
    bytesOf name.toList = bs := by
  unfold String.fromUTF8? at h
  split at h
  · obtain rfl := Option.some.inj h
    rw [← toUTF8_toList]
    rfl
  · cases h

/-- An identifier is the escaped characters of its name, or these before an underscore. -/
theorem exists_escape_eq {name text : String} (htext : text ≠ "")
    (hmark : mark = [] ∨ mark = ['_']) (h : text.toList = escapeChars name.toList ++ mark) :
    ∃ keywords, escape name keywords = text := by
  rcases hmark with rfl | rfl
  · have hname : unmarked name = text := by
      rw [unmarked, ← String.toList_inj, String.toList_ofList, h, List.append_nil]
    refine ⟨.empty, (escape_of_unreserved ?_).trans hname⟩
    simp [hname, htext, SortedSet.contains, SortedSet.empty]
  · refine ⟨.singleton (unmarked name), (escape_of_reserved (.inr ?_)).trans ?_⟩
    · simp [SortedSet.contains, SortedSet.singleton]
    · rw [← String.toList_inj, String.toList_push, unmarked, String.toList_ofList, h]

/-- The identifiers of a name are the texts that are read back as the name and are spelt like
    identifiers. -/
theorem exists_escape_eq_iff {name text : String} :
    (∃ keywords, escape name keywords = text) ↔
      unescape text = some name ∧ isSpelt text = true := by
  rw [isSpelt, Bool.and_eq_true, bne_iff_ne, isSpelling_iff keepsWords_isAlpha]
  constructor
  · rintro ⟨keywords, rfl⟩
    obtain ⟨mark, hmark, hescape⟩ := escape_eq name keywords
    refine ⟨unescape_escape name keywords, escape_ne_empty name keywords,
      bytesOf name.toList, mark, hmark, ?_⟩
    rw [hescape, String.toList_ofList, escapeChars_eq_spell]
  · rintro ⟨hread, htext, bs, mark, hmark, hspell⟩
    rw [unescape, toUTF8_toList, hspell, unescapeBytes_spell keepsWords_isAlpha hmark] at hread
    rw [← bytesOf_of_fromUTF8? hread, ← escapeChars_eq_spell] at hspell
    exact exists_escape_eq htext hmark hspell

/-- Capital digits are read like small ones, but no name is written with them. -/
theorem unescape_capitalDigit : unescape "x_2Drate" = some "x-rate" ∧
    ∀ name keywords, escape name keywords ≠ "x_2Drate" := by
  refine ⟨by decide, fun name keywords h => ?_⟩
  exact absurd (exists_escape_eq_iff.1 ⟨keywords, h⟩).2 (by decide)

-- a plus sign, the escape of a letter, a digit at the start and the empty text are accepted as well
example : ["_+f", "x_61", "2a", ""].all (fun text => (unescape text).isSome && !isSpelt text) := by
  decide

end ApiModel.Identifier
