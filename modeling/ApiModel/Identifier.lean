/-
  ApiModel.Identifier

  Identifiers for arbitrary names. ASCII letters and digits stand for themselves, except a digit at
  the start; an underscore is doubled; every other character becomes `_hh` for each of its UTF-8
  bytes. A reserved word gets one trailing underscore, and so does the empty name. The way back is
  `unescape`, which reads bytes: what it accepts it returns as text.
-/
import ApiModel.SortedSet
import ApiModel.Text.Pieces
import ApiModel.Text.Uppercase

namespace ApiModel.Identifier

/-- Words that the usual client languages reserve. -/
def reservedWords : List String :=
  ["and", "as", "assert", "async", "await", "break", "class", "const", "continue", "crate",
   "def", "del", "elif", "else", "enum", "except", "extern", "false", "False", "finally", "fn",
   "for", "from", "global", "if", "impl", "import", "in", "is", "lambda", "let", "loop",
   "match", "mod", "move", "mut", "None", "nonlocal", "not", "or", "pass", "pub", "raise",
   "ref", "return", "self", "Self", "static", "struct", "super", "trait", "true", "True", "try",
   "type", "unsafe", "use", "where", "while", "with", "yield"]

/-- The reserved words together with further ones. -/
def keywords (extra : List String) : SortedSet String :=
  .ofList (reservedWords ++ extra)

/-! ## Escaping -/

/-- ASCII letters and digits. -/
def isWordChar (c : Char) : Bool := c.isAlpha || c.isDigit

/-- A byte as an underscore and two lower-case hexadecimal digits. -/
def escapeByte (b : UInt8) : List Char :=
  ['_', Nat.digitChar (b.toNat / 16), Nat.digitChar (b.toNat % 16)]

/-- A character by the bytes that encode it. -/
def escapeBytes (c : Char) : List Char := (String.utf8EncodeChar c).flatMap escapeByte

/-- A character after the first. -/
def escapeChar (c : Char) : List Char :=
  if isWordChar c then [c] else if c = '_' then ['_', '_'] else escapeBytes c

/-- The first character: a digit cannot stand there. -/
def escapeFirst (c : Char) : List Char := if c.isDigit then escapeBytes c else escapeChar c

/-- All characters of a name. -/
def escapeChars : List Char → List Char
  | [] => []
  | c :: rest => escapeFirst c ++ rest.flatMap escapeChar

/-- The identifier of a name: its characters escaped, with an underscore after a reserved word or
    after nothing. -/
def escape (name : String) (keywords : SortedSet String) : String :=
  let out := String.ofList (escapeChars name.toList)
  -- a lone underscore at the end is no escape, so the way back can tell the mark
  if out.isEmpty || keywords.contains out then out.push '_' else out

/-! ## The way back -/

/-- The value of a hexadecimal digit given as a byte. -/
def hexValue? (b : UInt8) : Option UInt8 :=
  if 0x30 ≤ b ∧ b ≤ 0x39 then some (b - 0x30)
  else if 0x61 ≤ b ∧ b ≤ 0x66 then some (b - 0x61 + 10)
  else if 0x41 ≤ b ∧ b ≤ 0x46 then some (b - 0x41 + 10)
  else none

/-- The byte that two characters write in hexadecimal; a plus sign may stand for a leading zero. -/
def hexByte? (hi lo : UInt8) : Option UInt8 :=
  -- a plus sign is `0x2B`
  if hi = 0x2B then hexValue? lo else do return 16 * (← hexValue? hi) + (← hexValue? lo)

/-- The bytes of the name behind the bytes of an identifier: a lone underscore at the end is the
    mark of a reserved word, and an underscore elsewhere starts an escape. -/
def unescapeBytes : List UInt8 → Option (List UInt8)
  | [] => some []
  | [b] => if b = 0x5F then some [] else some [b]
  | b :: c :: rest =>
    if b ≠ 0x5F then do return b :: (← unescapeBytes (c :: rest))
    else if c = 0x5F then do return 0x5F :: (← unescapeBytes rest)
    else
      match rest with
      | [] => none
      | d :: rest => do return (← hexByte? c d) :: (← unescapeBytes rest)

/-- The name behind an identifier; none when the text is no identifier of any name. -/
def unescape (identifier : String) : Option String := do
  let bytes ← unescapeBytes identifier.toUTF8.data.toList
  String.fromUTF8? ⟨bytes.toArray⟩

/-! ## Capitalised names -/

/-- The characters that separate the words of a name. -/
def isSeparator (c : Char) : Bool := c == '_' || c == '-' || c == ' ' || c == '.'

/-- A word with its first character in upper case. -/
def capitalize : List Char → List Char
  | [] => []
  | c :: rest => Text.uppercase c ++ rest

/-- The words of a name, capitalised and joined: `pet_owner` gives `PetOwner`. -/
def pascalCase (name : String) : String :=
  String.ofList ((Text.pieces isSeparator name.toList).flatMap capitalize)

end ApiModel.Identifier
