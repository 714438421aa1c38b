/-
  ApiModel.Json.Writer

  Writing a document as JSON text: compactly, without any blank, and indented by two blanks a level.
  A text escapes its quotation marks, backslashes and the controls below the blank; everything else
  stands for itself.
-/
import ApiModel.Json
import ApiModel.Binary64.Layout
import ApiModel.Text.Natural

namespace ApiModel.Json

/-- One character inside a text literal. -/
def escapeChar (c : Char) : List Char :=
  if c == '"' then ['\\', '"']
  else if c == '\\' then ['\\', '\\']
  else if c == '\x08' then ['\\', 'b']
  else if c == '\x0c' then ['\\', 'f']
  else if c == '\n' then ['\\', 'n']
  else if c == '\r' then ['\\', 'r']
  else if c == '\t' then ['\\', 't']
  else if c < ' ' then
    ['\\', 'u', '0', '0', Nat.digitChar (c.toNat / 16), Nat.digitChar (c.toNat % 16)]
  else [c]

/-- A text literal. -/
def writeText (s : String) : String :=
  "\"" ++ String.ofList (s.toList.flatMap escapeChar) ++ "\""

/-- A number. -/
def writeNumber : Number → String
  | .int n => if n < 0 then "-" ++ Text.decimal n.natAbs else Text.decimal n.natAbs
  | .float x => x.render .json

mutual

/-- The compact text of a document. -/
def write : Json → String
  | .null => "null"
  | .bool true => "true"
  | .bool false => "false"
  | .num n => writeNumber n
  | .str s => writeText s
  | .arr xs => "[" ++ ",".intercalate (writeItems xs) ++ "]"
  | .obj fs => "\x7b" ++ ",".intercalate (writeFields fs) ++ "\x7d"

/-- The compact texts of the items. -/
def writeItems : List Json → List String
  | [] => []
  | x :: xs => write x :: writeItems xs

/-- The compact texts of the fields. -/
def writeFields : List (String × Json) → List String
  | [] => []
  | (k, v) :: fs => (writeText k ++ ":" ++ write v) :: writeFields fs

end

/-- Pieces between brackets, one a line, indented below `indent`. -/
def block (opening closing : String) (indent : String) (pieces : List String) : String :=
  if pieces.isEmpty then opening ++ closing
  else
    let inner := indent ++ "  "
    opening ++ "\n" ++ ",\n".intercalate (pieces.map (inner ++ ·)) ++ "\n" ++ indent ++ closing

mutual

/-- The indented text of a document, its first line at its place. -/
def pretty (indent : String) : Json → String
  | .arr xs => block "[" "]" indent (prettyItems (indent ++ "  ") xs)
  | .obj fs => block "\x7b" "\x7d" indent (prettyFields (indent ++ "  ") fs)
  | v => write v

/-- The indented texts of the items. -/
def prettyItems (indent : String) : List Json → List String
  | [] => []
  | x :: xs => pretty indent x :: prettyItems indent xs

/-- The indented texts of the fields. -/
def prettyFields (indent : String) : List (String × Json) → List String
  | [] => []
  | (k, v) :: fs => (writeText k ++ ": " ++ pretty indent v) :: prettyFields indent fs

end

end ApiModel.Json
