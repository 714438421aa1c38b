/-
  ApiModel.Text.Quoted

  Text between quotation marks, as messages and rendered types show it: the mark and the backslash
  are escaped, line feed, carriage return, tab and the null character have letters, every other
  character without a glyph of its own is given by its number, and all else stands for itself.
-/
import ApiModel.Text.Printable

namespace ApiModel.Text

/-- One character inside the quotation marks. -/
def quotedChar (c : Char) : List Char :=
  if c == '\x00' then ['\\', '0']
  else if c == '\t' then ['\\', 't']
  else if c == '\r' then ['\\', 'r']
  else if c == '\n' then ['\\', 'n']
  else if c == '"' then ['\\', '"']
  else if c == '\\' then ['\\', '\\']
  else if isPrintable c then [c]
  else '\\' :: 'u' :: '\x7b' :: Nat.toDigits 16 c.toNat ++ ['\x7d']

/-- A text between quotation marks. -/
def quoted (s : String) : String :=
  String.ofList ('"' :: s.toList.flatMap quotedChar ++ ['"'])

end ApiModel.Text
