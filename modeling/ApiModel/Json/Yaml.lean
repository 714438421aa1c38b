/-
  ApiModel.Json.Yaml

  JSON texts read as YAML. The values are those of JSON but for the number tokens, and so is the
  layout but for four rules: some characters are refused wherever they stand, line breaks inside a
  text literal are folded, a key and its colon stand close together on one line, and no tab stands
  where a line of its own could begin. A line breaks at a line feed, a carriage return, a next line
  character, and a line or paragraph separator.
-/
import ApiModel.Json.Reader

namespace ApiModel.Json

/-! ## Characters -/

/-- The characters that a text may hold: no controls but tab and line breaks, and none of the last
    two characters of the basic plane. -/
def isAllowed (c : Char) : Bool :=
  let n := c.toNat
  n == 0x9 || n == 0xA || n == 0xD || (0x20 ≤ n && n ≤ 0x7E) || n == 0x85 ||
    (0xA0 ≤ n && n ≤ 0xFFFD) || 0x10000 ≤ n

/-- Line and paragraph separators, which end a line and stay what they are. -/
def isSeparator (c : Char) : Bool := c == '\u2028' || c == '\u2029'

/-- The characters at which a line breaks. -/
def isBreak (c : Char) : Bool := c == '\n' || c == '\r' || c == '\u0085' || isSeparator c

/-- The blanks inside a line. -/
def isInline (c : Char) : Bool := c == ' ' || c == '\t'

/-- The characters that may stand between tokens, and that make up a gap in a text literal. -/
def isGap (c : Char) : Bool := isInline c || isBreak c

/-! ## Folding -/

/-- The line breaks of a gap, each as it stands in the value; a carriage return and the line feed
    after it are one. -/
def breaksOf : List Char → List Char
  | [] => []
  | '\r' :: '\n' :: rest => '\n' :: breaksOf rest
  | c :: rest =>
    if isBreak c then (if isSeparator c then c else '\n') :: breaksOf rest else breaksOf rest

/-- What a gap of blanks and line breaks inside a text literal stands for. Blanks beside a line
    break count for nothing. One line break is a blank, and with more of them the first is left out;
    separators are kept. -/
def fold (gap : List Char) : List Char :=
  match breaksOf gap with
  | [] => gap
  | ['\n'] => [' ']
  | '\n' :: more => more
  | breaks => breaks

/-- Characters read so far and then a gap, all of them the last one first. -/
def withGap (gap done : List Char) : List Char := (fold gap.reverse).reverse ++ done

/-- Whether a text starts with the mark of a document's start or end. -/
def startsWithMark : List Char → Bool
  | a :: b :: c :: rest =>
    (a == '-' || a == '.') && b == a && c == a &&
      rest.head?.all isGap
  | _ => false

/-- The rest of a text literal after its opening quotation mark. `done` holds the characters read,
    and `gap` the blanks and line breaks after them, the last one first. Escaped blanks and line
    breaks are not folded, and escaped surrogates are not joined. -/
def readFolded (gap done : List Char) : List Char → Except Malformed (String × List Char)
  | [] => .error .unfinished
  | '"' :: rest => .ok (String.ofList (withGap gap done).reverse, rest)
  | '\\' :: 'u' :: a :: b :: c :: d :: rest =>
    match hex4? a b c d with
    | none => .error (.unexpected 'u')
    | some n =>
      if 0xD800 ≤ n && n ≤ 0xDFFF then .error .loneSurrogate
      else readFolded [] (Char.ofNat n :: withGap gap done) rest
  | ['\\'] => .error .unfinished
  | '\\' :: c :: rest =>
    match shortEscape? c with
    | some e => readFolded [] (e :: withGap gap done) rest
    | none => .error (.unexpected c)
  | c :: rest =>
    if isGap c then readFolded (c :: gap) done rest
    -- a document cannot start or end inside a text literal
    else if gap.head?.any isBreak && startsWithMark (c :: rest) then .error (.unexpected c)
    else readFolded [] (c :: withGap gap done) rest

/-! ## Keys and tabs -/

/-- Whether the text literal whose opening quotation mark has been read ends, and a colon follows,
    on the same line and with at most `room` bytes of UTF-8 before the colon. -/
def colonWithin (room : Nat) : List Char → Bool
  | [] => false
  | '"' :: rest =>
    let blanks := rest.takeWhile isInline
    blanks.length < room && (rest.drop blanks.length).head? == some ':'
  | '\\' :: _ :: rest => colonWithin (room - 2) rest
  | c :: rest => !isBreak c && colonWithin (room - c.utf8Size) rest

/-- JSON texts read as YAML. A key takes at most 1024 bytes of UTF-8 up to its colon, the first of
    them the opening quotation mark. -/
def Rules.yaml : Rules :=
  ⟨isGap, NumberToken.yamlValue, readFolded [] [], colonWithin 1023, 128⟩

/-- Whether a value is written as a text literal or with brackets. -/
def isDelimited : List Char → Bool
  | c :: _ => c == '"' || c == '[' || c == '\x7b'
  | [] => false

/-- Whether tabs stand only where blanks may stand before and after the value of a text. No tab
    comes before it, and after a delimited value none comes on a later line. -/
def tabsInPlace (body : List Char) : Bool :=
  let after := (body.reverse.takeWhile isGap).reverse
  body.head? != some '\t' && !(isDelimited body && (after.dropWhile isInline).contains '\t')

/-- The document that a JSON text read as YAML writes: a byte order mark is passed over, and a text
    with nothing in it is null. -/
def readYaml (text : String) : Except Malformed Json := do
  let cs := match text.toList with
    | '\uFEFF' :: rest => rest
    | cs => cs
  match cs.find? fun c => !isAllowed c with
  | some c => .error (.unexpected c)
  | none =>
    let body := cs.dropWhile fun c => c == ' ' || isBreak c
    if body.isEmpty then .ok .null
    else if !tabsInPlace body then .error (.unexpected '\t')
    else read .yaml (String.ofList body)

end ApiModel.Json
