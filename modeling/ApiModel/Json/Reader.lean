/-
  ApiModel.Json.Reader

  Reading a document from JSON text. The rules record says what separates tokens, what a number
  token denotes, how a text literal is read, which keys are recognized, and how deeply containers
  may nest, so that the same reader serves texts that are read as JSON and JSON texts that are read
  as YAML. A repeated key keeps its first place and its last value.
-/
import ApiModel.Json.Token

namespace ApiModel.Json

/-- The rules that a text is read under. -/
structure Rules where
  /-- The characters that may stand between tokens. -/
  blank : Char → Bool
  /-- The value of a number token with this text. -/
  number : NumberToken → String → Except Malformed Json
  /-- The text literal whose opening quotation mark has been read, and the rest. -/
  literal : List Char → Except Malformed (String × List Char)
  /-- Whether the text literal whose opening quotation mark has been read may be a key. -/
  key : List Char → Bool
  /-- How many containers may be open at once. -/
  depth : Nat

/-- A text without the blanks at its start. -/
def skipBlanks (rules : Rules) (cs : List Char) : List Char := cs.dropWhile rules.blank

/-- The blanks of JSON: blank, tab, line feed, and carriage return. -/
def isJsonBlank (c : Char) : Bool := c == ' ' || c == '\t' || c == '\n' || c == '\r'

/-- The value of a hexadecimal digit. -/
def hexDigit? (c : Char) : Option Nat :=
  if '0' ≤ c ∧ c ≤ '9' then some (c.toNat - '0'.toNat)
  else if 'a' ≤ c ∧ c ≤ 'f' then some (c.toNat - 'a'.toNat + 10)
  else if 'A' ≤ c ∧ c ≤ 'F' then some (c.toNat - 'A'.toNat + 10)
  else none

/-- The value of four hexadecimal digits. -/
def hex4? (a b c d : Char) : Option Nat := do
  return (((← hexDigit? a) * 16 + (← hexDigit? b)) * 16 + (← hexDigit? c)) * 16 + (← hexDigit? d)

/-- The character of a two-character escape. -/
def shortEscape? (c : Char) : Option Char :=
  match c with
  | '"' => some '"'
  | '\\' => some '\\'
  | '/' => some '/'
  | 'b' => some '\x08'
  | 'f' => some '\x0c'
  | 'n' => some '\n'
  | 'r' => some '\r'
  | 't' => some '\t'
  | _ => none

/-- The rest of a text literal after its opening quotation mark; `done` holds the characters read,
    the last one first. Two escaped halves of a surrogate pair make one character. -/
def readText (done : List Char) : List Char → Except Malformed (String × List Char)
  | [] => .error .unfinished
  | '"' :: rest => .ok (String.ofList done.reverse, rest)
  | '\\' :: 'u' :: a :: b :: c :: d :: '\\' :: 'u' :: a' :: b' :: c' :: d' :: rest =>
    match hex4? a b c d, hex4? a' b' c' d' with
    | none, _ => .error (.unexpected 'u')
    | some hi, lo? =>
      if 0xD800 ≤ hi && hi ≤ 0xDBFF then
        match lo? with
        | some lo =>
          if 0xDC00 ≤ lo && lo ≤ 0xDFFF then
            let c := Char.ofNat (0x10000 + (hi - 0xD800) * 0x400 + (lo - 0xDC00))
            readText (c :: done) rest
          else .error .loneSurrogate
        | none => .error (.unexpected 'u')
      else if 0xDC00 ≤ hi && hi ≤ 0xDFFF then .error .loneSurrogate
      -- the second escape has no part in the first: it is read again on its own
      else readText (Char.ofNat hi :: done) ('\\' :: 'u' :: a' :: b' :: c' :: d' :: rest)
  | '\\' :: 'u' :: a :: b :: c :: d :: rest =>
    match hex4? a b c d with
    | none => .error (.unexpected 'u')
    | some n =>
      if 0xD800 ≤ n && n ≤ 0xDFFF then .error .loneSurrogate
      else readText (Char.ofNat n :: done) rest
  | ['\\'] => .error .unfinished
  | '\\' :: c :: rest =>
    match shortEscape? c with
    | some e => readText (e :: done) rest
    | none => .error (.unexpected c)
  | c :: rest => if c < ' ' then .error (.unexpected c) else readText (c :: done) rest

/-- Texts read as JSON. Every text literal may be a key. -/
def Rules.json : Rules :=
  ⟨isJsonBlank, fun t _ => t.jsonValue, readText [], fun _ => true, 127⟩

/-- The text without an expected word at its start. -/
def expect : List Char → List Char → Except Malformed (List Char)
  | [], cs => .ok cs
  | _ :: _, [] => .error .unfinished
  | w :: ws, c :: cs => if w == c then expect ws cs else .error (.unexpected c)

/-- The part of a text that was read when `rest` is left of it. -/
def consumed (source rest : List Char) : String :=
  String.ofList (source.take (source.length - rest.length))

mutual

/-- The value at the start of a text, and the rest. The first number bounds the calls: each takes at
    least every second time a character away, so twice the length of the text is enough. The second
    is the number of containers that may still be opened. -/
def readValue (rules : Rules) : Nat → Nat → List Char → Except Malformed (Json × List Char)
  | 0, _, _ => .error .unfinished
  | calls + 1, depth, cs =>
    match skipBlanks rules cs with
    | [] => .error .unfinished
    | 'n' :: rest => do .ok (.null, ← expect ['u', 'l', 'l'] rest)
    | 't' :: rest => do .ok (.bool true, ← expect ['r', 'u', 'e'] rest)
    | 'f' :: rest => do .ok (.bool false, ← expect ['a', 'l', 's', 'e'] rest)
    | '"' :: rest => do
      let (s, rest) ← rules.literal rest
      .ok (.str s, rest)
    | '[' :: rest =>
      match depth with
      | 0 => .error .tooDeep
      | depth + 1 =>
        match skipBlanks rules rest with
        | ']' :: rest => .ok (.arr [], rest)
        | rest => readItems rules calls depth [] rest
    | '\x7b' :: rest =>
      match depth with
      | 0 => .error .tooDeep
      | depth + 1 =>
        match skipBlanks rules rest with
        | '\x7d' :: rest => .ok (.obj [], rest)
        | rest => readFields rules calls depth [] rest
    -- the rules decide what a number denotes; here only its token is cut out
    | c :: rest =>
      if c == '-' || c.isDigit then do
        let (token, after) ← readNumberToken (c :: rest)
        .ok (← rules.number token (consumed (c :: rest) after), after)
      else .error (.unexpected c)

/-- The items of an array from one item on, and the rest after the closing bracket. -/
def readItems (rules : Rules) :
    Nat → Nat → List Json → List Char → Except Malformed (Json × List Char)
  | 0, _, _, _ => .error .unfinished
  | calls + 1, depth, done, cs => do
    let (item, rest) ← readValue rules calls depth cs
    match skipBlanks rules rest with
    | ',' :: rest => readItems rules calls depth (item :: done) rest
    | ']' :: rest => .ok (.arr (item :: done).reverse, rest)
    | c :: _ => .error (.unexpected c)
    | [] => .error .unfinished

/-- The fields of an object from one key on, and the rest after the closing brace. -/
def readFields (rules : Rules) :
    Nat → Nat → List (String × Json) → List Char → Except Malformed (Json × List Char)
  | 0, _, _, _ => .error .unfinished
  | calls + 1, depth, done, cs => do
    match skipBlanks rules cs with
    | '"' :: rest =>
      if !rules.key rest then throw .keyOutOfReach
      let (key, rest) ← rules.literal rest
      match skipBlanks rules rest with
      | ':' :: rest =>
        let (value, rest) ← readValue rules calls depth rest
        match skipBlanks rules rest with
        | ',' :: rest => readFields rules calls depth ((key, value) :: done) rest
        -- a repeated key keeps its first place and takes its last value
        | '\x7d' :: rest => .ok (.obj (Dict.ofList ((key, value) :: done).reverse).entries, rest)
        | c :: _ => .error (.unexpected c)
        | [] => .error .unfinished
      | c :: _ => .error (.unexpected c)
      | [] => .error .unfinished
    | c :: _ => .error (.unexpected c)
    | [] => .error .unfinished

end

/-- The document that a whole text writes. -/
def read (rules : Rules) (text : String) : Except Malformed Json := do
  let cs := text.toList
  let (value, rest) ← readValue rules (2 * cs.length + 2) rules.depth cs
  match skipBlanks rules rest with
  | [] => .ok value
  | c :: _ => .error (.trailing c)

end ApiModel.Json
