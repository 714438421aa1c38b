/-
  ApiModel.CommandLine

  The command line, as a function from what was asked and what the files hold to what is printed.
  `inspect` builds the model of a description and summarizes it, or prints it whole; `schema` shows
  the type of one schema with its classes. A failure is one line that says what was attempted and,
  below it, the cause.
-/
import ApiModel.Client.Build

namespace ApiModel.CommandLine

/-- How a description is written. -/
inductive Format where
  | json
  | yaml
  deriving DecidableEq

/-- The format that a word names. -/
def Format.ofName? : String → Option Format
  | "json" => some .json
  | "yaml" => some .yaml
  | _ => none

/-- The word for a format in messages. -/
def Format.name : Format → String
  | json => "JSON"
  | yaml => "YAML"

/-- A file that was asked for: its path, and its text if it can be read. -/
structure File where
  path : String
  text : Option String

/-- What was asked. -/
inductive Command where
  /-- Summarize the model, or print it whole. -/
  | inspect (json : Bool) (verbose : Bool)
  /-- Show the type of the schema at a pointer. -/
  | schema (pointer : String)

/-- A call of the program. -/
structure Invocation where
  command : Command
  spec : File
  format : Option Format
  config : Option File

/-- What a call of the program prints, and its exit code. -/
structure Outcome where
  code : Nat
  stdout : String
  stderr : String

/-- Why a call fails: what was attempted, and the cause if it has a text of its own. -/
structure Trouble where
  attempt : String
  cause : Option String

/-! ## Reading files -/

/-- The extension of a file name: what follows its last dot, unless that dot is its first character.
    -/
def extension? (path : String) : Option String :=
  -- dots in the names of directories do not count
  let name := (path.toList.reverse.takeWhile (· != '/')).reverse
  match (name.drop 1).reverse.span (· != '.') with
  | (ending, '.' :: _) => some (String.ofList ending.reverse)
  | _ => none

/-- The format of a description: by its file extension, or else JSON when its first character that
    is not blank is an opening brace. -/
def detectFormat (path text : String) : Format :=
  match extension? path with
  | some "json" => .json
  | some "yaml" | some "yml" => .yaml
  | _ =>
    match Text.trimStart text.toList with
    | '\x7b' :: _ => .json
    | _ => .yaml

/-- The wording of the cause for which a text is no document. -/
def describe : Malformed → String
  | .unfinished => "the text ends too early"
  | .unexpected c => "unexpected " ++ Text.quoted (String.ofList [c])
  | .loneSurrogate => "half of a surrogate pair"
  | .numberRange => "number out of range"
  | .tooDeep => "recursion limit exceeded"
  | .keyOutOfReach => "a key without its colon"
  | .trailing c => "trailing " ++ Text.quoted (String.ofList [c])

/-- The description that a file holds. -/
def readDocument (file : File) (format : Option Format) : Except Trouble Json := do
  let some text := file.text
    | throw ⟨"Failed to read " ++ file.path, some "the file cannot be read"⟩
  let format := format.getD (detectFormat file.path text)
  let parsed := match format with
    | .json => Json.read .json text
    | .yaml => Json.readYaml text
  match parsed with
  -- the format is part of what was attempted, so it is known before the text is read
  | .error m =>
    throw ⟨"Failed to parse " ++ file.path ++ " as " ++ format.name, some (describe m)⟩
  | .ok document =>
    if document.fields?.isSome then return document
    else throw ⟨file.path ++ " does not contain an OpenAPI object", none⟩

/-- The settings that a file holds; the usual ones without a file. -/
def readConfig : Option File → Except Trouble Config
  | none => return .standard
  | some file =>
    match file.text.bind Config.read? with
    | some config => return config
    | none => throw ⟨"Failed to load config " ++ file.path, some "the settings cannot be read"⟩

/-! ## Summaries -/

/-- Lines, each ended. -/
def lines (ls : List String) : String := String.join (ls.map (· ++ "\n"))

/-- The lines for one operation. -/
def operationLines (verbose : Bool) (op : Client.Operation) : List String :=
  let head := "  • " ++ op.name ++ " " ++ op.method.name ++ " " ++ op.path ++ " -> " ++
    op.returnType.render
  if !verbose then [head]
  else
    head :: op.parameters.map (fun p => "      " ++ p.name ++ ": " ++ p.type.render) ++
      (op.requestBody.map fun b =>
        "      body (" ++ b.mediaType ++ "): " ++ b.type.render).toList

/-- The lines for the classes of one module. -/
def moduleLines (verbose : Bool) (path : String) (classes : List Client.Class) : List String :=
  let head := "  • " ++ path ++ " (" ++ Text.decimal classes.length ++ " classes)"
  if !verbose then [head]
  else
    head :: classes.map fun c =>
      "      " ++ c.name.name ++ " [" ++ Text.decimal c.fields.length ++ " fields]"

/-- The summary of a model. -/
def summary (m : Client.Model) (verbose : Bool) : String :=
  lines (
    ["", "✓ Build successful!", "", "Client:",
      "  Title: " ++ m.title,
      "  Version: " ++ m.version,
      "  Base URL: " ++ m.init.baseUrl.getD "(none)",
      "  Operations: " ++ Text.decimal m.operations.length,
      "  Classes: " ++ Text.decimal m.classCount,
      "  Security schemes: " ++ Text.decimal m.securitySchemes.length,
      "", "Operations:"] ++
    m.operations.flatMap (operationLines verbose) ++
    ["", "Modules:"] ++
    m.modules.entries.flatMap (fun e => moduleLines verbose e.1 e.2) ++
    (if m.warnings.isEmpty then []
      else ["", "Warnings:"] ++ m.warnings.map fun w => "  ! " ++ w.message))

/-- The lines for one class. -/
def classLines (c : Client.Class) : List String :=
  ["", c.name.render] ++ c.fields.map fun f =>
    "  " ++ f.name ++ " (" ++ f.wireName ++ "): " ++ f.type.render

/-! ## Commands -/

/-- The cause of a failed computation. -/
def failureText : Failure → String
  | .fault f => f.message
  | .exhausted => "the schemas recurse without end"

/-- Build the model of a description and print it. -/
def inspect (spec : File) (document : Json) (config : Config) (json verbose : Bool) :
    Except Trouble String :=
  match Client.build document config with
  | .error e =>
    throw ⟨"Failed to build client model for " ++ spec.path, some (failureText e)⟩
  | .ok m => return if json then m.toJson.pretty "" ++ "\n" else summary m verbose

/-- Show the type of a schema, the classes it reaches, and the warnings. -/
def showSchema (document : Json) (config : Config) (pointer : String) :
    Except Trouble String := do
  let some p := Pointer.parse? pointer
    | throw ⟨"Invalid pointer", some (Fault.unresolved pointer).message⟩
  let naming := Naming.escaping config.extraKeywords
  match (Session.typeAt document Client.ampleCalls naming p true).run .empty with
  | (.error e, _) =>
    throw ⟨"Failed to resolve schema at " ++ p.render, some (failureText e)⟩
  | (.ok type, s) =>
    let head := match type with
      | some t => "✓ " ++ t.render
      | none => "✗ " ++ p.render ++ " can never match"
    return lines (head :: s.classes.values.flatMap classLines ++
      s.warnings.map fun w => "! " ++ w.message)

/-- A cause below its attempt, indented. -/
def renderTrouble (t : Trouble) : String :=
  let cause := match t.cause with
    | none => ""
    | some text =>
      "\n\nCaused by:\n    " ++
        String.ofList (Text.replaceAll ['\n'] "\n    ".toList text.toList)
  "Error: " ++ t.attempt ++ cause ++ "\n"

/-- What a call of the program prints. -/
def run (call : Invocation) : Outcome :=
  let result : Except Trouble String := do
    -- the description is read before the settings, and both before the pointer
    let document ← readDocument call.spec call.format
    let config ← readConfig call.config
    match call.command with
    | .inspect json verbose => inspect call.spec document config json verbose
    | .schema pointer => showSchema document config pointer
  match result with
  | .ok out => ⟨0, out, ""⟩
  | .error t => ⟨1, "", renderTrouble t⟩

/-! ## Arguments -/

/-- The options of a call, as they are given. -/
structure Options where
  spec : Option String
  format : Option Format
  config : Option String
  pointer : Option String
  json : Bool
  verbose : Bool

/-- Read options in any order; none when an option is unknown or lacks its value. -/
def readOptions (o : Options) : List String → Option Options
  | [] => some o
  | "--json" :: rest => readOptions { o with json := true } rest
  | "--verbose" :: rest => readOptions { o with verbose := true } rest
  | "-v" :: rest => readOptions { o with verbose := true } rest
  | "--spec" :: v :: rest => readOptions { o with spec := some v } rest
  | "-s" :: v :: rest => readOptions { o with spec := some v } rest
  | "--config" :: v :: rest => readOptions { o with config := some v } rest
  | "-c" :: v :: rest => readOptions { o with config := some v } rest
  | "--pointer" :: v :: rest => readOptions { o with pointer := some v } rest
  | "-p" :: v :: rest => readOptions { o with pointer := some v } rest
  | "--format" :: v :: rest => do readOptions { o with format := some (← Format.ofName? v) } rest
  | "-f" :: v :: rest => do readOptions { o with format := some (← Format.ofName? v) } rest
  | _ => none

/-- What was asked, before any file is read: the command, the path of the description, its format,
    and the path of the settings. -/
def readArguments : List String → Option (Command × String × Option Format × Option String)
  | command :: rest => do
    let o ← readOptions ⟨none, none, none, none, false, false⟩ rest
    let spec ← o.spec
    match command with
    | "inspect" => return (.inspect o.json o.verbose, spec, o.format, o.config)
    | "schema" => return (.schema (← o.pointer), spec, o.format, o.config)
    | _ => none
  | [] => none

end ApiModel.CommandLine
