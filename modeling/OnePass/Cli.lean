import OnePass.Chunk.Listing
import OnePass.Compile
import OnePass.Text.Json
import OnePass.Text.Quoted
import OnePass.Text.Utf8

/-!
# OnePass.Cli

The command line as a function: from the options and what reading the source file
came to, to the exit code and the two outputs.

Results go to the standard output, as text or as JSON. Errors in the source are
told by exit code 65, a file that cannot be read by exit code 1.
-/

namespace OnePass.Cli

/-! ### Options -/

/-- What to do with the file. -/
inductive Command where
  | tokenize
  | compile
  | expr
  deriving DecidableEq, Repr

/-- The command of a given name. -/
def Command.ofName? : String → Option Command
  | "tokenize" => some .tokenize
  | "compile" => some .compile
  | "expr" => some .expr
  | _ => none

structure Options where
  command : Command
  fileName : String
  /-- Print JSON instead of text. -/
  json : Bool
  /-- Keep a log of the run in a file. -/
  log : Bool
  deriving DecidableEq, Repr

/-- How the program is called. -/
def usage : String := "usage: onepass (tokenize | compile | expr) FILE [--json] [--log]"

/-- The options of a list of arguments: a command and a file name in this order, and
switches anywhere. -/
def Options.ofArgs? (args : List String) : Option Options :=
  let switches := ["--json", "--log"]
  match args.filter (· ∉ switches) with
  | [command, fileName] =>
    (Command.ofName? command).map fun command =>
      ⟨command, fileName, args.contains "--json", args.contains "--log"⟩
  | _ => none

/-! ### The source file -/

/-- Why a file has no bytes to give: the cause in the words of the system. -/
structure Unreadable where
  cause : String
  deriving DecidableEq, Repr

def Unreadable.missing : Unreadable := ⟨"No such file or directory (os error 2)"⟩

/-- Why a file is no source text. -/
inductive FileError where
  | unreadable (reason : Unreadable)
  | notText (fault : Utf8.Fault)
  deriving DecidableEq, Repr

/-- What failed, and below it why. -/
def FileError.report (fileName : String) (e : FileError) : String :=
  let name := Quoted.quote fileName
  let (context, cause) := match e with
    | .unreadable reason => (s!"Failed to open file {name}", reason.cause)
    | .notText fault => (s!"File {name} is not valid UTF-8", fault.message)
  s!"Error: {context}\n\nCaused by:\n    {cause}\n"

/-- The source text in a file. -/
def readSource (file : Except Unreadable (List UInt8)) : Except FileError String :=
  match file with
  | .error reason => .error (.unreadable reason)
  | .ok bytes => (Utf8.decode bytes).mapError .notText

/-! ### Output -/

def tokenJson (t : Token) : Json :=
  .object [("token_type", .text t.kind.name), ("lexeme", .text t.lexeme),
    ("offset", .number t.offset), ("line", .number t.line)]

def instructionJson (i : Instruction) : Json :=
  .object [("offset", .number i.offset), ("line", .number i.line), ("op", .text i.op.name),
    ("operand", (i.operand.map fun operand => .number operand.toNat).getD .null)]

def locationJson : Location → Json
  | .atLexeme lexeme => .object [("At", .text lexeme)]
  | .atEnd => .text "End"
  | .unknown => .text "Unknown"

def diagnosticJson (d : Diagnostic) : Json :=
  .object [("kind", .text d.kind.name), ("line", .number d.line),
    ("location", locationJson d.location), ("message", .text d.message)]

/-- Lines of text, each with its line break. -/
def lines (texts : List String) : String := String.join (texts.map (· ++ "\n"))

/-- Documents as a JSON list in indented form. -/
def jsonList (items : List Json) : String := lines [(Json.list items).pretty]

/-- What a run leaves behind. -/
structure Outcome where
  exit : UInt32
  stdout : String
  stderr : String
  deriving DecidableEq, Repr

def exitSuccess : UInt32 := 0

def exitUnreadable : UInt32 := 1

/-- The source has errors. -/
def exitFaulty : UInt32 := 65

/-! ### Commands -/

/-- List the tokens of a source. Error tokens are told apart from the others, except
in JSON, where they stand in the list as well. -/
def runTokenize (json : Bool) (source : String) : Outcome :=
  let tokens := OnePass.tokenize source
  let errors := tokens.filter (·.kind = .error)
  { exit := if errors.isEmpty then exitSuccess else exitFaulty
    stdout :=
      if json then jsonList (tokens.map tokenJson)
      else lines ((tokens.filter (·.kind ≠ .error)).map Token.display)
    stderr := lines (errors.map fun t => s!"[line {t.line}] Error: {t.lexeme}") }

/-- Compile a source and list its code, or its errors. -/
def runCompile (unit : UnitKind) (name : String) (json : Bool) (source : String) : Outcome :=
  let (result, strings) := compileUnit unit source .empty
  match result with
  | .ok chunk =>
    { exit := exitSuccess
      stdout :=
        if json then jsonList (chunk.instructions.map instructionJson)
        else chunk.listing strings name
      stderr := "" }
  | .error e =>
    if json then ⟨exitFaulty, jsonList (e.diagnostics.map diagnosticJson), ""⟩
    else ⟨exitFaulty, "", lines (e.diagnostics.map Diagnostic.display)⟩

/-- Carry out a command on a source file. -/
def run (options : Options) (file : Except Unreadable (List UInt8)) : Outcome :=
  match readSource file with
  | .error e => ⟨exitUnreadable, "", e.report options.fileName⟩
  | .ok source =>
    match options.command with
    | .tokenize => runTokenize options.json source
    | .compile => runCompile .program options.fileName options.json source
    | .expr => runCompile .expression options.fileName options.json source

end OnePass.Cli
