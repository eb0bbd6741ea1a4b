import OnePass.Lexical.Source
import OnePass.Parser.Statement

/-!
# OnePass.Compile

From source text to a chunk. The code of a unit with errors is dropped; what is
kept of it are the reports, and the texts that it stored.
-/

namespace OnePass

/-- The failure of a compilation. -/
structure CompileError where
  diagnostics : List Diagnostic
  deriving DecidableEq, Repr

/-- A failure in one line. -/
def CompileError.message (e : CompileError) : String :=
  s!"compilation failed with {e.diagnostics.length} error(s)"

/-- The state in which a source has been read to the end of a unit. -/
def Parser.ofSource (unit : UnitKind) (source : String) (strings : Interner) : Parser :=
  (Parser.start (.ofSource source) strings).run unit

/-- What a finished compilation comes to. -/
def Parser.result (p : Parser) : Except CompileError Chunk :=
  if p.hadError then .error ⟨p.diagnostics⟩ else .ok p.chunk

/-- Compile a source. Its texts are added to those of `strings`. -/
def compileUnit (unit : UnitKind) (source : String) (strings : Interner) :
    Except CompileError Chunk × Interner :=
  let p := Parser.ofSource unit source strings
  (p.result, p.strings)

/-- Compile a program. -/
def compile (source : String) (strings : Interner) : Except CompileError Chunk × Interner :=
  compileUnit .program source strings

/-- Compile a source that is a single expression. -/
def compileExpression (source : String) (strings : Interner) :
    Except CompileError Chunk × Interner :=
  compileUnit .expression source strings

end OnePass
