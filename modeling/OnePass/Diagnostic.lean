import OnePass.Token.Basic

/-!
# OnePass.Diagnostic

What is wrong with a program, and the reports of it. A `Problem` is a cause, with
its kind and its wording; a `Diagnostic` is the report of a problem at a token.
-/

namespace OnePass

/-- Which rules of the language are violated. -/
inductive ErrorKind where
  /-- Source text that is no token. -/
  | lexical
  /-- A token that cannot stand where it does. -/
  | syntactic
  /-- A sentence of the grammar without a meaning, or beyond a limit. -/
  | semantic
  deriving DecidableEq, Repr

/-- The name under which a kind is printed. -/
def ErrorKind.name : ErrorKind → String
  | .lexical => "Lexical"
  | .syntactic => "Syntax"
  | .semantic => "Semantic"

/-! ### Problems -/

/-- A cause of failure. -/
inductive Problem where
  /-- A fault in the source, with the message of its error token. -/
  | unreadable (message : String)
  /-- No expression starts here. -/
  | expressionMissing
  /-- A group is not closed. -/
  | closingParenMissing
  /-- A number token whose text is no numeral. -/
  | numberInvalid
  /-- A declaration without a name. -/
  | variableNameMissing
  /-- A declaration without its semicolon. -/
  | declarationEndMissing
  /-- A print statement without its semicolon. -/
  | valueEndMissing
  /-- An expression statement without its semicolon. -/
  | expressionEndMissing
  /-- A block is not closed. -/
  | blockEndMissing
  /-- More input after a single expression. -/
  | inputEndMissing
  /-- An assignment to something that is not a variable. -/
  | targetInvalid
  /-- Too many expressions inside each other. -/
  | nestingTooDeep
  /-- A constant whose index does not fit an operand byte. -/
  | constantsExhausted
  /-- Two declarations of one name in one block. -/
  | nameTaken
  /-- A local whose slot does not fit an operand byte. -/
  | localsExhausted
  /-- A problem worded by the caller. -/
  | stated (kind : ErrorKind) (message : String)
  deriving DecidableEq, Repr

namespace Problem

def kind : Problem → ErrorKind
  | .unreadable _ => .lexical
  | .stated kind _ => kind
  | .targetInvalid | .nestingTooDeep | .constantsExhausted | .nameTaken
  | .localsExhausted => .semantic
  | _ => .syntactic

def message : Problem → String
  | .unreadable message => message
  | .expressionMissing => "Expected expression"
  | .closingParenMissing => "Expected ')' after expression"
  | .numberInvalid => "Invalid number literal"
  | .variableNameMissing => "Expected variable name"
  | .declarationEndMissing => "Expected ';' after variable declaration"
  | .valueEndMissing => "Expected ';' after value"
  | .expressionEndMissing => "Expected ';' after expression"
  | .blockEndMissing => "Expected '\x7d' after block"
  | .inputEndMissing => "Expected end of expression"
  | .targetInvalid => "Invalid assignment target"
  | .nestingTooDeep => "Expression nested too deeply"
  | .constantsExhausted => "Too many constants in one chunk"
  | .nameTaken => "A variable with this name was already declared in this scope"
  | .localsExhausted => "Too many local variables in scope"
  | .stated _ message => message

end Problem

/-! ### Reports -/

/-- Where on its line a problem was found. -/
inductive Location where
  | atLexeme (lexeme : String)
  | atEnd
  | unknown
  deriving DecidableEq, Repr

namespace Location

/-- The place that a token marks; an error token has no text to point to. -/
def ofToken (t : Token) : Location :=
  match t.kind with
  | .eof => .atEnd
  | .error => .unknown
  | _ => .atLexeme t.lexeme

/-- A location as it stands in a report. -/
def display : Location → String
  | .atLexeme lexeme => s!" at '{lexeme}'"
  | .atEnd => " at end"
  | .unknown => ""

end Location

/-- The report of a problem. -/
structure Diagnostic where
  kind : ErrorKind
  line : Nat
  location : Location
  message : String
  deriving DecidableEq, Repr

namespace Diagnostic

/-- The report of a problem at a token. -/
def ofProblem (problem : Problem) (t : Token) : Diagnostic :=
  ⟨problem.kind, t.line, .ofToken t, problem.message⟩

/-- A report in one line. -/
def display (d : Diagnostic) : String :=
  s!"[line {d.line}] Error{d.location.display}: {d.message}"

end Diagnostic

end OnePass
