import OnePass.Chunk.Basic
import OnePass.Parser.Scope
import OnePass.Token.Stream

/-!
# OnePass.Parser.State

The state of a compilation in one pass. Tokens are read from a stream through a
window of two, `previous` and `current`; code is written while they are read, and
no tree is built. Every parser operation is a function from states to states.

Errors do not end a compilation. The first one makes the parser panic, which keeps
the ones that follow from it out of the reports, until `recover` ends the panic.
-/

namespace OnePass

/-- Whether errors are reported. -/
inductive Mode where
  | normal
  /-- An error has been reported and not yet been recovered from. -/
  | panicking
  deriving DecidableEq, Repr, Inhabited

/-- The state of a compilation. -/
structure Parser where
  /-- The tokens behind `current`. -/
  stream : TokenStream
  /-- The token to be looked at next. -/
  current : Token
  /-- The token that was taken last. -/
  previous : Token
  chunk : Chunk
  strings : Interner
  /-- The reports so far, in order. -/
  diagnostics : List Diagnostic
  scope : Scope
  /-- How many expressions are open inside each other. -/
  nesting : Nat
  /-- Whether there has been an error, reported or not. -/
  hadError : Bool
  mode : Mode
  deriving DecidableEq, Repr, Inhabited

namespace Parser

/-! ### Errors -/

def isPanicking (p : Parser) : Bool := p.mode = .panicking

/-- Note a problem at a token, and report it unless the parser is panicking. -/
def errorAt (p : Parser) (t : Token) (problem : Problem) : Parser :=
  match p.mode with
  | .panicking => { p with hadError := true }
  | .normal =>
    { p with
      hadError := true
      mode := .panicking
      diagnostics := p.diagnostics ++ [.ofProblem problem t] }

/-- A problem at the token that was taken last. -/
def error (p : Parser) (problem : Problem) : Parser := p.errorAt p.previous problem

/-- A problem at the token to be looked at next. -/
def errorAtCurrent (p : Parser) (problem : Problem) : Parser := p.errorAt p.current problem

/-- End the panic. Also tells whether there was one. -/
def recover (p : Parser) : Bool × Parser := (p.isPanicking, { p with mode := .normal })

/-! ### What an error changes

Reports, mode and `hadError`; the window, the code and the scope stay. -/

@[simp] theorem errorAt_stream (p : Parser) (t : Token) (problem : Problem) :
    (p.errorAt t problem).stream = p.stream := by
  unfold errorAt; split <;> rfl

@[simp] theorem errorAt_current (p : Parser) (t : Token) (problem : Problem) :
    (p.errorAt t problem).current = p.current := by
  unfold errorAt; split <;> rfl

@[simp] theorem errorAt_previous (p : Parser) (t : Token) (problem : Problem) :
    (p.errorAt t problem).previous = p.previous := by
  unfold errorAt; split <;> rfl

@[simp] theorem errorAt_chunk (p : Parser) (t : Token) (problem : Problem) :
    (p.errorAt t problem).chunk = p.chunk := by
  unfold errorAt; split <;> rfl

@[simp] theorem errorAt_strings (p : Parser) (t : Token) (problem : Problem) :
    (p.errorAt t problem).strings = p.strings := by
  unfold errorAt; split <;> rfl

@[simp] theorem errorAt_scope (p : Parser) (t : Token) (problem : Problem) :
    (p.errorAt t problem).scope = p.scope := by
  unfold errorAt; split <;> rfl

@[simp] theorem errorAt_nesting (p : Parser) (t : Token) (problem : Problem) :
    (p.errorAt t problem).nesting = p.nesting := by
  unfold errorAt; split <;> rfl

@[simp] theorem errorAt_hadError (p : Parser) (t : Token) (problem : Problem) :
    (p.errorAt t problem).hadError = true := by
  unfold errorAt; split <;> rfl

@[simp] theorem errorAt_mode (p : Parser) (t : Token) (problem : Problem) :
    (p.errorAt t problem).mode = .panicking := by
  unfold errorAt; split
  · assumption
  · rfl

/-- Only an error outside a panic is reported. -/
theorem errorAt_diagnostics (p : Parser) (t : Token) (problem : Problem) :
    (p.errorAt t problem).diagnostics
      = p.diagnostics ++ if p.isPanicking then [] else [.ofProblem problem t] := by
  unfold errorAt isPanicking; split <;> simp [*]

end Parser

end OnePass
