import OnePass.Parser.Expression

/-!
# OnePass.Parser.Call

The operations of the parser as data, so that a sequence of them can be run and
spoken about.
-/

namespace OnePass.Parser

/-- An operation with its arguments. -/
inductive Call where
  | advance
  | consume (kind : TokenKind) (message : String)
  | check (kind : TokenKind)
  | accept (kind : TokenKind)
  | expression
  | parsePrecedence (min : Precedence)
  | beginScope
  | endScope
  | declareLocal (name : Token)
  | resolveLocal (name : Token)
  | nameConstant (name : Token)
  | emit (op : OpCode)
  | emitTwo (first second : OpCode)
  | emitWith (op : OpCode) (operand : UInt8)
  | emitConstant (value : Value)
  | makeConstant (value : Value)
  | error (kind : ErrorKind) (message : String)
  | errorAtCurrent (kind : ErrorKind) (message : String)
  | recover
  deriving DecidableEq, Repr

/-- What an operation gives besides the new state. -/
inductive Reply where
  | none
  | flag (value : Bool)
  | count (value : Nat)
  | operand (value : Option UInt8)
  deriving DecidableEq, Repr

/-- Carry out an operation. -/
def perform (p : Parser) : Call → Reply × Parser
  | .advance => (.none, p.advance)
  | .consume kind message => (.none, p.consume kind (.stated .syntactic message))
  | .check kind => (.flag (p.check kind), p)
  | .accept kind => let r := p.accept kind; (.flag r.1, r.2)
  | .expression => (.none, p.expression)
  | .parsePrecedence min => (.none, p.parsePrecedence min)
  | .beginScope => (.none, p.beginScope)
  | .endScope => let r := p.endScope; (.count r.1, r.2)
  | .declareLocal name => let r := p.declareLocal name; (.flag r.1, r.2)
  | .resolveLocal name => (.operand (p.resolveLocal name), p)
  | .nameConstant name => let r := p.nameConstant name; (.operand r.1, r.2)
  | .emit op => (.none, p.emit op)
  | .emitTwo first second => (.none, p.emitAll [first, second])
  | .emitWith op operand => (.none, p.emitWith op operand)
  | .emitConstant value => (.none, p.emitConstant value)
  | .makeConstant value => let r := p.makeConstant value; (.operand r.1, r.2)
  | .error kind message => (.none, p.error (.stated kind message))
  | .errorAtCurrent kind message => (.none, p.errorAtCurrent (.stated kind message))
  | .recover => let r := p.recover; (.flag r.1, r.2)

/-- Carry out operations one after the other. -/
def performAll (p : Parser) (calls : List Call) : Parser :=
  calls.foldl (fun q call => (q.perform call).2) p

end OnePass.Parser
