import OnePass.Grammar.Operator
import OnePass.Parser.Cursor
import OnePass.Parser.Emit

/-!
# OnePass.Parser.Expression

Expressions, compiled by precedence climbing. An expression of level `min` is an
opening, which is all up to the first operator, followed by operators of `min` or
tighter with their right operands. The right operand of an operator is one level
tighter than the operator, which groups to the left.

The functions that need expressions inside expressions get the way to compile one,
`operand`, as an argument. `parseLevel` ties the knot: it counts down the levels of
nesting that are still allowed.
-/

namespace OnePass

namespace Parser

/-! ### Variables -/

/-- What a variable's name refers to. -/
inductive Place where
  | slot (slot : UInt8)
  | global (index : UInt8)
  deriving DecidableEq, Repr

/-- The instruction that reads a place. -/
def Place.emitGet (place : Place) (p : Parser) : Parser :=
  match place with
  | .slot i => p.emitWith .getLocal i
  | .global i => p.emitWith .getGlobal i

/-- The instruction that writes a place. -/
def Place.emitSet (place : Place) (p : Parser) : Parser :=
  match place with
  | .slot i => p.emitWith .setLocal i
  | .global i => p.emitWith .setGlobal i

/-- What a name refers to: a local if there is one of that name, else a global,
whose name becomes a constant. -/
def place (p : Parser) (name : Token) : Place × Parser :=
  match p.resolveLocal name with
  | some slot => (.slot slot, p)
  | none =>
    let made := p.nameConstant name
    (.global made.1, made.2)

/-- A variable whose name has just been taken, or an assignment to it. The name is
looked up before the right-hand side is compiled. -/
def variableUse (operand : Precedence → Parser → Parser) (canAssign : Bool) (p : Parser) :
    Parser :=
  let found := p.place p.previous
  if canAssign && found.2.check .equal then
    found.1.emitSet (operand .assignment found.2.advance)
  else found.1.emitGet found.2

/-! ### Literals -/

/-- A number whose token has just been taken. -/
def number (p : Parser) : Parser :=
  match p.previous.number? with
  | some x => p.emitConstant (.number x)
  | none => p.error .numberInvalid

/-- A string whose token has just been taken. -/
def string (p : Parser) : Parser :=
  let made := p.makeText p.previous.contents
  made.2.emitWith .constant made.1

/-! ### Climbing -/

/-- What starts an expression, its first token having just been taken. -/
def opening (operand : Precedence → Parser → Parser) (canAssign : Bool) (p : Parser) :
    Opening → Parser
  | .group => (operand .assignment p).consume .rightParen .closingParenMissing
  | .unary op => (operand .unary p).emit op.code
  | .word literal => p.emit literal.code
  | .number => p.number
  | .string => p.string
  | .variable => variableUse operand canAssign p

/-- The operators of a level or tighter that follow, with their right operands. Each
takes a token, so `fuel` is the number of tokens that are left. -/
def operators (operand : Precedence → Parser → Parser) (min : Precedence) :
    (fuel : Nat) → Parser → Parser
  | 0, p => p
  | fuel + 1, p =>
    match p.current.kind.binary? with
    | none => p
    | some op =>
      if op.precedence < min then p
      else operators operand min fuel ((operand op.precedence.next p.advance).emitAll op.code)

/-- An `=` that no variable has taken stands behind something that cannot be
assigned to. -/
def rejectTarget (canAssign : Bool) (p : Parser) : Parser :=
  if canAssign && p.check .equal then p.advance.error .targetInvalid else p

/-- An expression of a level. The first token is taken even if no expression can
start with it. -/
def climb (operand : Precedence → Parser → Parser) (min : Precedence) (p : Parser) : Parser :=
  let p := p.advance
  match p.previous.kind.opening? with
  | none => p.error .expressionMissing
  | some first =>
    let p := opening operand min.allowsAssignment p first
    rejectTarget min.allowsAssignment (operators operand min p.tokensLeft p)

/-- The most expressions that may be open inside each other. -/
def maxNesting : Nat := 256

/-- An expression of a level, in which as many expressions can be nested as the
first argument says. Beyond `maxNesting` of them none is started. -/
def parseLevel : Nat → Precedence → Parser → Parser
  | 0, _, p => p.error .nestingTooDeep
  | more + 1, min, p =>
    if maxNesting ≤ p.nesting then p.error .nestingTooDeep
    else
      let p := climb (parseLevel more) min { p with nesting := p.nesting + 1 }
      { p with nesting := p.nesting - 1 }

/-- An expression whose outermost operator binds at least as tightly as `min`. -/
def parsePrecedence (min : Precedence) (p : Parser) : Parser := parseLevel maxNesting min p

/-- An expression of any kind. -/
def expression (p : Parser) : Parser := p.parsePrecedence .assignment

end Parser

end OnePass
