import OnePass.Parser.Expression

/-!
# OnePass.Parser.Statement

Declarations and statements, and the two kinds of compilation unit.

After an error the parser goes on panicking to the end of the declaration, and then
skips tokens up to where a statement may start (`synchronize`). Every declaration
takes at least one token.
-/

namespace OnePass

/-- What a source is to contain. -/
inductive UnitKind where
  /-- Declarations up to the end. -/
  | program
  /-- One expression. -/
  | expression
  deriving DecidableEq, Repr

namespace Parser

/-! ### Recovery -/

/-- Whether the parser stands where a statement may start. -/
def atBoundary (p : Parser) : Bool :=
  p.check .eof || p.previous.kind = .semicolon || p.current.kind.startsStatement

/-- Skip tokens up to where a statement may start. -/
def skipToBoundary (p : Parser) : Parser :=
  if p.atBoundary then p else p.advance.skipToBoundary
termination_by p.tokensLeft
decreasing_by
  rename_i h
  exact p.tokensLeft_advance_lt fun heof => h (by simp [atBoundary, check, heof])

/-- Skip tokens up to where a statement may start, and end the panic there. -/
def synchronize (p : Parser) : Parser := p.skipToBoundary.recover.2

/-! ### Statements -/

/-- A variable declaration, behind its `var`. A local is in scope only after its
initializer; a global is defined under its name. -/
def varDeclaration (p : Parser) : Parser :=
  let p := p.consume .identifier .variableNameMissing
  let name := p.previous
  let p := if p.check .equal then p.advance.expression else p.emit .pushNil
  let p := p.consume .semicolon .declarationEndMissing
  if 0 < p.scope.depth then (p.declareLocal name).2
  else
    let made := p.nameConstant name
    made.2.emitWith .defineGlobal made.1

/-- A print statement, behind its `print`. -/
def printStatement (p : Parser) : Parser :=
  (p.expression.consume .semicolon .valueEndMissing).emit .print

/-- An expression as a statement. -/
def expressionStatement (p : Parser) : Parser :=
  (p.expression.consume .semicolon .expressionEndMissing).emit .pop

/-- A block, behind its opening brace. -/
def block (declarations : TokenKind → Parser → Parser) (p : Parser) : Parser :=
  ((declarations .rightBrace p.beginScope).consume .rightBrace .blockEndMissing).endScope.2

def statement (declarations : TokenKind → Parser → Parser) (p : Parser) : Parser :=
  if p.check .kwPrint then p.advance.printStatement
  else if p.check .leftBrace then block declarations p.advance
  else p.expressionStatement

/-- A variable declaration or a statement. -/
def declarationBody (declarations : TokenKind → Parser → Parser) (p : Parser) : Parser :=
  if p.check .kwVar then p.advance.varDeclaration else statement declarations p

/-- A declaration or statement, after which the parser is not panicking. -/
def declaration (declarations : TokenKind → Parser → Parser) (p : Parser) : Parser :=
  let q := declarationBody declarations p
  if q.isPanicking then q.synchronize else q

/-- Declarations up to a closing token or the end. Declarations and the blocks in
them take tokens, so `fuel` is more than the number of tokens that are left. -/
def declarations : (fuel : Nat) → (closing : TokenKind) → Parser → Parser
  | 0, _, p => p
  | fuel + 1, closing, p =>
    if p.check closing || p.check .eof then p
    else declarations fuel closing (declaration (declarations fuel) p)

/-! ### Units -/

/-- Declarations up to the end of the input. -/
def program (p : Parser) : Parser :=
  (declarations (p.tokensLeft + 1) .eof p).advance.emit .ret

/-- One expression that is the whole input. -/
def singleExpression (p : Parser) : Parser :=
  (p.expression.consume .eof .inputEndMissing).emit .ret

/-- Compile a unit. -/
def run : UnitKind → Parser → Parser
  | .program => program
  | .expression => singleExpression

end Parser

end OnePass
