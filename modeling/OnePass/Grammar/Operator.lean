import OnePass.Chunk.OpCode
import OnePass.Grammar.Precedence
import OnePass.Token.Kind

/-!
# OnePass.Grammar.Operator

The part that a token kind can play in an expression. `TokenKind.opening?` says what
a token starts, `TokenKind.binary?` which operator it is between two operands. The
instructions of an operator come after those of its operands.
-/

namespace OnePass

/-! ### Operators -/

/-- Operators between two operands. -/
inductive BinaryOp where
  | equal | notEqual | greater | greaterEqual | less | lessEqual
  | add | subtract | multiply | divide
  deriving DecidableEq, Repr

namespace BinaryOp

def precedence : BinaryOp → Precedence
  | .equal | .notEqual => .equality
  | .greater | .greaterEqual | .less | .lessEqual => .comparison
  | .add | .subtract => .term
  | .multiply | .divide => .factor

/-- The instructions of an operator. Three comparisons have none of their own and
negate the opposite one. -/
def code : BinaryOp → List OpCode
  | .equal => [.equal]
  | .notEqual => [.equal, .not]
  | .greater => [.greater]
  | .greaterEqual => [.less, .not]
  | .less => [.less]
  | .lessEqual => [.greater, .not]
  | .add => [.add]
  | .subtract => [.subtract]
  | .multiply => [.multiply]
  | .divide => [.divide]

end BinaryOp

/-- Operators before one operand. -/
inductive UnaryOp where
  | negate | not
  deriving DecidableEq, Repr

/-- The instruction of an operator. -/
def UnaryOp.code : UnaryOp → OpCode
  | .negate => .negate
  | .not => .not

/-- Literals that are a word. -/
inductive WordLiteral where
  | nil | true | false
  deriving DecidableEq, Repr

/-- The instruction of a literal. -/
def WordLiteral.code : WordLiteral → OpCode
  | .nil => .pushNil
  | .true => .pushTrue
  | .false => .pushFalse

/-! ### The part of a token -/

/-- What the first token of an expression starts. -/
inductive Opening where
  | group
  | unary (op : UnaryOp)
  | word (literal : WordLiteral)
  | number
  | string
  | variable
  deriving DecidableEq, Repr

namespace TokenKind

/-- What a token starts, if an expression can start with it. -/
def opening? : TokenKind → Option Opening
  | .leftParen => some .group
  | .minus => some (.unary .negate)
  | .bang => some (.unary .not)
  | .kwNil => some (.word .nil)
  | .kwTrue => some (.word .true)
  | .kwFalse => some (.word .false)
  | .number => some .number
  | .string => some .string
  | .identifier => some .variable
  | _ => none

/-- The operator that a token is after an operand. -/
def binary? : TokenKind → Option BinaryOp
  | .equalEqual => some .equal
  | .bangEqual => some .notEqual
  | .greater => some .greater
  | .greaterEqual => some .greaterEqual
  | .less => some .less
  | .lessEqual => some .lessEqual
  | .plus => some .add
  | .minus => some .subtract
  | .star => some .multiply
  | .slash => some .divide
  | _ => none

/-- The binding strength of a token after an operand. -/
def precedence (kind : TokenKind) : Precedence :=
  (kind.binary?.map BinaryOp.precedence).getD .none

/-- The words that start a statement, at which the parser can go on after an
error. -/
def startsStatement : TokenKind → Bool
  | .kwVar | .kwConst | .kwPrint | .kwIf | .kwWhile | .kwFor | .kwForeach | .kwDo
  | .kwReturn | .kwBreak | .kwContinue | .kwImport | .kwAssert => true
  | _ => false

end TokenKind

end OnePass
