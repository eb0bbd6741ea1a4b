import OnePass.Number.Numeral
import OnePass.Token.Kind

/-!
# OnePass.Token.Basic

Tokens: a kind, the text it was read from, and where that text stands. Positions
and lengths count bytes of the UTF-8 form, lines count from 1.

The value of a literal is not stored. `Token.contents` and `Token.number?` read it
from the text when it is needed.
-/

namespace OnePass

/-- A piece of source text with its kind and place. -/
structure Token where
  kind : TokenKind
  /-- The text itself; a message if the kind is `error`. -/
  lexeme : String
  /-- Where the text starts. -/
  offset : Nat
  line : Nat
  deriving DecidableEq, Repr, Inhabited

namespace Token

/-- How many bytes of the source a token covers. A message covers none. -/
def size (t : Token) : Nat :=
  if t.kind = .error then 0 else t.lexeme.utf8ByteSize

def isEmpty (t : Token) : Bool := t.size == 0

/-! ### Literals -/

/-- A text without its first and its last byte; nothing if they are one byte, or
not both characters of their own. -/
def unquote : List Char → List Char
  | [] => []
  | first :: rest =>
    match rest.getLast? with
    | none => []
    | some last => if first.utf8Size = 1 ∧ last.utf8Size = 1 then rest.dropLast else []

/-- What stands between the quotes of a string literal. -/
def contents (t : Token) : String := String.ofList (unquote t.lexeme.toList)

/-- The number that a number literal stands for. -/
def number? (t : Token) : Option Binary64 := Binary64.ofText? t.lexeme

/-! ### Display -/

/-- Beyond this many units a whole number is displayed by its shortest digits. -/
def exactLimit : Nat := Nat.pow 2 63 * Binary64.one

/-- The value of a number literal as tokens show it: a whole number has one zero
after the point, and never a sign if it is zero. -/
def numberText (x : Binary64) : String :=
  if x.isIntegral ∧ x.units < exactLimit then
    (if x.units = 0 then "0" else x.integerText) ++ ".0"
  else x.text

/-- The value of a token as it is shown: `null` unless it is a literal. -/
def valueText (t : Token) : String :=
  match t.kind with
  | .string => t.contents
  | .number => numberText (t.number?.getD .zero)
  | _ => "null"

/-- Kind, text and value. -/
def display (t : Token) : String :=
  s!"{t.kind.name} {t.lexeme} {t.valueText}"

/-! ### Quotes -/

@[simp] theorem unquote_quoted (body : List Char) :
    unquote ('"' :: (body ++ ['"'])) = body := by
  simp [unquote, show '"'.utf8Size = 1 from rfl]

end Token

end OnePass
