import OnePass.Number.Decimal

/-!
# OnePass.Number.Numeral

Numerals: the texts that are read as numbers. A numeral is an optional sign
before a decimal, with an optional fraction and an optional exponent, or before
one of the words `inf`, `infinity` and `nan` in any letter case. Nothing else is
one, blanks included.
-/

namespace OnePass

/-- What a numeral says, before it is rounded to a binary number. -/
inductive Numeral where
  | decimal (negative : Bool) (value : Decimal)
  | infinity (negative : Bool)
  | nan
  deriving DecidableEq, Repr

namespace Numeral

/-! ### Digits -/

/-- The value of a row of decimal digits. -/
def digitsValue (digits : List Char) : Nat :=
  digits.foldl (fun n c => 10 * n + (c.toNat - '0'.toNat)) 0

/-- A leading `+` or `-`, and what follows: whether it was `-`, and the rest. -/
def splitSign : List Char → Bool × List Char
  | '-' :: rest => (true, rest)
  | '+' :: rest => (false, rest)
  | rest => (false, rest)

/-! ### Reading -/

/-- The exponent part: nothing, or `e` or `E` before a whole number that may have
a sign and has at least one digit. -/
def readExponent? : List Char → Option Int
  | [] => some 0
  | mark :: rest =>
    let (negative, digits) := splitSign rest
    if (mark = 'e' ∨ mark = 'E') ∧ digits ≠ [] ∧ digits.all Char.isDigit then
      let size : Int := digitsValue digits
      some (if negative then -size else size)
    else none

/-- What follows the whole digits: the digits of a fraction, after a point that
may stand without any, and the rest. -/
def splitFraction : List Char → List Char × List Char
  | '.' :: rest => (rest.takeWhile Char.isDigit, rest.dropWhile Char.isDigit)
  | rest => ([], rest)

/-- A decimal without a sign. There is a digit before or after the point. -/
def readDecimal? (chars : List Char) : Option Decimal :=
  let whole := chars.takeWhile Char.isDigit
  let (fraction, rest) := splitFraction (chars.dropWhile Char.isDigit)
  if whole = [] ∧ fraction = [] then none
  else (readExponent? rest).map fun exponent =>
    ⟨digitsValue (whole ++ fraction), exponent - fraction.length⟩

/-- The numeral that a text spells, if it spells one. -/
def read? (chars : List Char) : Option Numeral :=
  let (negative, body) := splitSign chars
  match String.ofList (body.map Char.toLower) with
  | "inf" => some (.infinity negative)
  | "infinity" => some (.infinity negative)
  | "nan" => some .nan
  | _ => (readDecimal? body).map (.decimal negative)

/-- The binary number nearest to what a numeral says. -/
def value : Numeral → Binary64
  | .decimal negative d => .ofMagnitude negative d.nearest
  | .infinity negative => .infinity negative
  | .nan => .nan

end Numeral

/-- The number that a text spells, rounded to the binary format. -/
def Binary64.ofText? (text : String) : Option Binary64 :=
  (Numeral.read? text.toList).map Numeral.value

end OnePass
