import OnePass.Interner
import OnePass.Number.Decimal

/-!
# OnePass.Value

Constants of compiled code: numbers, and texts by their handle. The values `nil`,
`true` and `false` have instructions of their own and are no constants.
-/

namespace OnePass

/-- A constant. -/
inductive Value where
  | number (value : Binary64)
  | text (handle : Handle)
  deriving DecidableEq, Repr

namespace Value

/-- Equality of constants: of numbers by value, of texts by handle. -/
def same : Value → Value → Bool
  | .number x, .number y => x.same y
  | .text a, .text b => a == b
  | _, _ => false

theorem same_comm (v w : Value) : v.same w = w.same v := by
  cases v <;> cases w <;> simp only [same, Binary64.same_comm, Bool.beq_comm]

/-- The text of a number in a listing: whole numbers with all their digits. -/
def numberText (x : Binary64) : String :=
  if x.isIntegral then x.integerText else x.text

/-- The text of a constant in a listing. -/
def display (strings : Interner) : Value → String
  | .number x => numberText x
  | .text handle => strings.resolve handle

end Value

end OnePass
