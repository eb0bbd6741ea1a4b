/-!
# OnePass.Number.Binary64

Numbers in the 64-bit binary floating-point format, held as their bit pattern.

Below the sign bit the patterns run through the finite values in increasing
order, then infinity, then the patterns that are not a number. This number is
the *magnitude* of a value. A finite value is a whole number of *units* of
`2^-1074`, the smallest positive value, so comparisons and roundings of values
are exact arithmetic on `Nat`.
-/

namespace OnePass

/-- A number in the 64-bit binary format. -/
structure Binary64 where
  bits : UInt64
  deriving DecidableEq, Repr, Inhabited

namespace Binary64

/-- The magnitude of infinity. -/
def infinityMagnitude : Nat := 0x7ff0000000000000

/-- The pattern without its sign bit. -/
def magnitude (x : Binary64) : Nat := x.bits.toNat % Nat.pow 2 63

def isNegative (x : Binary64) : Bool := Nat.pow 2 63 ≤ x.bits.toNat

def isFinite (x : Binary64) : Bool := x.magnitude < infinityMagnitude

def isNaN (x : Binary64) : Bool := infinityMagnitude < x.magnitude

/-- The number with a given sign and magnitude. -/
def ofMagnitude (negative : Bool) (magnitude : Nat) : Binary64 :=
  ⟨UInt64.ofNat ((if negative then Nat.pow 2 63 else 0) + magnitude)⟩

def zero : Binary64 := ofMagnitude false 0

def infinity (negative : Bool) : Binary64 := ofMagnitude negative infinityMagnitude

def nan : Binary64 := ofMagnitude false 0x7ff8000000000000

/-! ### Units -/

/-- The value of a finite magnitude, in units of `2^-1074`: the low 52 bits of a
magnitude are a fraction, those above an exponent, and from exponent 1 on the
fraction has a leading bit that is not stored. -/
def unitsOf (magnitude : Nat) : Nat :=
  let exponent := magnitude / Nat.pow 2 52
  let fraction := magnitude % Nat.pow 2 52
  if exponent = 0 then fraction else (Nat.pow 2 52 + fraction) * Nat.pow 2 (exponent - 1)

/-- How many units make up 1. -/
def one : Nat := Nat.pow 2 1074

/-- The absolute value of a finite number, in units. -/
def units (x : Binary64) : Nat := unitsOf x.magnitude

/-- Finite and without a fractional part. -/
def isIntegral (x : Binary64) : Bool := x.isFinite && x.units % one == 0

/-- The whole part of the absolute value of a finite number. -/
def wholePart (x : Binary64) : Nat := x.units / one

/-! ### Equality of values -/

/-- Equality of the numbers that two patterns stand for: a pattern that is not a
number equals nothing, and the two zeros are equal. -/
def same (x y : Binary64) : Bool :=
  !x.isNaN && !y.isNaN && (x == y || (x.magnitude == 0 && y.magnitude == 0))

theorem same_comm (x y : Binary64) : x.same y = y.same x := by
  rw [same, same, Bool.and_comm (!x.isNaN), BEq.comm, Bool.and_comm (x.magnitude == 0)]

/-! ### Rounding -/

/-- The quotient rounded to the nearest whole number, a half to the even one. -/
def roundHalfEven (num den : Nat) : Nat :=
  let quotient := num / den
  let twice := 2 * (num % den)
  if twice < den then quotient
  else if den < twice then quotient + 1
  else quotient + quotient % 2

/-- The magnitude nearest to `num / den` units, ties to the even one. From
`2^53` units on, consecutive magnitudes are `2^shift` units apart, and each
doubling of that distance is one step of the exponent. -/
def nearestMagnitude (num den : Nat) : Nat :=
  let shift := (num / den).log2 - 52
  min (roundHalfEven num (den * Nat.pow 2 shift) + shift * Nat.pow 2 52) infinityMagnitude

end Binary64

end OnePass
