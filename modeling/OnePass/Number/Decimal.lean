import OnePass.Number.Binary64

/-!
# OnePass.Number.Decimal

Decimal numbers `digits * 10^exponent`, how they are written in positional
notation, and their conversion to and from `Binary64`.

`Decimal.nearest` rounds a decimal to the nearest binary number.
`Binary64.shortest` goes back: of the decimals that round to a number, one with
the fewest digits, and of those the closest.
-/

namespace OnePass

/-- The number `digits * 10^exponent`. -/
structure Decimal where
  digits : Nat
  exponent : Int
  deriving DecidableEq, Repr, Inhabited

namespace Decimal

/-! ### Writing -/

/-- The decimal digits of a whole number, as characters. -/
def digitChars (n : Nat) : List Char := Nat.toDigits 10 n

/-- Positional notation, never with an exponent: zeros are added after the
digits of a whole number, and before those of a number below one tenth. -/
def positional (d : Decimal) : String :=
  let chars := digitChars d.digits
  match d.exponent with
  | .ofNat zeros => String.ofList (chars ++ List.replicate zeros '0')
  | .negSucc n =>
    let places := n + 1
    let padded := List.replicate (places + 1 - chars.length) '0' ++ chars
    let point := padded.length - places
    String.ofList (padded.take point ++ '.' :: padded.drop point)

/-! ### To binary -/

/-- The magnitude nearest to a decimal. Beyond the exponents of the format the
answer is infinity or zero whatever the digits, which keeps the powers of ten
small. -/
def nearest (d : Decimal) : Nat :=
  let size : Int := (digitChars d.digits).length + d.exponent
  if d.digits = 0 then 0
  else if 310 < size then Binary64.infinityMagnitude
  else if size < -330 then 0
  else match d.exponent with
    | .ofNat zeros => Binary64.nearestMagnitude (d.digits * Nat.pow 10 zeros * Binary64.one) 1
    | .negSucc n => Binary64.nearestMagnitude (d.digits * Binary64.one) (Nat.pow 10 (n + 1))

end Decimal

namespace Binary64

/-! ### From binary -/

/-- Every interval that rounds to one number is wider than `10^-324`, so no finer
grid of decimals is ever needed. -/
def finestGrid : Nat := 324

/-- What is compared with a point of a decimal grid: the value and the two
half-way points to its neighbours, all scaled to whole numbers, and whether the
half-way points still round to the value. -/
structure Interval where
  low : Nat
  value : Nat
  high : Nat
  closed : Bool

/-- The interval that rounds to a positive finite magnitude, in units of
`2^-1075 * 10^-324`. -/
def interval (magnitude : Nat) : Interval :=
  let here := unitsOf magnitude
  { low := (unitsOf (magnitude - 1) + here) * Nat.pow 10 finestGrid
    value := 2 * here * Nat.pow 10 finestGrid
    high := (here + unitsOf (magnitude + 1)) * Nat.pow 10 finestGrid
    closed := magnitude % 2 == 0 }

def Interval.contains (i : Interval) (point : Nat) : Bool :=
  if i.closed then i.low ≤ point && point ≤ i.high else i.low < point && point < i.high

/-- Of the two points of a grid around the value, the closer one that lies in the
interval; of two that are equally close, the upper. -/
def Interval.gridPoint? (i : Interval) (step : Nat) : Option Nat :=
  let below := i.value / step
  let above := below + 1
  match i.contains (below * step), i.contains (above * step) with
  | true, true =>
    if i.value - below * step < above * step - i.value then some below else some above
  | true, false => some below
  | false, true => some above
  | false, false => none

/-- The grid of multiples of `10^grid * 10^-324`, in the units of `interval`. -/
def gridStep (grid : Nat) : Nat := Nat.pow 10 grid * Nat.pow 2 1075

/-- The coarsest grid, from the given one down, with a point in the interval. -/
def Interval.shortestFrom (i : Interval) : Nat → Decimal
  | 0 => ⟨(i.gridPoint? (gridStep 0)).getD 0, -finestGrid⟩
  | grid + 1 =>
    match i.gridPoint? (gridStep (grid + 1)) with
    | some digits => ⟨digits, (grid + 1 : Nat) - (finestGrid : Int)⟩
    | none => i.shortestFrom grid

/-- The shortest decimal that rounds to a positive finite magnitude. -/
def shortest (magnitude : Nat) : Decimal :=
  let i := interval magnitude
  i.shortestFrom (Decimal.digitChars (i.value / gridStep 0)).length

/-- The sign as it is written. -/
def signText (x : Binary64) : String := if x.isNegative then "-" else ""

/-- The shortest text: whole numbers without a point, zero with its sign. -/
def text (x : Binary64) : String :=
  if x.isNaN then "NaN"
  else if !x.isFinite then x.signText ++ "inf"
  else if x.magnitude = 0 then x.signText ++ "0"
  else x.signText ++ (shortest x.magnitude).positional

/-- All digits of a number without a fractional part. -/
def integerText (x : Binary64) : String :=
  x.signText ++ String.ofList (Decimal.digitChars x.wholePart)

end Binary64

end OnePass
