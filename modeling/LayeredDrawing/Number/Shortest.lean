import LayeredDrawing.Number.Formats

/-!
# Shortest decimals

`Decimal.shortest` writes a binary floating-point number with the fewest significant digits
that still read back as that number. The reals that round to a number form an interval, which
contains its ends when the mantissa is even. For one digit, two digits and so on, the two
decimals next to the number on that grid are tried; the first grid with a hit wins, and of two
hits the nearer one is taken. `Tie` says what happens when both are equally near.

A decimal without trailing zeros determines its digits and its exponent, so
`Decimal.normalize` gives the form that is printed.
-/

namespace LayeredDrawing

open Float.Model (Format)

/-- The decimal number `significand * 10 ^ exponent`. -/
structure Decimal where
  significand : Nat
  exponent : Int
  deriving DecidableEq, Repr

/-- The choice between two equally near decimals. -/
inductive Tie
  /-- The one with the even last digit. -/
  | toEven
  /-- The greater one. -/
  | up
  deriving DecidableEq, Repr

namespace Decimal

/-! ## Digits -/

/-- The decimal digits of a number, leading digit first. -/
def digits (n : Nat) : List Char :=
  Nat.toDigits 10 n

/-- The decimal with the trailing zeros of its significand moved into the exponent; zero has
no digits to keep. -/
def normalize (d : Decimal) : Decimal :=
  let zeros := (digits d.significand).reverse.takeWhile (· == '0')
  if d.significand = 0 then ⟨0, 0⟩
  else ⟨d.significand / Nat.pow 10 zeros.length, d.exponent + zeros.length⟩

/-- The exponent of the leading digit. -/
def leadingExponent (d : Decimal) : Int :=
  d.exponent + (digits d.significand).length - 1

/-! ## The interval of a number -/

/-- An interval of nonnegative rationals around a value, with the common denominator `unit`;
`closed` tells whether the ends belong to it. -/
structure Interval where
  low : Nat
  value : Nat
  high : Nat
  unit : Nat
  closed : Bool

namespace Interval

/-- The rationals that round to `mantissa * 2 ^ exponent`. Below the least mantissa of a
binade the numbers lie twice as dense, so the lower half-gap is only half as wide there. -/
def around (format : Format) (mantissa : Nat) (exponent : Int) : Interval :=
  let narrow := mantissa == Nat.pow 2 (format.mantissaBits - 1) && format.minExponent < exponent
  let scale := Nat.pow 2 (exponent - 2).toNat
  { low := (4 * mantissa - (if narrow then 1 else 2)) * scale
    value := 4 * mantissa * scale
    high := (4 * mantissa + 2) * scale
    unit := Nat.pow 2 (2 - exponent).toNat
    closed := mantissa % 2 == 0 }

/-- Membership of the rational `n / unit` in an interval scaled by `scale`. -/
def contains (i : Interval) (scale n : Nat) : Bool :=
  if i.closed then i.low * scale ≤ n && n ≤ i.high * scale
  else i.low * scale < n && n < i.high * scale

/-- The number of digits before the point, counted negative for zeros right after it. -/
def magnitude (i : Interval) : Int :=
  let d : Int := (digits i.value).length - (digits i.unit).length
  if i.unit * Nat.pow 10 d.toNat ≤ i.value * Nat.pow 10 (-d).toNat then d + 1 else d

/-- The decimal on the grid of multiples of `10 ^ exponent` that lies in the interval and is
nearest to its value, if there is one. -/
def onGrid (tie : Tie) (i : Interval) (exponent : Int) : Option Decimal :=
  let scale := Nat.pow 10 (-exponent).toNat
  let step := i.unit * Nat.pow 10 exponent.toNat
  let below := i.value * scale / step
  let nearer :=
    match compare (2 * (i.value * scale)) ((2 * below + 1) * step), tie with
    | .lt, _ => below
    | .gt, _ => below + 1
    | .eq, .toEven => below + below % 2
    | .eq, .up => below + 1
  match i.contains scale (below * step), i.contains scale ((below + 1) * step) with
  | true, true => some ⟨nearer, exponent⟩
  | true, false => some ⟨below, exponent⟩
  | false, true => some ⟨below + 1, exponent⟩
  | false, false => none

end Interval

/-! ## The shortest decimal -/

/-- The decimal with the fewest digits that rounds to `mantissa * 2 ^ exponent`. Any number of
a format with at most 53 mantissa bits is reached with seventeen digits. -/
def shortest (tie : Tie) (format : Format) (mantissa : Nat) (exponent : Int) : Decimal :=
  let interval := Interval.around format mantissa exponent
  let top := interval.magnitude
  let found := (List.range 17).findSome? fun (n : Nat) => interval.onGrid tie (top - (n + 1))
  normalize (found.getD ⟨0, 0⟩)

end Decimal

end LayeredDrawing
