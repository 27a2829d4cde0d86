import LayeredDrawing.Number.Formats
import LayeredDrawing.Number.Text
import LayeredDrawing.Json.Token

/-!
# Numbers in a document

A number of a document is an integer of at most 64 bits or a floating-point number. Integers
are exact. For any other number the digits are gathered into a 64-bit significand as long as
they fit, the rest only counts for the exponent, and the double-precision significand is then
multiplied or divided by a power of ten. This is fast and exact for short decimals, and may be
off by a unit in the last place for long ones (`Gathered.toDouble?`).
-/

namespace LayeredDrawing.Json

/-- A number of a document. -/
inductive Number
  /-- An integer without a sign. -/
  | natural (n : Nat)
  /-- The negative of a positive integer. -/
  | negative (n : Nat)
  /-- A double-precision number. -/
  | double (x : Float)
  /-- A single-precision number, of a coordinate or a size. -/
  | single (x : Float32)
  deriving BEq, Repr

/-! ## Reading -/

/-- The significand and the exponent gathered from the digits of a number. -/
structure Gathered where
  significand : Nat
  exponent : Int
  deriving Repr

namespace Gathered

/-- The least number that does not fit into the 64 bits of a significand. -/
def limit : Nat := 0x10000000000000000

/-- The digits before the point: once a digit does not fit, it and all that follow only raise
the exponent. -/
def whole (g : Gathered) : List Char → Gathered
  | [] => g
  | d :: ds =>
    let next := g.significand * 10 + (d.toNat - '0'.toNat)
    if next < limit then whole ⟨next, g.exponent⟩ ds
    else ⟨g.significand, g.exponent + (d :: ds).length⟩

/-- The digits after the point: once a digit does not fit, it and all that follow are
dropped. -/
def fraction (g : Gathered) : List Char → Gathered
  | [] => g
  | d :: ds =>
    let next := g.significand * 10 + (d.toNat - '0'.toNat)
    if next < limit then fraction ⟨next, g.exponent - 1⟩ ds else g

/-- A power of ten of the table, which ends at `10 ^ 308`. -/
def power (n : Nat) : Float := Double.ofDecimal false 1 n

/-- Repeated division by the last power of the table, which stops at zero. -/
def scaleDown : Nat → Float → Float
  | 0, x => x
  | n + 1, x => if x == 0 then x else scaleDown n (x / power 308)

/-- The number gathered, without its sign; what is too great is no number. -/
def toDouble? (g : Gathered) : Option Float :=
  let x := Float.ofNat g.significand
  if g.exponent < 0 then
    let n := g.exponent.natAbs
    let steps := (n - 1) / 308
    some (scaleDown steps x / power (n - 308 * steps))
  else if g.exponent ≤ 308 then
    let y := x * power g.exponent.natAbs
    if y.isInf then none else some y
  else if g.significand = 0 then some x
  else none

end Gathered

namespace NumberText

/-- The digits of a number as they are gathered. -/
def gathered (t : NumberText) : Gathered :=
  let g := ((⟨0, 0⟩ : Gathered).whole t.whole).fraction t.fraction
  ⟨g.significand, g.exponent + t.exponent.getD 0⟩

/-- The double-precision number that a text stands for. -/
def toDouble? (t : NumberText) : Option Float :=
  t.gathered.toDouble?.map fun x => if t.negative then -x else x

/-- The number that a text stands for: an integer if it is written as one and has at most 64
bits, a double-precision number otherwise. The negative zero is no integer. -/
def toNumber? (t : NumberText) : Option Number :=
  let n := Text.digitsValue t.whole
  if t.fraction.isEmpty ∧ t.exponent = none ∧ n < Gathered.limit then
    if !t.negative then some (.natural n)
    else if n ≠ 0 ∧ n ≤ 0x8000000000000000 then some (.negative n)
    else some (.double (-Float.ofNat n))
  else t.toDouble?.map .double

end NumberText

namespace Number

/-- The nearest single-precision number. -/
def toSingle : Number → Float32
  | natural n => Single.ofInt n
  | negative n => Single.ofInt (-n)
  | double x => Single.ofDouble x
  | single x => x

/-- A count, which has to be written as an integer. -/
def toCount? : Number → Option Nat
  | natural n => some n
  | _ => none

/-! ## Writing -/

/-- The number as a document shows it. -/
def text : Number → String
  | natural n => .ofList (Decimal.digits n)
  | negative n => .ofList ('-' :: Decimal.digits n)
  | double x => Double.jsonText x
  | single x => Single.jsonText x

end Number

end LayeredDrawing.Json
