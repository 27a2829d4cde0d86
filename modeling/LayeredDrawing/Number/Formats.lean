/-!
# Number formats

Coordinates, sizes and distances are IEEE 754 single-precision numbers, the type `Float32`.
Numbers of an untyped document and of a settings file are double-precision numbers, the type
`Float`. This module adds the operations that a drawing needs beside the four of arithmetic:

* `nearest`, the number of a binary format that is nearest to a decimal, ties to even. An
  exponent far outside the range of every format in use is first brought nearer
  (`boundedExponent`), which changes neither an overflow nor an underflow but keeps the powers of
  ten small;
* `Single.larger` and `Single.smaller`, the greater and the lesser of two numbers, which
  ignore an operand that is not a number;
* `Single.orderKey`, the place of a number in the total order of the format, and
  `Single.totalLE`, that order, under which every list can be sorted;
* `Single.ofInt`, `Single.ofDecimal` and `Single.ofDouble`, the nearest single-precision
  number of an integer, of a decimal and of a double-precision number;
* `Double.ofDecimal`, the nearest double-precision number of a decimal.

The conversions go through the unpacked form of the format (sign, mantissa, exponent), so
that they can be opened in a proof.
-/

namespace LayeredDrawing

open Float.Model (Format UnpackedFloat)

/-! ## Nearest numbers -/

/-- An exponent of ten, cut off where the decimal is greater than `10 ^ 400` or less than
`10 ^ (-400)` in any case. -/
def boundedExponent (significand : Nat) (exponent : Int) : Int :=
  max (-(significand.log2 + 401)) (min exponent 400)

/-- The number of a format nearest to `significand * 10 ^ exponent`. -/
def nearest (format : Format) (significand : Nat) (exponent : Int) : UnpackedFloat :=
  UnpackedFloat.ofScientific format significand (boundedExponent significand exponent)

namespace Single

/-! ## Single precision -/

/-- The greater of two numbers; an operand that is not a number is ignored, and of two equal
operands, which `0` and `-0` are, the second is kept. -/
def larger (a b : Float32) : Float32 :=
  if a.isNaN then b else if a ≤ b then b else a

/-- The lesser of two numbers; an operand that is not a number is ignored, and of two equal
operands, which `0` and `-0` are, the second is kept. -/
def smaller (a b : Float32) : Float32 :=
  if a.isNaN then b else if b ≤ a then b else a

/-- The place of a number in the total order of the format: negative numbers by decreasing
magnitude, then `-0`, `0` and the positive numbers by increasing magnitude. -/
def orderKey (x : Float32) : Int :=
  let bits : Int := x.toBits.toNat
  if bits < 0x80000000 then bits else 0x7FFFFFFF - bits

/-- The total order of the format. -/
def totalLE (a b : Float32) : Bool :=
  decide (orderKey a ≤ orderKey b)

theorem totalLE_total (a b : Float32) : totalLE a b || totalLE b a := by
  simp only [totalLE, Bool.or_eq_true, decide_eq_true_eq]
  omega

theorem totalLE_trans {a b c : Float32} (hab : totalLE a b) (hbc : totalLE b c) :
    totalLE a c := by
  simp only [totalLE, decide_eq_true_eq] at *
  omega

/-! ### Conversions -/

/-- The number with the given unpacked form, which has to be rounded for the format. -/
def ofUnpacked (x : UnpackedFloat) : Float32 :=
  .ofModel (.pack x)

/-- The single-precision number nearest to an integer, ties to even. -/
def ofInt (n : Int) : Float32 :=
  ofUnpacked (UnpackedFloat.ofInt Format.binary32 n)

/-- The single-precision number nearest to `significand * 10 ^ exponent`, with the sign given
apart so that zero keeps it. -/
def ofDecimal (negative : Bool) (significand : Nat) (exponent : Int) : Float32 :=
  let magnitude := ofUnpacked (nearest Format.binary32 significand exponent)
  if negative then -magnitude else magnitude

/-- The single-precision number nearest to a double-precision number, ties to even. -/
def ofDouble (x : Float) : Float32 :=
  match x.toModel.unpack with
  | .finite sign mantissa exponent _ =>
    ofUnpacked (UnpackedFloat.round Format.binary32 sign mantissa exponent)
  | special => ofUnpacked special

end Single

namespace Double

/-! ## Double precision -/

/-- The double-precision number nearest to `significand * 10 ^ exponent`, with the sign given
apart so that zero keeps it. -/
def ofDecimal (negative : Bool) (significand : Nat) (exponent : Int) : Float :=
  let magnitude : Float := .ofModel (.pack (nearest Format.binary64 significand exponent))
  if negative then -magnitude else magnitude

end Double

end LayeredDrawing
