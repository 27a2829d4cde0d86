import LayeredDrawing.Number.Formats
import LayeredDrawing.Text

/-!
# Numbers on a command line

`Single.parse?` reads a number that a user has typed: a decimal with an optional point and an
optional exponent, where digits may be missing on one side of the point, or one of `inf`,
`infinity` and `nan` in any case. The result is the single-precision number nearest to the
decimal.
-/

namespace LayeredDrawing.Single

/-- The infinity with the given sign. -/
def infinity (negative : Bool) : Float32 := if negative then -1 / 0 else 1 / 0

/-- The exponent of a decimal. -/
def exponent? (cs : List Char) : Option Int :=
  let (negative, ds) := Text.splitSign cs
  if ds.isEmpty || !ds.all Char.isDigit then none
  else
    let n := Text.digitsValue ds
    some (if negative then -n else n)

/-- A decimal without its sign. -/
def decimal? (negative : Bool) (cs : List Char) : Option Float32 := do
  let (mantissa, power) := Text.splitAtFirst (fun c => c == 'e' || c == 'E') cs
  let (whole, fraction) := Text.splitAtFirst (· == '.') mantissa
  let fraction := fraction.getD []
  let power ← match power with
    | none => some 0
    | some cs => exponent? cs
  let ds := whole ++ fraction
  if ds.isEmpty || !ds.all Char.isDigit then none
  else return ofDecimal negative (Text.digitsValue ds) (power - fraction.length)

/-- The number of a text. -/
def parse? (text : String) : Option Float32 :=
  let (negative, cs) := Text.splitSign text.toList
  let name := String.ofList (cs.map Char.toLower)
  if name = "inf" ∨ name = "infinity" then some (infinity negative)
  else if name = "nan" then some (0 / 0)
  else decimal? negative cs

end LayeredDrawing.Single
