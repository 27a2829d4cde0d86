import LayeredDrawing.Number.Shortest

/-!
# Numbers as text

Two ways of writing a floating-point number, both with the shortest digits that read back:

* `Single.text` is the form used in messages, which never has an exponent;
* `Single.jsonText` and `Double.jsonText` are the forms used in documents, positional for
  moderate exponents (`JsonRange`) and scientific otherwise.
-/

namespace LayeredDrawing

open Float.Model (Format UnpackedFloat)

namespace Decimal

/-! ## Positional and scientific form -/

/-- The digits before the point and the digits after it. -/
def positional (d : Decimal) : List Char × List Char :=
  let ds := digits d.significand
  if 0 ≤ d.exponent then (ds ++ List.replicate d.exponent.toNat '0', [])
  else
    let places := (-d.exponent).toNat
    if places < ds.length then (ds.take (ds.length - places), ds.drop (ds.length - places))
    else (['0'], List.replicate (places - ds.length) '0' ++ ds)

/-- One digit, the others after a point if there are any, and a signed exponent. -/
def scientific (d : Decimal) : List Char :=
  let e := d.leadingExponent
  let mantissa :=
    match digits d.significand with
    | [] => []
    | [c] => [c]
    | c :: rest => c :: '.' :: rest
  mantissa ++ 'e' :: (if 0 ≤ e then '+' else '-') :: digits e.natAbs

end Decimal

/-- The minus sign of a negative number. -/
def signText : UnpackedFloat.Sign → List Char
  | .negative => ['-']
  | .positive => []

/-! ## Messages -/

namespace Single

/-- A number in a message: shortest digits, no exponent, no point before an empty fraction; a
tie between shortest digits goes up. -/
def text (x : Float32) : String :=
  match x.toModel.unpack with
  | .notANumber => "NaN"
  | .infinity sign => .ofList (signText sign ++ "inf".toList)
  | .zero sign => .ofList (signText sign ++ ['0'])
  | .finite sign mantissa exponent _ =>
    let (whole, fraction) :=
      (Decimal.shortest .up Format.binary32 mantissa exponent).positional
    .ofList (signText sign ++ whole ++ (if fraction.isEmpty then [] else '.' :: fraction))

end Single

/-! ## Documents -/

/-- The exponents of the leading digit for which a document has a number in positional form. -/
structure JsonRange where
  least : Int
  greatest : Int

/-- A number in a document: shortest digits, with at least one digit after the point in
positional form; a tie between shortest digits goes to the even one. What is no finite number
is written `null`. -/
def jsonText (range : JsonRange) (format : Format) : UnpackedFloat → List Char
  | .notANumber | .infinity _ => "null".toList
  | .zero sign => signText sign ++ "0.0".toList
  | .finite sign mantissa exponent _ =>
    let d := Decimal.shortest .toEven format mantissa exponent
    let body :=
      if range.least ≤ d.leadingExponent ∧ d.leadingExponent ≤ range.greatest then
        let (whole, fraction) := d.positional
        whole ++ '.' :: (if fraction.isEmpty then ['0'] else fraction)
      else d.scientific
    signText sign ++ body

/-- A single-precision number in a document. -/
def Single.jsonText (x : Float32) : String :=
  .ofList (LayeredDrawing.jsonText ⟨-6, 12⟩ Format.binary32 x.toModel.unpack)

/-- A double-precision number in a document. -/
def Double.jsonText (x : Float) : String :=
  .ofList (LayeredDrawing.jsonText ⟨-5, 15⟩ Format.binary64 x.toModel.unpack)

end LayeredDrawing
