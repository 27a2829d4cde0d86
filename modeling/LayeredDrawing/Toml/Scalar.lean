import LayeredDrawing.Number.Formats
import LayeredDrawing.Text
import LayeredDrawing.Toml.Value

/-!
# Numbers, truth values and dates

`scalar?` reads a value that is written without quotes. Underscores in a number stand between two
digits. A number begins with a zero only if it goes on with a point, an exponent or nothing, and a
float has digits on both sides of its point.

Not every number that is let through has a value: it may be too great for its kind, a base may
lack its digits, and behind the first underscore of a decimal integer there may be anything but a
space, a point or an exponent.

The time of a day may leave out its seconds.
-/

namespace LayeredDrawing.Toml

open Text (splitSign splitAtFirst)

/-! ## Underscores -/

/-- Every underscore stands between two digits; `behind` says whether the text stands behind a
digit. -/
def underscoresFit (isDigit : Char → Bool) (behind : Bool) : List Char → Bool
  | [] => true
  | '_' :: cs => behind && cs.head?.any isDigit && underscoresFit isDigit false cs
  | c :: cs => underscoresFit isDigit (isDigit c) cs

/-- A number without its underscores. -/
def withoutUnderscores (cs : List Char) : List Char := cs.filter (· != '_')

/-! ## Integers -/

/-- A digit of a number with the given base. -/
def isDigitOf (base : Nat) (c : Char) : Bool := (Text.hexDigit? c).any (· < base)

/-- An integer of at most 128 bits, with a sign or without. -/
def Value.ofInt (n : Int) : Value :=
  if -0x80000000000000000000000000000000 ≤ n ∧ n < 0x100000000000000000000000000000000 then
    .integer n
  else .unreadable

/-- An integer of the given base. -/
def radix? (base : Nat) (cs : List Char) : Option Value :=
  let ds := withoutUnderscores cs
  if !underscoresFit (isDigitOf base) false cs || !ds.all (isDigitOf base) then none
  else if ds.isEmpty then some .unreadable
  else some (.ofInt (ds.foldl (fun n c => n * base + (Text.hexDigit? c).getD 0) 0 : Nat))

/-- A decimal integer behind its sign, without underscores. -/
def integer (negative : Bool) (ds : List Char) : Value :=
  if ds.all Char.isDigit then
    let n : Int := Text.digitsValue ds
    .ofInt (if negative then -n else n)
  else .unreadable

/-! ## Floats -/

/-- Digits, of which there is at least one. -/
def digits? (ds : List Char) : Option (List Char) :=
  if !ds.isEmpty && ds.all Char.isDigit then some ds else none

/-- The exponent of a float. -/
def exponent? (cs : List Char) : Option Int := do
  let (negative, cs) := splitSign cs
  let n := Text.digitsValue (← digits? cs)
  return if negative then -n else n

/-- A float behind its sign, without underscores. -/
def decimal? (negative : Bool) (cs : List Char) : Option Value := do
  let (mantissa, power) := splitAtFirst (fun c => c == 'e' || c == 'E') cs
  let (whole, fraction) := splitAtFirst (· == '.') mantissa
  let whole ← digits? whole
  let fraction ← match fraction with
    | none => some []
    | some cs => digits? cs
  let power ← match power with
    | none => some 0
    | some cs => exponent? cs
  let x := Double.ofDecimal negative (Text.digitsValue (whole ++ fraction))
    (power - fraction.length)
  return if x.isInf then .unreadable else .float x

/-! ## Decimal numbers -/

/-- A zero at the front that is not the only digit before the point. -/
def hasLeadingZero : List Char → Bool
  | '0' :: c :: _ => c.isDigit || c == '_'
  | _ => false

/-- A decimal integer or a float. -/
def number? (cs : List Char) : Option Value :=
  let (negative, unsigned) := splitSign cs
  let ds := withoutUnderscores unsigned
  let next := (unsigned.dropWhile Char.isDigit).head?
  if ds.isEmpty || hasLeadingZero unsigned then none
  else if unsigned.any fun c => c == '.' || c == 'e' || c == 'E' then
    if underscoresFit Char.isDigit false unsigned then decimal? negative ds else none
  else if next.all (· == '_') && !unsigned.contains ' ' &&
      underscoresFit (isDigitOf 16) false unsigned then
    some (integer negative ds)
  else none

/-- A float that is no decimal. -/
def special? (cs : List Char) : Option Float :=
  match splitSign cs with
  | (false, ['i', 'n', 'f']) => some (1 / 0)
  | (true, ['i', 'n', 'f']) => some (-1 / 0)
  | (_, ['n', 'a', 'n']) => some (0 / 0)
  | _ => none

/-! ## Dates and times -/

/-- A number of two digits. -/
def pair? (a b : Char) : Option Nat :=
  if a.isDigit && b.isDigit then some (Text.digitsValue [a, b]) else none

/-- The number of days of a month. -/
def daysOfMonth (year month : Nat) : Nat :=
  let leap := year % 4 == 0 && (year % 100 != 0 || year % 400 == 0)
  if month == 2 then if leap then 29 else 28
  else if month ∈ [4, 6, 9, 11] then 30
  else 31

/-- A date of the calendar. -/
def isDate : List Char → Bool
  | [y₁, y₂, y₃, y₄, '-', m₁, m₂, '-', d₁, d₂] =>
    match pair? y₁ y₂, pair? y₃ y₄, pair? m₁ m₂, pair? d₁ d₂ with
    | some century, some year, some month, some day =>
      1 ≤ month && month ≤ 12 && 1 ≤ day && day ≤ daysOfMonth (century * 100 + year) month
    | _, _, _, _ => false
  | _ => false

/-- An hour and a minute. -/
def isHourMinute (h₁ h₂ m₁ m₂ : Char) : Bool :=
  match pair? h₁ h₂, pair? m₁ m₂ with
  | some hour, some minute => hour < 24 && minute < 60
  | _, _ => false

/-- The seconds of a time, with a fraction or without; a minute may have a leap second. -/
def isSeconds (s₁ s₂ : Char) (fraction : List Char) : Bool :=
  (pair? s₁ s₂).any (· ≤ 60) &&
    match fraction with
    | [] => true
    | ['.'] => false
    | '.' :: ds => ds.all Char.isDigit
    | _ => false

/-- A time of the day. -/
def isTime : List Char → Bool
  | [h₁, h₂, ':', m₁, m₂] => isHourMinute h₁ h₂ m₁ m₂
  | h₁ :: h₂ :: ':' :: m₁ :: m₂ :: ':' :: s₁ :: s₂ :: fraction =>
    isHourMinute h₁ h₂ m₁ m₂ && isSeconds s₁ s₂ fraction
  | _ => false

/-- The offset of a time from universal time, with its sign taken off. -/
def isOffset : List Char → Bool
  | [h₁, h₂, ':', m₁, m₂] => isHourMinute h₁ h₂ m₁ m₂
  | _ => false

/-- A time of the day, with or without an offset. -/
def isOffsetTime (cs : List Char) : Bool :=
  match splitAtFirst (fun c => c == 'Z' || c == 'z') cs with
  | (time, some rest) => rest.isEmpty && isTime time
  | (_, none) =>
    match splitAtFirst (fun c => c == '+' || c == '-') cs with
    | (time, some offset) => isTime time && isOffset offset
    | (time, none) => isTime time

/-- A date, a time, or a date and a time with a letter or a space between them. -/
def isMoment (cs : List Char) : Bool :=
  match cs.drop 10 with
  | [] => isDate cs || isTime cs
  | c :: time =>
    (isDate (cs.take 10) && (c == 'T' || c == 't' || c == ' ') && isOffsetTime time) ||
      isTime cs

/-! ## Values -/

/-- A value written without quotes. -/
def scalar? (cs : List Char) : Option Value :=
  match cs with
  | ['t', 'r', 'u', 'e'] => some (.bool true)
  | ['f', 'a', 'l', 's', 'e'] => some (.bool false)
  | '0' :: 'x' :: ds => radix? 16 ds
  | '0' :: 'o' :: ds => radix? 8 ds
  | '0' :: 'b' :: ds => radix? 2 ds
  | _ =>
    if isMoment cs then some .moment
    else
      match special? cs with
      | some x => some (.float x)
      | none => number? cs

end LayeredDrawing.Toml
