/-!
# Characters and texts

What all readers of texts share.

* `Text.isBlank` is the property White_Space of the Unicode standard, and `Text.trim` takes blank
  characters off both ends of a text.
* `Text.hexDigit?` and `Text.hexDigit` are inverse to each other up to case, and
  `Text.digitsValue` reads a list of decimal digits.
* `Text.splitSign` takes a sign off a number, `Text.splitAtFirst` cuts a text at the first
  character of a kind, and `Text.splitAll` cuts it at every occurrence of a character.
-/

namespace LayeredDrawing.Text

/-! ## Blank characters -/

/-- The characters with the Unicode property White_Space. -/
def isBlank (c : Char) : Bool :=
  let n := c.toNat
  (0x9 ≤ n && n ≤ 0xD) || n == 0x20 || n == 0x85 || n == 0xA0 || n == 0x1680 ||
    (0x2000 ≤ n && n ≤ 0x200A) || n == 0x2028 || n == 0x2029 || n == 0x202F ||
    n == 0x205F || n == 0x3000

/-- A text without the blank characters at its ends. -/
def trim (s : String) : String :=
  let body := s.toList.dropWhile isBlank
  .ofList (body.reverse.dropWhile isBlank).reverse

/-! ## Digits -/

/-- The value of a hexadecimal digit. -/
def hexDigit? (c : Char) : Option Nat :=
  if '0' ≤ c ∧ c ≤ '9' then some (c.toNat - '0'.toNat)
  else if 'a' ≤ c ∧ c ≤ 'f' then some (c.toNat - 'a'.toNat + 10)
  else if 'A' ≤ c ∧ c ≤ 'F' then some (c.toNat - 'A'.toNat + 10)
  else none

/-- The hexadecimal digit of a number below sixteen. -/
def hexDigit (n : Nat) : Char :=
  if n < 10 then Char.ofNat ('0'.toNat + n) else Char.ofNat ('a'.toNat + (n - 10))

/-- The value of a list of decimal digits. -/
def digitsValue (ds : List Char) : Nat :=
  ds.foldl (fun n c => n * 10 + (c.toNat - '0'.toNat)) 0

/-! ## Splitting texts -/

/-- A sign, which is negative or not, and what follows it. -/
def splitSign : List Char → Bool × List Char
  | '-' :: cs => (true, cs)
  | '+' :: cs => (false, cs)
  | cs => (false, cs)

/-- The characters before the first one of a kind, and those after it if there is one. -/
def splitAtFirst (isMark : Char → Bool) (cs : List Char) : List Char × Option (List Char) :=
  match cs.dropWhile (!isMark ·) with
  | [] => (cs, none)
  | _ :: after => (cs.takeWhile (!isMark ·), some after)

/-- The parts between the occurrences of a character, one more than there are occurrences. -/
def splitAll (mark : Char) : List Char → List (List Char)
  | [] => [[]]
  | c :: cs =>
    match splitAll mark cs with
    | [] => []
    | part :: parts => if c = mark then [] :: part :: parts else (c :: part) :: parts

theorem splitSign_length_le (cs : List Char) : (splitSign cs).2.length ≤ cs.length := by
  unfold splitSign
  split <;> simp

end LayeredDrawing.Text
