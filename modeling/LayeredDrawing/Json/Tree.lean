/-!
# Documents as they are written

A JSON text, once blanks and punctuation are gone, is a `Json.Tree`: numbers keep their digits
and strings their `\u` escapes, and an object keeps every member in the order of the text. What
a number or a string stands for is decided later and only where it is asked for, so a part of a
document that nobody reads needs no more than to be well formed.

`StringText.decode` and `StringText.encode` take the written form of a string to its characters
and back.
-/

namespace LayeredDrawing.Json

/-- A number as it is written; a number without a point has no fraction digits. -/
structure NumberText where
  negative : Bool
  whole : List Char
  fraction : List Char
  exponent : Option Int
  deriving DecidableEq, Repr

/-- A part of a string: a character, written as itself or by a short escape, or the code unit
of a `\u` escape. -/
inductive StringUnit
  | char (c : Char)
  | code (n : Nat)
  deriving DecidableEq, Repr

/-- A string as it is written. -/
abbrev StringText := List StringUnit

/-- A JSON text without blanks and punctuation. -/
inductive Tree
  | null
  | bool (b : Bool)
  | number (n : NumberText)
  | string (s : StringText)
  | array (items : List Tree)
  | object (members : List (StringText × Tree))
  deriving Repr, Inhabited

namespace StringText

/-! ## Escaped code units -/

/-- The first half of a pair that stands for one character. -/
def isHighSurrogate (n : Nat) : Bool := 0xD800 ≤ n && n < 0xDC00

/-- The second half of a pair that stands for one character. -/
def isLowSurrogate (n : Nat) : Bool := 0xDC00 ≤ n && n < 0xE000

/-- The character of a pair of halves. -/
def combine (high low : Nat) : Char :=
  Char.ofNat (0x10000 + (high - 0xD800) * 0x400 + (low - 0xDC00))

/-- The characters of a string, added to those already read (newest first); a half without its
other half stands for nothing. -/
def decodeOnto (done : List Char) : StringText → Option (List Char)
  | [] => some done.reverse
  | .char c :: rest => decodeOnto (c :: done) rest
  | .code high :: .code low :: rest =>
    if isHighSurrogate high then
      if isLowSurrogate low then decodeOnto (combine high low :: done) rest else none
    else if isLowSurrogate high then none
    else decodeOnto (Char.ofNat high :: done) (.code low :: rest)
  | .code n :: rest =>
    if isHighSurrogate n || isLowSurrogate n then none
    else decodeOnto (Char.ofNat n :: done) rest

/-- The string that a text stands for. -/
def decode (s : StringText) : Option String :=
  (decodeOnto [] s).map String.ofList

/-- The characters with an escape of their own. -/
def shortEscape? (c : Char) : Option Char :=
  match c with
  | '"' => some '"'
  | '\\' => some '\\'
  | '\x08' => some 'b'
  | '\x0c' => some 'f'
  | '\n' => some 'n'
  | '\r' => some 'r'
  | '\t' => some 't'
  | _ => none

/-- A string written with a `\u` escape only for control characters without a short one. -/
def encode (s : String) : StringText :=
  s.toList.map fun c =>
    if c.toNat < 0x20 && (shortEscape? c).isNone then .code c.toNat else .char c

end StringText

end LayeredDrawing.Json
