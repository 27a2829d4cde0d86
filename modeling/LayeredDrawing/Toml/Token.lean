import LayeredDrawing.Text

/-!
# Tokens of a TOML text

`Token.scan` cuts a text into its tokens, one character after the other: `Mode` says what the
characters so far have begun, and `Scan.step` takes one more. Strings come out without their
quotes and escapes, and comments vanish. What is written without quotes, be it a key, a number
or a date, is a word; points are tokens of their own. Blanks are kept, because they may belong to a
date with a time and none may separate the brackets around the name of an array of tables.

Lines end with a line feed or with a carriage return and a line feed.
-/

namespace LayeredDrawing.Toml

/-- The smallest parts of a TOML text. -/
inductive Token
  | newline
  /-- A space or a tab. -/
  | blank (c : Char)
  | point
  | equals
  | comma
  | openBracket
  | closeBracket
  | openBrace
  | closeBrace
  /-- Characters outside quotes. -/
  | word (cs : List Char)
  /-- A string in quotes, which may go over several lines or not. -/
  | text (multiline : Bool) (s : String)
  deriving DecidableEq, Repr

/-- The two kinds of quotes. -/
inductive Quote
  /-- Double quotes, between which there are escapes. -/
  | basic
  /-- Single quotes, between which there are none. -/
  | literal
  deriving DecidableEq, Repr

namespace Quote

/-- The character of a quote. -/
def char : Quote → Char
  | basic => '"'
  | literal => '\''

/-- The quote of a character. -/
def ofChar? (c : Char) : Option Quote :=
  if c == '"' then some basic else if c == '\'' then some literal else none

end Quote

/-! ## Characters -/

/-- A blank inside a line. -/
def isBlank (c : Char) : Bool := c == ' ' || c == '\t'

/-- A character that may not stand in a string or a comment. -/
def isControl (c : Char) : Bool := (c.toNat < 0x20 && c != '\t') || c.toNat == 0x7F

/-- The token of a punctuation mark. -/
def punctuation? : Char → Option Token
  | '.' => some .point
  | '=' => some .equals
  | ',' => some .comma
  | '[' => some .openBracket
  | ']' => some .closeBracket
  | '\x7b' => some .openBrace
  | '\x7d' => some .closeBrace
  | _ => none

/-- The character that a short escape stands for. -/
def unescape? : Char → Option Char
  | '"' => some '"'
  | '\\' => some '\\'
  | 'b' => some '\x08'
  | 'e' => some '\x1b'
  | 'f' => some '\x0c'
  | 'n' => some '\n'
  | 'r' => some '\r'
  | 't' => some '\t'
  | _ => none

/-- The number of hexadecimal digits behind the letter of an escape. -/
def codeDigits? : Char → Option Nat
  | 'x' => some 2
  | 'u' => some 4
  | 'U' => some 8
  | _ => none

/-! ## Scanning -/

/-- What the characters so far have begun; the characters of a word or a string are listed
newest first. -/
inductive Mode
  /-- Nothing is begun. -/
  | plain
  /-- A carriage return, which has to be followed by a line feed. -/
  | endOfLine
  | comment
  | word (cs : List Char)
  /-- One quote, or two of them if `second` holds. -/
  | opening (q : Quote) (second : Bool)
  /-- Three quotes, after which one end of line does not count. -/
  | firstLine (q : Quote) (return_ : Bool)
  /-- The inside of a string; after a carriage return a line feed has to follow. -/
  | inside (q : Quote) (multiline : Bool) (return_ : Bool) (cs : List Char)
  /-- Quotes inside a string of several lines, at least one and at most five. -/
  | closing (q : Quote) (cs : List Char) (count : Nat)
  /-- A backslash inside a string. -/
  | escape (multiline : Bool) (cs : List Char)
  /-- An escape that lacks some of its digits. -/
  | code (multiline : Bool) (cs : List Char) (digits value : Nat)
  /-- A backslash at the end of a line, and the blanks and ends of lines behind it. -/
  | joining (cs : List Char) (ended : Bool) (return_ : Bool)
  deriving Repr

/-- The tokens that are finished (newest first) and what has begun. -/
structure Scan where
  done : List Token
  mode : Mode
  deriving Repr

namespace Scan

/-- One more finished token. -/
def emit (done : List Token) (t : Token) : Scan := ⟨t :: done, .plain⟩

/-- A character when nothing is begun. -/
def start (done : List Token) (c : Char) : Scan :=
  if isBlank c then emit done (.blank c)
  else if c == '\n' then emit done .newline
  else if c == '\r' then ⟨done, .endOfLine⟩
  else if c == '#' then ⟨done, .comment⟩
  else
    match punctuation? c, Quote.ofChar? c with
    | some t, _ => emit done t
    | none, some q => ⟨done, .opening q false⟩
    | none, none => ⟨done, .word [c]⟩

/-- A character inside a string. -/
def within (done : List Token) (q : Quote) (multiline : Bool) (cs : List Char) (c : Char) :
    Option Scan :=
  if c == q.char then
    if multiline then some ⟨done, .closing q cs 1⟩
    else some (emit done (.text false (.ofList cs.reverse)))
  else if c == '\\' && q == .basic then some ⟨done, .escape multiline cs⟩
  else if c == '\n' && multiline then some ⟨done, .inside q multiline false ('\n' :: cs)⟩
  else if c == '\r' && multiline then some ⟨done, .inside q multiline true cs⟩
  else if isControl c then none
  else some ⟨done, .inside q multiline false (c :: cs)⟩

/-- A string of several lines whose last quotes have been read: three of them close it. -/
def close (done : List Token) (q : Quote) (cs : List Char) (count : Nat) : List Token :=
  .text true (.ofList (List.replicate (count - 3) q.char ++ cs).reverse) :: done

/-- A character behind a backslash. -/
def escaped (done : List Token) (multiline : Bool) (cs : List Char) (c : Char) : Option Scan :=
  match unescape? c, codeDigits? c with
  | some e, _ => some ⟨done, .inside .basic multiline false (e :: cs)⟩
  | none, some digits => some ⟨done, .code multiline cs digits 0⟩
  | none, none =>
    if !multiline then none
    else if isBlank c then some ⟨done, .joining cs false false⟩
    else if c == '\n' then some ⟨done, .joining cs true false⟩
    else if c == '\r' then some ⟨done, .joining cs false true⟩
    else none

/-- A digit of an escape. -/
def coded (done : List Token) (multiline : Bool) (cs : List Char) (digits value : Nat)
    (c : Char) : Option Scan :=
  match Text.hexDigit? c with
  | none => none
  | some d =>
    let value := value * 16 + d
    if 1 < digits then some ⟨done, .code multiline cs (digits - 1) value⟩
    else if value.isValidChar then
      some ⟨done, .inside .basic multiline false (.ofNat value :: cs)⟩
    else none

/-- The next character. -/
def step (s : Scan) (c : Char) : Option Scan :=
  match s.mode with
  | .plain => some (start s.done c)
  | .endOfLine => if c == '\n' then some (emit s.done .newline) else none
  | .comment =>
    if c == '\n' || c == '\r' then some (start s.done c)
    else if isControl c then none
    else some s
  | .word cs =>
    if isBlank c || c == '\n' || c == '\r' || c == '#' || (punctuation? c).isSome then
      some (start (.word cs.reverse :: s.done) c)
    else some ⟨s.done, .word (c :: cs)⟩
  | .opening q false =>
    if c == q.char then some ⟨s.done, .opening q true⟩ else within s.done q false [] c
  | .opening q true =>
    if c == q.char then some ⟨s.done, .firstLine q false⟩
    else some (start (.text false "" :: s.done) c)
  | .firstLine q false =>
    if c == '\n' then some ⟨s.done, .inside q true false []⟩
    else if c == '\r' then some ⟨s.done, .firstLine q true⟩
    else within s.done q true [] c
  | .firstLine q true => if c == '\n' then some ⟨s.done, .inside q true false []⟩ else none
  | .inside q multiline false cs => within s.done q multiline cs c
  | .inside q multiline true cs =>
    if c == '\n' then some ⟨s.done, .inside q multiline false ('\n' :: cs)⟩ else none
  | .closing q cs count =>
    if c == q.char then if count < 5 then some ⟨s.done, .closing q cs (count + 1)⟩ else none
    else if count < 3 then within s.done q true (List.replicate count q.char ++ cs) c
    else some (start (close s.done q cs count) c)
  | .escape multiline cs => escaped s.done multiline cs c
  | .code multiline cs digits value => coded s.done multiline cs digits value c
  | .joining cs ended false =>
    if isBlank c then some s
    else if c == '\n' then some ⟨s.done, .joining cs true false⟩
    else if c == '\r' then some ⟨s.done, .joining cs ended true⟩
    else if ended then within s.done .basic true cs c
    else none
  | .joining cs _ true => if c == '\n' then some ⟨s.done, .joining cs true false⟩ else none

/-- The tokens at the end of the text, unless a string or an end of line is unfinished. -/
def finish (s : Scan) : Option (List Token) :=
  match s.mode with
  | .plain | .comment => some s.done.reverse
  | .word cs => some (.word cs.reverse :: s.done).reverse
  | .opening _ true => some (.text false "" :: s.done).reverse
  | .closing q cs count => if count < 3 then none else some (close s.done q cs count).reverse
  | _ => none

end Scan

namespace Token

/-- A text without the mark that tells the order of its bytes. -/
def dropMark : List Char → List Char
  | '\ufeff' :: cs => cs
  | cs => cs

/-- The tokens of a text. -/
def scan (text : String) : Option (List Token) :=
  ((dropMark text.toList).foldlM Scan.step ⟨[], .plain⟩).bind Scan.finish

end Token

end LayeredDrawing.Toml
