import LayeredDrawing.Toml.Scalar
import LayeredDrawing.Toml.Table
import LayeredDrawing.Toml.Token

/-!
# Reading the tables of a text

`Value.parse?` reads a TOML text. As in a JSON text, the tokens are taken from left to right
and the arrays and tables in brackets that are still open wait on a stack; `Progress` says which
token may come next. `Reader` also holds the tables that have come about and the header under
which the current line stands.

Between brackets lines may end anywhere but inside a key, and the last item may be followed by a
comma. Blanks count only inside a value without quotes, which goes on if words follow them, as a
date does with a time, and between the brackets of `[[` and `]]`, where there may be none.
-/

namespace LayeredDrawing.Toml

/-- An array or a table in brackets that is still open. -/
inductive Frame
  /-- An array with its finished items (newest first). -/
  | array (items : List Value)
  /-- A table, waiting for the value of a key. -/
  | table (members : Members) (path : List String) (key : String)

/-- The place of a value: the key of its line, and the brackets around it. -/
structure Slot where
  path : List String
  key : String
  frames : List Frame

/-- The use of a key. -/
inductive KeyUse
  /-- The name of a table, or of an array of tables. -/
  | header (rows : Bool)
  /-- An assignment on a line. -/
  | line
  /-- An assignment in a table in braces with these members. -/
  | member (members : Members) (slot : Slot)

/-- The position inside a text; the parts of a key are listed newest first. -/
inductive Progress
  /-- The beginning of a line. -/
  | line
  /-- A bracket at the beginning of a line. -/
  | bracket
  /-- A part of a key has to follow. -/
  | keyPart (use : KeyUse) (path : List String)
  /-- A part of a key was read. -/
  | keyEnd (use : KeyUse) (path : List String) (key : String)
  /-- The first bracket at the end of the name of an array of tables was read. -/
  | bracketEnd (path : List String) (key : String)
  /-- The key of a member was read and its line has ended: an equals sign has to follow. -/
  | equals (slot : Slot)
  /-- A value has to follow. -/
  | value (slot : Slot)
  /-- An item or the end of an array has to follow. -/
  | item (slot : Slot)
  /-- A key or the end of a table in braces has to follow. -/
  | member (members : Members) (slot : Slot)
  /-- A value without quotes was begun. -/
  | scalar (slot : Slot) (cs : List Char)
  /-- Blanks were read behind a value without quotes; they belong to it if a word follows. -/
  | spaced (slot : Slot) (cs blanks : List Char)
  /-- A value is finished. -/
  | finished (slot : Slot) (v : Value)
  /-- The line has to end. -/
  | endOfLine

/-- The greatest number of brackets around a value, and of the parts of a key. -/
def maxDepth : Nat := 80

/-- The tables so far, the header of the current one, and the position. -/
structure Reader where
  root : Members
  header : List String
  progress : Progress

namespace Reader

/-- The reader at another position. -/
def goTo (r : Reader) (p : Progress) : Option Reader := some { r with progress := p }

/-! ## Keys -/

/-- A character of a key without quotes. -/
def isKeyChar (c : Char) : Bool :=
  ('a' ≤ c && c ≤ 'z') || ('A' ≤ c && c ≤ 'Z') || c.isDigit || c == '-' || c == '_'

/-- The part of a key that a token is. -/
def keyPart? : Token → Option String
  | .word cs => if cs.all isKeyChar then some (.ofList cs) else none
  | .text false s => some s
  | _ => none

/-- A part of a key, if it may have one more. -/
def readKey (r : Reader) (use : KeyUse) (path : List String) (t : Token) : Option Reader :=
  if path.length < maxDepth then (keyPart? t).bind fun key => r.goTo (.keyEnd use path key)
  else none

/-- The place of the value of a member. -/
def memberSlot (members : Members) (slot : Slot) (path : List String) (key : String) : Slot :=
  { slot with frames := .table members path.reverse key :: slot.frames }

/-- The token behind a part of a key. -/
def afterKey (r : Reader) (use : KeyUse) (path : List String) (key : String) :
    Token → Option Reader
  | .blank _ => r.goTo (.keyEnd use path key)
  | .point => r.goTo (.keyPart use (key :: path))
  | t =>
    match use, t with
    | .header false, .closeBracket => do
      let root ← r.root.openTable path.reverse key
      return { root, header := path.reverse ++ [key], progress := .endOfLine }
    | .header true, .closeBracket => r.goTo (.bracketEnd path key)
    | .line, .equals => r.goTo (.value ⟨path.reverse, key, []⟩)
    | .member members slot, .newline => r.goTo (.equals (memberSlot members slot path key))
    | .member members slot, .equals => r.goTo (.value (memberSlot members slot path key))
    | _, _ => none

/-! ## Values -/

/-- One more array or table in braces, if there may be one. -/
def nest (r : Reader) (slot : Slot) (p : Progress) : Option Reader :=
  if slot.frames.length < maxDepth then r.goTo p else none

/-- The first token of a value. -/
def beginValue (r : Reader) (slot : Slot) : Token → Option Reader
  | .text _ s => r.goTo (.finished slot (.string s))
  | .word cs => r.goTo (.scalar slot cs)
  | .openBracket =>
    r.nest slot (.item { slot with frames := .array [] :: slot.frames })
  | .openBrace => r.nest slot (.member [] slot)
  | _ => none

/-- The end of an array. -/
def closeArray (r : Reader) (slot : Slot) (items : List Value) (outer : List Frame) :
    Option Reader :=
  r.goTo (.finished { slot with frames := outer } (.array items.reverse))

/-- The end of a table in braces. -/
def closeTable (r : Reader) (slot : Slot) (members : Members) : Option Reader :=
  r.goTo (.finished slot (.table (membersToValues members)))

/-- The token behind a value. -/
def afterValue (r : Reader) (slot : Slot) (v : Value) (t : Token) : Option Reader :=
  match slot.frames, t with
  | _, .blank _ => r.goTo (.finished slot v)
  | [], .newline => do
    let root ← r.root.assignUnder r.header slot.path slot.key v
    return { r with root, progress := .line }
  | [], _ => none
  | _, .newline => r.goTo (.finished slot v)
  | .array items :: outer, .comma =>
    r.goTo (.item { slot with frames := .array (v :: items) :: outer })
  | .array items :: outer, .closeBracket => r.closeArray slot (v :: items) outer
  | .table members path key :: outer, .comma => do
    r.goTo (.member (← members.assign key v path) { slot with frames := outer })
  | .table members path key :: outer, .closeBrace => do
    r.closeTable { slot with frames := outer } (← members.assign key v path)
  | _, _ => none

/-- The token behind a value without quotes. -/
def afterScalar (r : Reader) (slot : Slot) (cs : List Char) (t : Token) : Option Reader :=
  (scalar? cs).bind fun v => r.afterValue slot v t

/-! ## Tokens -/

/-- The next token. -/
def advance (r : Reader) (t : Token) : Option Reader :=
  match r.progress, t with
  | .line, .blank _ | .line, .newline => some r
  | .line, .openBracket => r.goTo .bracket
  | .line, t => r.readKey .line [] t
  | .bracket, .openBracket => r.goTo (.keyPart (.header true) [])
  | .bracket, .blank _ => r.goTo (.keyPart (.header false) [])
  | .bracket, t => r.readKey (.header false) [] t
  | .keyPart _ _, .blank _ => some r
  | .keyPart use path, t => r.readKey use path t
  | .keyEnd use path key, t => r.afterKey use path key t
  | .bracketEnd path key, .closeBracket => do
    let root ← r.root.openRow path.reverse key
    return { root, header := path.reverse ++ [key], progress := .endOfLine }
  | .bracketEnd _ _, _ => none
  | .equals _, .blank _ | .equals _, .newline => some r
  | .equals slot, .equals => r.goTo (.value slot)
  | .equals _, _ => none
  | .value _, .blank _ | .value ⟨_, _, _ :: _⟩, .newline => some r
  | .value slot, t => r.beginValue slot t
  | .item _, .blank _ | .item _, .newline => some r
  | .item slot, .closeBracket =>
    match slot.frames with
    | .array items :: outer => r.closeArray slot items outer
    | _ => none
  | .item slot, t => r.beginValue slot t
  | .member _ _, .blank _ | .member _ _, .newline => some r
  | .member members slot, .closeBrace => r.closeTable slot members
  | .member members slot, t => r.readKey (.member members slot) [] t
  | .scalar slot cs, .word more => r.goTo (.scalar slot (cs ++ more))
  | .scalar slot cs, .point => r.goTo (.scalar slot (cs ++ ['.']))
  | .scalar slot cs, .blank c => r.goTo (.spaced slot cs [c])
  | .scalar slot cs, t => r.afterScalar slot cs t
  | .spaced slot cs blanks, .blank c => r.goTo (.spaced slot cs (blanks ++ [c]))
  | .spaced slot cs blanks, .word more => r.goTo (.scalar slot (cs ++ blanks ++ more))
  | .spaced slot cs _, t => r.afterScalar slot cs t
  | .finished slot v, t => r.afterValue slot v t
  | .endOfLine, .blank _ => some r
  | .endOfLine, .newline => r.goTo .line
  | .endOfLine, _ => none

/-- The tables of a list of tokens, after which the last line ends. -/
def run (tokens : List Token) : Option Members :=
  match (tokens ++ [Token.newline]).foldlM advance ⟨[], [], .line⟩ with
  | some ⟨root, _, .line⟩ => some root
  | _ => none

end Reader

/-- The table of a text. -/
def Value.parse? (text : String) : Option Value := do
  let root ← Reader.run (← Token.scan text)
  return .table (membersToValues root)

end LayeredDrawing.Toml
