import LayeredDrawing.Json.Number
import LayeredDrawing.Json.Reader

/-!
# Values of a document

A `Json.Value` is what a tree stands for when all of it is read: numbers and strings are
decoded, and an object has each key once, in the order of the characters, the last member of a
key deciding. `Value.ofTree?` reads a tree nested no deeper than a given depth, and
`Value.compact` and `Value.pretty` write a value, objects in the order of their list.
-/

namespace LayeredDrawing.Json

/-- A value of a document. -/
inductive Value
  | null
  | bool (b : Bool)
  | number (n : Number)
  | string (s : String)
  | array (items : List Value)
  | object (members : List (String × Value))
  deriving BEq, Repr, Inhabited

/-- The greatest number of containers around a part of a text that is read. -/
def maxDepth : Nat := 127

/-- The members of an object with one member set, in the order of the keys. -/
def insertMember {β : Type} (key : String) (value : β) :
    List (String × β) → List (String × β)
  | [] => [(key, value)]
  | (k, v) :: rest =>
    if key < k then (key, value) :: (k, v) :: rest
    else if key = k then (key, value) :: rest
    else (k, v) :: insertMember key value rest

/-- The members of an object in the order of the keys; of members with one key the last
counts. -/
def sortMembers {β : Type} (members : List (String × β)) : List (String × β) :=
  members.foldl (fun sorted m => insertMember m.1 m.2 sorted) []

namespace Value

/-- The value `null`. -/
def isNull : Value → Bool
  | null => true
  | _ => false

/-! ## Reading -/

mutual

/-- The value that a tree stands for, if all of it can be read within the depth. -/
def ofTree? (depth : Nat) : Tree → Option Value
  | .null => some .null
  | .bool b => some (.bool b)
  | .number n => n.toNumber?.map .number
  | .string s => s.decode.map .string
  | .array items => if depth = 0 then none else (ofItems? (depth - 1) items).map .array
  | .object members =>
    if depth = 0 then none
    else (ofMembers? (depth - 1) members).map fun ms => .object (sortMembers ms)

/-- The values of the items of an array. -/
def ofItems? (depth : Nat) : List Tree → Option (List Value)
  | [] => some []
  | t :: ts =>
    match ofTree? depth t, ofItems? depth ts with
    | some v, some vs => some (v :: vs)
    | _, _ => none

/-- The members of an object, as they stand. -/
def ofMembers? (depth : Nat) : List (StringText × Tree) → Option (List (String × Value))
  | [] => some []
  | (key, t) :: ms =>
    match key.decode, ofTree? depth t, ofMembers? depth ms with
    | some k, some v, some vs => some ((k, v) :: vs)
    | _, _, _ => none

end

/-- The value of a text. -/
def parse? (text : String) : Option Value :=
  (Tree.parse? text).bind (ofTree? maxDepth)

/-! ## Writing -/

/-- A part of a string between its quotes. -/
def unitText : StringUnit → List Char
  | .char c =>
    match StringText.shortEscape? c with
    | some e => ['\\', e]
    | none => [c]
  | .code n =>
    ['\\', 'u', Text.hexDigit (n / 4096 % 16), Text.hexDigit (n / 256 % 16),
      Text.hexDigit (n / 16 % 16), Text.hexDigit (n % 16)]

/-- A string in quotes. -/
def quoted (s : String) : String :=
  .ofList ('"' :: (StringText.encode s).flatMap unitText ++ ['"'])

mutual

/-- A value without blanks. -/
def compact : Value → String
  | null => "null"
  | bool b => if b then "true" else "false"
  | number n => n.text
  | string s => quoted s
  | array items => "[" ++ compactItems items ++ "]"
  | object members => "\x7b" ++ compactMembers members ++ "\x7d"

/-- The items of an array, separated by commas. -/
def compactItems : List Value → String
  | [] => ""
  | [v] => v.compact
  | v :: vs => v.compact ++ "," ++ compactItems vs

/-- The members of an object, separated by commas. -/
def compactMembers : List (String × Value) → String
  | [] => ""
  | [(k, v)] => quoted k ++ ":" ++ v.compact
  | (k, v) :: ms => quoted k ++ ":" ++ v.compact ++ "," ++ compactMembers ms

end

/-- A new line at a depth of nesting, two spaces for each level. -/
def newLine (depth : Nat) : String :=
  .ofList ('\n' :: List.replicate (2 * depth) ' ')

mutual

/-- A value with a line for each item and each member; an empty container stays on its line. -/
def pretty (depth : Nat) : Value → String
  | null => "null"
  | bool b => if b then "true" else "false"
  | number n => n.text
  | string s => quoted s
  | array [] => "[]"
  | array items => "[" ++ prettyItems (depth + 1) items ++ newLine depth ++ "]"
  | object [] => "\x7b\x7d"
  | object members =>
    "\x7b" ++ prettyMembers (depth + 1) members ++ newLine depth ++ "\x7d"

/-- The items of an array, each on its line. -/
def prettyItems (depth : Nat) : List Value → String
  | [] => ""
  | [v] => newLine depth ++ v.pretty depth
  | v :: vs => newLine depth ++ v.pretty depth ++ "," ++ prettyItems depth vs

/-- The members of an object, each on its line. -/
def prettyMembers (depth : Nat) : List (String × Value) → String
  | [] => ""
  | [(k, v)] => newLine depth ++ quoted k ++ ": " ++ v.pretty depth
  | (k, v) :: ms =>
    newLine depth ++ quoted k ++ ": " ++ v.pretty depth ++ "," ++ prettyMembers depth ms

end

end Value

end LayeredDrawing.Json
