import LayeredDrawing.Json.Token

/-!
# Reading the tree of a text

`Tree.parse?` reads a JSON text. The tokens are taken from left to right while the containers
that are still open wait on a stack: `Progress` says which token may come next, `advance` takes
one, and a text is read when the last token leaves exactly one finished tree.
-/

namespace LayeredDrawing.Json

/-- A container that is still open, with its finished parts (newest first). -/
inductive Frame
  /-- An array, waiting for its next item. -/
  | array (items : List Tree)
  /-- An object, waiting for the value of `key`. -/
  | object (members : List (StringText × Tree)) (key : StringText)

/-- The position inside the innermost open container. -/
inductive Progress
  /-- A value has to follow. -/
  | value (open_ : List Frame)
  /-- A bracket was opened: an item or its end has to follow. -/
  | firstItem (open_ : List Frame)
  /-- A brace was opened: a key or its end has to follow. -/
  | firstKey (open_ : List Frame)
  /-- A comma was read in an object: a key has to follow. -/
  | key (members : List (StringText × Tree)) (open_ : List Frame)
  /-- A key was read: a colon has to follow. -/
  | colon (members : List (StringText × Tree)) (key : StringText) (open_ : List Frame)
  /-- A value is finished: a comma or the end of its container has to follow, or the end of
  the text if no container is open. -/
  | finished (tree : Tree) (open_ : List Frame)

namespace Progress

/-- The first token of a value. -/
def beginValue (open_ : List Frame) : Token → Option Progress
  | .null => some (.finished .null open_)
  | .bool b => some (.finished (.bool b) open_)
  | .number n => some (.finished (.number n) open_)
  | .string s => some (.finished (.string s) open_)
  | .beginArray => some (.firstItem open_)
  | .beginObject => some (.firstKey open_)
  | _ => none

/-- The next token. -/
def advance : Progress → Token → Option Progress
  | .value open_, t => beginValue open_ t
  | .firstItem open_, .endArray => some (.finished (.array []) open_)
  | .firstItem open_, t => beginValue (.array [] :: open_) t
  | .firstKey open_, .endObject => some (.finished (.object []) open_)
  | .firstKey open_, .string s => some (.colon [] s open_)
  | .key members open_, .string s => some (.colon members s open_)
  | .colon members s open_, .colon => some (.value (.object members s :: open_))
  | .finished t (.array items :: open_), .comma => some (.value (.array (t :: items) :: open_))
  | .finished t (.array items :: open_), .endArray =>
    some (.finished (.array (t :: items).reverse) open_)
  | .finished t (.object members s :: open_), .comma => some (.key ((s, t) :: members) open_)
  | .finished t (.object members s :: open_), .endObject =>
    some (.finished (.object ((s, t) :: members).reverse) open_)
  | _, _ => none

/-- All tokens that are left. -/
def run : Progress → List Token → Option Progress
  | p, [] => some p
  | p, t :: ts =>
    match advance p t with
    | some p => run p ts
    | none => none

end Progress

namespace Tree

/-- The tree of a list of tokens. -/
def ofTokens? (tokens : List Token) : Option Tree :=
  match Progress.run (.value []) tokens with
  | some (.finished t []) => some t
  | _ => none

/-- The tree of a text. -/
def parse? (text : String) : Option Tree :=
  (Token.scan text).bind ofTokens?

end Tree

end LayeredDrawing.Json
