import LayeredDrawing.Json.Value

/-!
# Records in a document

A record with named fields is written as an object, in which members with other names are
ignored, or as an array that gives the fields in their order and may be cut short.
`Tree.fields?` finds the parts of both. A record that keeps what it does not know has to be an
object (`Tree.openFields?`).
-/

namespace LayeredDrawing.Json

namespace Tree

/-- The members of an object with their keys decoded. -/
def keyed? : List (StringText × Tree) → Option (List (String × Tree))
  | [] => some []
  | (key, t) :: rest =>
    match key.decode, keyed? rest with
    | some k, some ms => some ((k, t) :: ms)
    | _, _ => none

/-- The members with a given name. -/
def named (name : String) (members : List (String × Tree)) : List Tree :=
  (members.filter (·.1 == name)).map (·.2)

/-- The parts of the members with the given names, unless a name occurs twice. -/
def pick? (names : List String) (members : List (String × Tree)) : Option (List (Option Tree)) :=
  names.mapM fun name =>
    match named name members with
    | [] => some none
    | [t] => some (some t)
    | _ => none

/-- The parts of a record with the given fields; a field that is missing has none. -/
def fields? (names : List String) : Tree → Option (List (Option Tree))
  | .array items =>
    if items.length ≤ names.length then
      some (items.map some ++ List.replicate (names.length - items.length) none)
    else none
  | .object members => (keyed? members).bind (pick? names)
  | _ => none

/-- The parts of a record with the given fields, and its other members; it has to be an
object. -/
def openFields? (names : List String) :
    Tree → Option (List (Option Tree) × List (String × Tree))
  | .object members =>
    match keyed? members with
    | none => none
    | some ms => (pick? names ms).map fun parts => (parts, ms.filter (!names.contains ·.1))
  | _ => none

/-! ## Parts -/

/-- A string. -/
def string? : Tree → Option String
  | .string s => s.decode
  | _ => none

/-- The nearest single-precision number of a number. -/
def single? : Tree → Option Float32
  | .number n => n.toNumber?.map Number.toSingle
  | _ => none

/-- A count of at most 64 bits. -/
def count? : Tree → Option Nat
  | .number n => n.toNumber?.bind Number.toCount?
  | _ => none

/-- The items of an array, all of which have to be readable. -/
def list? {β : Type} (read : Tree → Option β) : Tree → Option (List β)
  | .array items => items.mapM read
  | _ => none

/-- A part that may be `null`. -/
def nullable? {β : Type} (read : Tree → Option β) : Tree → Option (Option β)
  | .null => some none
  | t => (read t).map some

/-- A name of an enumeration, written as a string or as the only key of an object, with the
value `null`. -/
def variant? {β : Type} (ofName? : String → Option β) : Tree → Option β
  | .string s => s.decode.bind ofName?
  | .object [(key, .null)] => key.decode.bind ofName?
  | _ => none

end Tree

end LayeredDrawing.Json
