import LayeredDrawing.Toml.Value

/-!
# Tables in the making

A table of a TOML text may be written in several places: under its own header, by the headers
of the tables inside it and by keys with points. `Item` remembers how a table came about, since
this decides whether it may still be extended:

* `Members.openTable` and `Members.openRow` take a header `[a.b]` or `[[a.b]]`. A header may
  name a table once, and it may come after the headers of the tables inside it.
* `Members.assign` gives a value to a key, which must not have one. A key with points extends
  every table but those that have their own header, and a table that it has extended may not get
  one.
* `Members.assignUnder` does so inside the table of a header, the last row of an array of
  tables standing for the array.
-/

namespace LayeredDrawing.Toml

/-- How a table came about. -/
inductive Origin
  /-- By its own header. -/
  | header
  /-- By the header of a table inside it. -/
  | implied
  /-- By a key with points, or before it by the header of a table inside it. -/
  | points
  deriving DecidableEq, Repr

/-- What stands under a key. -/
inductive Item
  /-- A value that is complete, also an array or a table in brackets. -/
  | value (v : Value)
  /-- A table. -/
  | table (origin : Origin) (members : List (String × Item))
  /-- An array of tables under headers: its last row, and those before it (newest first). -/
  | rows (last : List (String × Item)) (earlier : List (List (String × Item)))
  deriving Repr

/-- The members of a table in the making, in the order of their first appearance. -/
abbrev Members := List (String × Item)

namespace Members

/-- The members with something else under a key that they have. -/
def replace (key : String) (item : Item) (ms : Members) : Members :=
  ms.map fun (k, old) => if k = key then (k, item) else (k, old)

/-- The members changed at the end of a path of headers; tables on the way that are missing
come about. -/
def changeAt (change : Members → Option Members) : List String → Members → Option Members
  | [], ms => change ms
  | key :: path, ms =>
    match ms.lookup key with
    | none => (changeAt change path []).map fun inner => ms ++ [(key, .table .implied inner)]
    | some (.table origin inner) =>
      (changeAt change path inner).map fun inner => ms.replace key (.table origin inner)
    | some (.rows last earlier) =>
      (changeAt change path last).map fun last => ms.replace key (.rows last earlier)
    | some (.value _) => none

/-! ## Headers -/

/-- The members with a table that has its own header. -/
def openTable (path : List String) (key : String) (ms : Members) : Option Members :=
  ms.changeAt
    (fun ms =>
      match ms.lookup key with
      | none => some (ms ++ [(key, .table .header [])])
      | some (.table .implied inner) => some (ms.replace key (.table .header inner))
      | some _ => none)
    path

/-- The members with one more row in an array of tables. -/
def openRow (path : List String) (key : String) (ms : Members) : Option Members :=
  ms.changeAt
    (fun ms =>
      match ms.lookup key with
      | none => some (ms ++ [(key, .rows [] [])])
      | some (.rows last earlier) => some (ms.replace key (.rows [] (last :: earlier)))
      | some _ => none)
    path

/-! ## Keys -/

/-- The members with a value under a key behind the given path of points. The last row of an
array of tables has its own header: it may be passed, but not extended itself. -/
def assign (key : String) (v : Value) : List String → Members → Option Members
  | [], ms =>
    match ms.lookup key with
    | none => some (ms ++ [(key, .value v)])
    | some _ => none
  | part :: path, ms =>
    match ms.lookup part with
    | none => (assign key v path []).map fun inner => ms ++ [(part, .table .points inner)]
    | some (.table origin inner) =>
      if origin = .header then none
      else (assign key v path inner).map fun inner => ms.replace part (.table .points inner)
    | some (.rows last earlier) =>
      if path = [] then none
      else (assign key v path last).map fun last => ms.replace part (.rows last earlier)
    | some (.value _) => none

/-- The members with a value under a key in the table of a header. -/
def assignUnder (header path : List String) (key : String) (v : Value) (ms : Members) :
    Option Members :=
  ms.changeAt (assign key v path) header

end Members

/-! ## Finished tables -/

mutual

/-- The value under a key. -/
def Item.toValue : Item → Value
  | .value v => v
  | .table _ ms => .table (membersToValues ms)
  | .rows last earlier => .array (rowsToValues earlier [.table (membersToValues last)])

/-- The members of a finished table. -/
def membersToValues : List (String × Item) → List (String × Value)
  | [] => []
  | (key, item) :: ms => (key, item.toValue) :: membersToValues ms

/-- The finished rows of an array of tables in front of the later ones. -/
def rowsToValues : List (List (String × Item)) → List Value → List Value
  | [], later => later
  | row :: earlier, later => rowsToValues earlier (.table (membersToValues row) :: later)

end

end LayeredDrawing.Toml
