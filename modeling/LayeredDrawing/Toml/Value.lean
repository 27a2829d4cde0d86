/-!
# Values of a TOML text

A `Toml.Value` is what a text says, with numbers read and every table in one place. Of a date
or a time only the fact is kept that it is one.

A number may have a form that is allowed and yet no value. It does no harm where nobody looks at
it; `Value.isReadable` tells whether there is none in a value.
-/

namespace LayeredDrawing.Toml

/-- A value of a TOML text. -/
inductive Value
  | string (s : String)
  | integer (n : Int)
  | float (x : Float)
  /-- A number that is too great for its kind or lacks its digits. -/
  | unreadable
  | bool (b : Bool)
  /-- A date, a time or both. -/
  | moment
  | array (items : List Value)
  | table (members : List (String × Value))
  deriving Repr, Inhabited

mutual

/-- Every number in a value has a value itself. -/
def Value.isReadable : Value → Bool
  | .unreadable => false
  | .array items => itemsReadable items
  | .table members => membersReadable members
  | _ => true

/-- Every number in a list of values has a value itself. -/
def itemsReadable : List Value → Bool
  | [] => true
  | v :: vs => v.isReadable && itemsReadable vs

/-- Every number in the members of a table has a value itself. -/
def membersReadable : List (String × Value) → Bool
  | [] => true
  | (_, v) :: ms => v.isReadable && membersReadable ms

end

end LayeredDrawing.Toml
