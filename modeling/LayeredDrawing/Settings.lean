import LayeredDrawing.Arrange
import LayeredDrawing.Error
import LayeredDrawing.Record
import LayeredDrawing.Toml.Reader

/-!
# Settings

The settings of a user: the options of a layout and the step of a distribution. A settings file
gives them as the TOML tables `layout` and `arrange`, each of which may also be an array with
the fields in their order. What a file does not name keeps its default, and what it names
without meaning is ignored.

`Settings.check` accepts options without a fault and a finite step.
-/

namespace LayeredDrawing

/-- The settings of a user. -/
structure Settings where
  layout : Options Float32
  spacing : Float32
  deriving Repr

/-- What is wrong with settings. -/
inductive SettingsFault
  | layout (fault : OptionFault Float32)
  /-- A step that is not finite. -/
  | spacing (value : Float32)
  deriving Repr

/-- The complaint about a fault. -/
def SettingsFault.message : SettingsFault → String
  | layout fault => (LayoutError.invalidOptions fault.message).message
  | spacing value => "arrange.spacing must be finite, got " ++ Single.text value

/-! ## Fields of a table -/

namespace Toml.Value

/-- The values of the given fields in a table, in an array or in a moment, which has none of
them. What else is in a table has to be readable; what else is in an array does not matter. -/
def fields? (names : List String) : Value → Option (List (Option Value))
  | .table members =>
    if members.all fun (name, v) => name ∈ names || v.isReadable then
      some (names.map fun name => members.lookup name)
    else none
  | .array items =>
    let items := (items.take names.length).map some
    some (items ++ List.replicate (names.length - items.length) none)
  | .moment => some (names.map fun _ => none)
  | _ => none

/-- The nearest single-precision number of a float or of an integer of at most 64 bits. -/
def single? : Value → Option Float32
  | .float x => some (Single.ofDouble x)
  | .integer n =>
    if -0x8000000000000000 ≤ n ∧ n < 0x10000000000000000 then some (Single.ofInt n) else none
  | _ => none

/-- A count of at most 64 bits. -/
def count? : Value → Option Nat
  | .integer n => if 0 ≤ n ∧ n < 0x10000000000000000 then some n.toNat else none
  | _ => none

/-- A direction by its exact name, or by a table with this name as its only key and nothing
behind it. -/
def direction? : Value → Option Direction
  | .string s => Direction.ofName? s
  | .table [(key, .table [])] => Direction.ofName? key
  | .table [(key, .array [])] => Direction.ofName? key
  | _ => none

end Toml.Value

/-! ## Reading -/

open Toml.Value (single? count? direction?)

/-- Options from the table `layout`. -/
def Options.ofToml? (v : Toml.Value) : Option (Options Float32) :=
  (v.fields? fieldNames).bind (ofFields? direction? single? count?)

namespace Settings

/-- The settings of a user who has none of their own. -/
def default : Settings := ⟨Options.default, defaultDistributionSpacing⟩

/-- The step of a distribution from the table `arrange`. -/
def spacingOfToml? (v : Toml.Value) : Option Float32 :=
  match v.fields? ["spacing"] with
  | some [spacing] => orDefault? default.spacing single? spacing
  | _ => none

/-- Settings from the table of a file. -/
def ofToml? (v : Toml.Value) : Option Settings :=
  match v.fields? ["layout", "arrange"] with
  | some [layout, arrange] => do
    return {
      layout := ← orDefault? default.layout Options.ofToml? layout
      spacing := ← orDefault? default.spacing spacingOfToml? arrange }
  | _ => none

/-- The settings of a text. -/
def parse? (text : String) : Option Settings := (Toml.Value.parse? text).bind ofToml?

/-! ## Checking -/

/-- Accepts settings without a fault. -/
def check (s : Settings) : Except SettingsFault Unit :=
  match s.layout.fault? with
  | some f => .error (.layout f)
  | none => if Scalar.isFinite s.spacing then .ok () else .error (.spacing s.spacing)

end Settings

end LayeredDrawing
