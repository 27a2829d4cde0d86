import LayeredDrawing.Text

/-!
# Directions and axes

The direction in which the arcs of a drawing flow, and the axis along which nodes are aligned
or distributed, with their names. `Direction.parse` and `Axis.parse` read a name as a person
writes it, blank ends and the case of ASCII letters aside; `Direction.ofName?` and
`Axis.ofName?` accept the exact name only.
-/

namespace LayeredDrawing

/-! ## Directions -/

/-- The direction from the first rank of a drawing to the last. -/
inductive Direction
  | topToBottom
  | bottomToTop
  | leftToRight
  | rightToLeft
  deriving DecidableEq, Repr, Inhabited

namespace Direction

/-- The two-letter name. -/
def name : Direction → String
  | topToBottom => "TB"
  | bottomToTop => "BT"
  | leftToRight => "LR"
  | rightToLeft => "RL"

/-- The direction with the given name. -/
def ofName? : String → Option Direction
  | "TB" => some topToBottom
  | "BT" => some bottomToTop
  | "LR" => some leftToRight
  | "RL" => some rightToLeft
  | _ => none

/-- Ranks are stacked along y. -/
def isVertical : Direction → Bool
  | topToBottom | bottomToTop => true
  | leftToRight | rightToLeft => false

/-- The flow goes against the coordinate. -/
def isReversed : Direction → Bool
  | bottomToTop | rightToLeft => true
  | topToBottom | leftToRight => false

/-- The direction that a text names. -/
def parse (text : String) : Option Direction :=
  ofName? (Text.trim text).toUpper

/-- The complaint about a text that names no direction. -/
def unknown (text : String) : String :=
  "unknown layout direction `" ++ text ++ "`, expected one of TB, BT, LR, RL"

@[simp] theorem ofName?_name (d : Direction) : ofName? d.name = some d := by
  cases d <;> rfl

end Direction

/-! ## Axes -/

/-- An axis of the plane. -/
inductive Axis
  | horizontal
  | vertical
  deriving DecidableEq, Repr, Inhabited

namespace Axis

/-- The name of an axis. -/
def name : Axis → String
  | horizontal => "horizontal"
  | vertical => "vertical"

/-- The axis with the given name. -/
def ofName? : String → Option Axis
  | "horizontal" => some horizontal
  | "vertical" => some vertical
  | _ => none

/-- The axis that a text names. -/
def parse (text : String) : Option Axis :=
  ofName? (Text.trim text).toLower

/-- The complaint about a text that names no axis. -/
def unknown (text : String) : String :=
  "unknown axis `" ++ text ++ "`, expected `horizontal` or `vertical`"

@[simp] theorem ofName?_name (a : Axis) : ofName? a.name = some a := by
  cases a <;> rfl

end Axis

end LayeredDrawing
