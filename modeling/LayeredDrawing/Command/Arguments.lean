import LayeredDrawing.Orientation

/-!
# Commands

What a user can ask for on the command line: to lay out a diagram, to align its nodes or to
distribute them, each time from one file to another.
-/

namespace LayeredDrawing.Command

/-- The words for what is to be done. -/
inductive Verb
  | layout
  | align
  | distribute
  deriving DecidableEq, Repr

namespace Verb

/-- The verb of a word. -/
def ofName? : String → Option Verb
  | "layout" => some layout
  | "align" => some align
  | "distribute" => some distribute
  | _ => none

end Verb

/-- What is to be done with a diagram. -/
inductive Task
  /-- A layout; distances and a direction given here go before those of the settings, and
  sizes of nodes may be read from a file. -/
  | layout (direction : Option Direction) (nodeSep rankSep : Option Float32)
      (sizes : Option String)
  | align (axis : Axis)
  | distribute (axis : Axis) (spacing : Option Float32)
  deriving Repr

/-- The arguments of a run. -/
structure Arguments where
  task : Task
  input : String
  output : String
  settings : Option String
  logLevel : String
  deriving Repr

/-- The file that is written if no other one is named. -/
def defaultOutput : String := "out.json"

/-- The level of the log if no other one is named. -/
def defaultLogLevel : String := "info"

end LayeredDrawing.Command
