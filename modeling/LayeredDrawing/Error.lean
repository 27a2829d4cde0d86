/-!
# Errors of a layout

The reasons for which a diagram is not laid out, and what is said about each.
-/

namespace LayeredDrawing

/-- The reasons for which a diagram is not laid out. -/
inductive LayoutError
  /-- An edge has an end that is no node of the diagram. -/
  | unknownNode (edge node : String)
  /-- Two nodes have the same name. -/
  | duplicateNode (id : String)
  /-- The options cannot be used. -/
  | invalidOptions (reason : String)
  /-- The layout itself went wrong. -/
  | layout (reason : String)
  deriving DecidableEq, Repr

namespace LayoutError

/-- What is said about an error. -/
def message : LayoutError → String
  | unknownNode edge node => "Edge `" ++ edge ++ "` references unknown node `" ++ node ++ "`"
  | duplicateNode id => "Duplicate node id `" ++ id ++ "`"
  | invalidOptions reason => "Invalid layout options: " ++ reason
  | layout reason => "Layout error: " ++ reason

/-- The error is one of the diagram and not of the layout. -/
def isGraphError : LayoutError → Bool
  | unknownNode .. | duplicateNode _ => true
  | invalidOptions _ | layout _ => false

/-- The error of a graph that has a cycle where it must have none. -/
def cycleThrough (node : Nat) : LayoutError :=
  layout ("Cycle through node " ++ toString node ++ " left after cycle breaking")

/-- The error of a node that a solution does not place. -/
def notPlaced (id : String) : LayoutError :=
  layout ("Placement not found for node `" ++ id ++ "`")

end LayoutError

end LayeredDrawing
