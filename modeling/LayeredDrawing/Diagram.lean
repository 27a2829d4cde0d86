import LayeredDrawing.Geometry

/-!
# Nodes and edges

The parts of a diagram as its users see them: nodes and edges have names, a node carries data
of its user and may have been measured on the screen. `SizeMap` gives sizes for nodes by name.
-/

namespace LayeredDrawing

/-- A node of a diagram, with the top-left corner of its box and the size an editor measured,
if it has drawn the node. -/
structure Node (α δ : Type) where
  id : String
  data : δ
  position : Point α
  measured : Option (Size α)
  deriving BEq, Repr

/-- The node at another position. -/
def Node.movedTo {α δ : Type} (node : Node α δ) (position : Point α) : Node α δ :=
  { node with position := position }

/-- An edge of a diagram, from the node called `source` to the node called `target`. -/
structure Edge where
  id : String
  source : String
  target : String
  deriving DecidableEq, Repr

/-- An edge from a node to itself. -/
def Edge.isSelfLoop (e : Edge) : Bool := e.source == e.target

/-- Sizes by the name of the node. -/
abbrev SizeMap (α : Type) := List (String × Size α)

end LayeredDrawing
