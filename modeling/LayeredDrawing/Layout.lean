import LayeredDrawing.Solution

/-!
# Layouts of diagrams

`Layout.compute` checks the options, builds the graph of a diagram, solves it and moves the
nodes to their places. Nothing of a node but its position changes, and nothing of the edges.
-/

namespace LayeredDrawing

/-- A diagram that has been laid out. -/
structure Layout (δ : Type) where
  nodes : List (Node Float32 δ)
  edges : List Edge
  solution : Solution Float32

variable {α δ : Type}

/-- The nodes at the top-left corners of their boxes; a node that is not in the solution is an
error. -/
def placeNodes [Scalar α] (solution : Solution α) :
    List (Node α δ) → Except LayoutError (List (Node α δ))
  | [] => .ok []
  | node :: rest =>
    match solution.get? node.id with
    | none => .error (.notPlaced node.id)
    | some p =>
      match placeNodes solution rest with
      | .error err => .error err
      | .ok placed => .ok (node.movedTo p.topLeft :: placed)

/-- The layout of a diagram. -/
def Layout.compute (o : Options Float32) (nodes : List (Node Float32 δ)) (edges : List Edge)
    (sizes : Option (SizeMap Float32)) : Except LayoutError (Layout δ) :=
  match o.check with
  | .error f => .error (.invalidOptions f.message)
  | .ok () =>
    match SizedGraph.build nodes edges sizes o.defaultSize with
    | .error err => .error err
    | .ok g =>
      match solve o g with
      | .error err => .error err
      | .ok solution =>
        match placeNodes solution nodes with
        | .error err => .error err
        | .ok placed => .ok ⟨placed, edges, solution⟩

end LayeredDrawing
