import LayeredDrawing.Diagram
import LayeredDrawing.Digraph.Basic
import LayeredDrawing.Error

/-!
# The graph of a diagram

`SizedGraph.build` turns nodes and edges with names into a graph on numbers: node `i` of the
graph is the `i`-th node of the diagram, with the size it will be laid out with, and arc `j` is
the `j`-th edge. It fails for a name that two nodes share and for an edge without one of its
ends.
-/

namespace LayeredDrawing

variable {α δ : Type}

/-- A node of a graph to be laid out. -/
structure SizedNode (α : Type) where
  id : String
  size : Size α
  deriving DecidableEq, Repr

/-- A graph to be laid out. -/
structure SizedGraph (α : Type) where
  nodes : List (SizedNode α)
  graph : Digraph
  size_graph : graph.size = nodes.length

namespace SizedGraph

/-- The size of a node: the first that can be laid out of its entry in the size map and its
measured size, and else the default. -/
def resolveSize [Scalar α] (sizes : Option (SizeMap α)) (default : Size α) (node : Node α δ) :
    Size α :=
  let fromMap := ((sizes.getD []).lookup node.id).filter (·.isMeasurable)
  let measured := node.measured.filter (·.isMeasurable)
  (fromMap.or measured).getD default

/-- The first name that occurs in a list after it occurred among the names before. -/
def duplicate? : (before : List String) → List String → Option String
  | _, [] => none
  | before, id :: ids => if id ∈ before then some id else duplicate? (id :: before) ids

/-- The arc of an edge between named nodes. -/
def arcOf (ids : List String) (e : Edge) : Except LayoutError Arc :=
  match ids.idxOf? e.source with
  | none => .error (.unknownNode e.id e.source)
  | some s =>
    match ids.idxOf? e.target with
    | none => .error (.unknownNode e.id e.target)
    | some t => .ok ⟨s, t⟩

/-- The arcs of edges between named nodes; the first edge without one of its ends is an
error. -/
def arcsOf (ids : List String) : List Edge → Except LayoutError (List Arc)
  | [] => .ok []
  | e :: es =>
    match arcOf ids e with
    | .error err => .error err
    | .ok a =>
      match arcsOf ids es with
      | .error err => .error err
      | .ok as => .ok (a :: as)

/-- The graph of a diagram. -/
def build [Scalar α] (nodes : List (Node α δ)) (edges : List Edge)
    (sizes : Option (SizeMap α)) (default : Size α) : Except LayoutError (SizedGraph α) :=
  let ids := nodes.map (·.id)
  match duplicate? [] ids with
  | some id => .error (.duplicateNode id)
  | none =>
    match arcsOf ids edges with
    | .error err => .error err
    | .ok arcs => .ok {
        nodes := nodes.map fun n => ⟨n.id, resolveSize sizes default n⟩
        graph := .ofArcs nodes.length arcs
        size_graph := by simp [Digraph.ofArcs] }

end SizedGraph

end LayeredDrawing
