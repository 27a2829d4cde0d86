import LayeredDrawing.Json.Diagram

/-!
# Editor documents

A document holds a diagram and everything else that an editor stores with it. Members of the
document, of its nodes and of its edges that a layout does not understand are kept as values,
so that a document can be written back with nothing changed but the positions of its nodes
(`Document.withNodes`).

A node of a document is a node of a diagram whose data are all the rest of it, and an edge of a
document is an edge of a diagram with other members.
-/

namespace LayeredDrawing

open Json

/-- The members of an object that are kept without being understood. -/
abbrev OtherMembers := List (String × Value)

/-- What a document stores with a node beside its place and its size. -/
structure NodeContent where
  data : Value
  others : OtherMembers
  deriving BEq, Repr

/-- A node of a document. -/
abbrev EditorNode := Node Float32 NodeContent

/-- An edge of a document. -/
structure EditorEdge extends Edge where
  others : OtherMembers
  deriving BEq, Repr

/-- A diagram as an editor stores it. -/
structure Document where
  nodes : List EditorNode
  edges : List EditorEdge
  others : OtherMembers
  deriving BEq, Repr

/-! ## Reading -/

/-- The members that are kept, read as values within the depth. -/
def OtherMembers.ofTrees? (depth : Nat) (members : List (String × Tree)) :
    Option OtherMembers := do
  let values ← members.mapM fun (key, t) => (Value.ofTree? depth t).map (key, ·)
  return sortMembers values

/-- The depth left for a value inside a document. -/
def Document.depthInside : Nat := maxDepth - 1

/-- The depth left for a value inside a node or an edge of a document. -/
def Document.depthInsidePart : Nat := maxDepth - 3

/-- A node from its object; only its name is required. -/
def EditorNode.ofTree? (t : Tree) : Option EditorNode :=
  match t.openFields? ["id", "data", "position", "measured"] with
  | some ([some id, data, position, measured], others) => do
    return {
      id := ← id.string?
      data := {
        data := ← orDefault? .null (Value.ofTree? Document.depthInsidePart) data
        others := ← OtherMembers.ofTrees? Document.depthInsidePart others }
      position := ← orDefault? Point.origin Point.ofTree? position
      measured := ← orDefault? none (Tree.nullable? Size.ofTree?) measured }
  | _ => none

/-- An edge from its object; its name and its ends are required. -/
def EditorEdge.ofTree? (t : Tree) : Option EditorEdge :=
  match t.openFields? ["id", "source", "target"] with
  | some ([some id, some source, some target], others) => do
    return {
      id := ← id.string?
      source := ← source.string?
      target := ← target.string?
      others := ← OtherMembers.ofTrees? Document.depthInsidePart others }
  | _ => none

namespace Document

/-- A document from its object; without nodes or edges it has none. -/
def ofTree? (t : Tree) : Option Document :=
  match t.openFields? ["nodes", "edges"] with
  | some ([nodes, edges], others) => do
    return {
      nodes := ← orDefault? [] (Tree.list? EditorNode.ofTree?) nodes
      edges := ← orDefault? [] (Tree.list? EditorEdge.ofTree?) edges
      others := ← OtherMembers.ofTrees? depthInside others }
  | _ => none

/-- The document of a text. -/
def parse? (text : String) : Option Document := (Tree.parse? text).bind ofTree?

end Document

/-! ## Writing -/

/-- The object of a node; data that are `null` and a size that was not measured are left
out. -/
def EditorNode.toValue (n : EditorNode) : Value :=
  let data := if n.data.data.isNull then [] else [("data", n.data.data)]
  let measured := (n.measured.map fun s => ("measured", s.toValue)).toList
  .object ([("id", .string n.id)] ++ data ++ [("position", n.position.toValue)] ++ measured ++
    n.data.others)

/-- The object of an edge. -/
def EditorEdge.toValue (e : EditorEdge) : Value :=
  .object ([("id", .string e.id), ("source", .string e.source), ("target", .string e.target)] ++
    e.others)

namespace Document

/-- The object of a document. -/
def toValue (d : Document) : Value :=
  .object ([("nodes", .array (d.nodes.map EditorNode.toValue)),
    ("edges", .array (d.edges.map EditorEdge.toValue))] ++ d.others)

/-- The text of a document in a file, with a line for each member. -/
def text (d : Document) : String := d.toValue.pretty 0 ++ "\n"

/-! ## The diagram of a document -/

/-- The edges of the diagram. -/
def diagramEdges (d : Document) : List Edge := d.edges.map (·.toEdge)

/-- The document with other nodes. -/
def withNodes (d : Document) (nodes : List EditorNode) : Document := { d with nodes := nodes }

end Document

end LayeredDrawing
