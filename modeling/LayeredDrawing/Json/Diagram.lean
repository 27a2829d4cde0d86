import LayeredDrawing.Diagram
import LayeredDrawing.Json.Record
import LayeredDrawing.Record

/-!
# Diagrams and options in a document

The records of a diagram and of its options, as they are read from a tree and written as a
value: points, sizes, boxes, directions, axes, nodes, edges, size maps and options. Members are
written in the order of the fields.
-/

namespace LayeredDrawing

open Json

/-! ## Geometry -/

/-- A number of a record. -/
def Json.Value.single (x : Float32) : Value := .number (.single x)

namespace Point

/-- A point from its record. -/
def ofTree? (t : Tree) : Option (Point Float32) :=
  match t.fields? ["x", "y"] with
  | some [some x, some y] => do return ⟨← x.single?, ← y.single?⟩
  | _ => none

/-- The record of a point. -/
def toValue (p : Point Float32) : Value :=
  .object [("x", .single p.x), ("y", .single p.y)]

end Point

namespace Size

/-- A size from its record. -/
def ofTree? (t : Tree) : Option (Size Float32) :=
  match t.fields? ["width", "height"] with
  | some [some w, some h] => do return ⟨← w.single?, ← h.single?⟩
  | _ => none

/-- The record of a size. -/
def toValue (s : Size Float32) : Value :=
  .object [("width", .single s.width), ("height", .single s.height)]

end Size

namespace Box

/-- A box from its record. -/
def ofTree? (t : Tree) : Option (Box Float32) :=
  match t.fields? ["min_x", "min_y", "max_x", "max_y"] with
  | some [some a, some b, some c, some d] => do
    return ⟨← a.single?, ← b.single?, ← c.single?, ← d.single?⟩
  | _ => none

/-- The record of a box. -/
def toValue (b : Box Float32) : Value :=
  .object [("min_x", .single b.minX), ("min_y", .single b.minY), ("max_x", .single b.maxX),
    ("max_y", .single b.maxY)]

end Box

/-- Sizes by name from an object of size records; of members with one key the last counts. -/
def SizeMap.ofTree? : Tree → Option (SizeMap Float32)
  | .object members => do
    let ms ← Tree.keyed? members
    let sizes ← ms.mapM fun (k, t) => (Size.ofTree? t).map (k, ·)
    return sortMembers sizes
  | _ => none

/-! ## Orientation -/

/-- A direction from its exact name. -/
def Direction.ofTree? : Tree → Option Direction := Tree.variant? ofName?

/-- The name of a direction. -/
def Direction.toValue (d : Direction) : Value := .string d.name

/-- An axis from its exact name. -/
def Axis.ofTree? : Tree → Option Axis := Tree.variant? ofName?

/-- The name of an axis. -/
def Axis.toValue (a : Axis) : Value := .string a.name

/-! ## Nodes and edges -/

/-- The depth left for a value inside a record. -/
def Json.depthInRecord : Nat := maxDepth - 1

namespace Node

/-- A node from its record. -/
def ofTree? (t : Tree) : Option (Node Float32 Value) :=
  match t.fields? ["id", "data", "position", "measured"] with
  | some [some id, some data, position, measured] => do
    return {
      id := ← id.string?
      data := ← Value.ofTree? depthInRecord data
      position := ← orDefault? Point.origin Point.ofTree? position
      measured := ← orDefault? none (Tree.nullable? Size.ofTree?) measured }
  | _ => none

/-- The record of a node; a size that was not measured is left out. -/
def toValue (n : Node Float32 Value) : Value :=
  .object ([("id", .string n.id), ("data", n.data), ("position", n.position.toValue)] ++
    (n.measured.map fun s => ("measured", s.toValue)).toList)

end Node

namespace Edge

/-- An edge from its record. -/
def ofTree? (t : Tree) : Option Edge :=
  match t.fields? ["id", "source", "target"] with
  | some [some id, some source, some target] => do
    return ⟨← id.string?, ← source.string?, ← target.string?⟩
  | _ => none

/-- The record of an edge. -/
def toValue (e : Edge) : Value :=
  .object [("id", .string e.id), ("source", .string e.source), ("target", .string e.target)]

end Edge

/-! ## Options -/

namespace Options

/-- Options from their record; a field that is missing has its default. -/
def ofTree? (t : Tree) : Option (Options Float32) :=
  (t.fields? fieldNames).bind (ofFields? Direction.ofTree? Tree.single? Tree.count?)

/-- The record of options. -/
def toValue (o : Options Float32) : Value :=
  .object (fieldNames.zip
    [o.direction.toValue, .single o.nodeSep, .single o.rankSep, .single o.marginX,
      .single o.marginY, .single o.defaultSize.width, .single o.defaultSize.height,
      .number (.natural o.orderingPasses), .number (.natural o.alignmentPasses)])

end Options

end LayeredDrawing
