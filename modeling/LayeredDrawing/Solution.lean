import LayeredDrawing.Coordinates
import LayeredDrawing.Digraph.Ranking
import LayeredDrawing.Layering.Ordering
import LayeredDrawing.Options
import LayeredDrawing.SizedGraph

/-!
# Solutions

`solve` lays out a graph in four steps: cycles are broken, nodes are ranked, the ranks are
ordered, and the nodes get coordinates in the frame of the ranks, which is then turned into the
direction of the drawing. The result is a `Solution` with one placement for each node.
-/

namespace LayeredDrawing

variable {α : Type}

/-- The place of a node: the center and the size of its box, its rank, and its position within
the rank. -/
structure Placement (α : Type) where
  center : Point α
  size : Size α
  rank : Nat
  order : Nat
  deriving DecidableEq, Repr

namespace Placement

/-- The box of a node. -/
def box [Scalar α] (p : Placement α) : Box α := .ofCenter p.center p.size

/-- The top-left corner of the box. -/
def topLeft [Scalar α] (p : Placement α) : Point α := p.box.topLeft

end Placement

/-- The placements of the nodes of a graph by name, in the order of the nodes, and the number
of crossings between adjacent ranks. -/
structure Solution (α : Type) where
  placements : List (String × Placement α)
  crossings : Nat
  deriving DecidableEq, Repr

namespace Solution

/-- The placement of a node. -/
def get? (s : Solution α) (id : String) : Option (Placement α) := s.placements.lookup id

/-- The number of ranks. -/
def rankCount (s : Solution α) : Nat :=
  s.placements.foldl (fun n p => max n (p.2.rank + 1)) 0

/-- The names of the nodes of each rank, in their order. -/
def ranks (s : Solution α) : List (List String) :=
  (List.range s.rankCount).map fun r =>
    let members := s.placements.filter (·.2.rank == r)
    (members.mergeSort fun a b => a.2.order ≤ b.2.order).map (·.1)

/-- The smallest box around all nodes, if there are any. -/
def bounds? [Scalar α] (s : Solution α) : Option (Box α) :=
  Box.enclosing? (s.placements.map (·.2.box))

end Solution

/-! ## The frame and the direction of a drawing -/

/-- The distances of a drawing in the frame of its ranks. -/
def Options.spacing (o : Options α) : Spacing α where
  nodeSep := o.nodeSep
  rankSep := o.rankSep
  crossMargin := if o.direction.isVertical then o.marginX else o.marginY
  rankMargin := if o.direction.isVertical then o.marginY else o.marginX
  alignmentPasses := o.alignmentPasses

/-- The extents of a box in the frame of the ranks: along the cross axis and along the rank
axis. -/
def Direction.extents (d : Direction) (s : Size α) : Size α :=
  if d.isVertical then s else s.transpose

/-- A point of the frame in the direction of the drawing. `turn` is the sum of the coordinates
of a point and of its image when the rank axis is turned round. -/
def Direction.place [Scalar α] (d : Direction) (turn : α) (p : Point α) : Point α :=
  let p := if d.isReversed then { p with y := turn - p.y } else p
  if d.isVertical then p else p.transpose

/-! ## The layout -/

/-- The placements of the nodes of a graph, given the ranks of the acyclic graph. -/
def solveRanked [Scalar α] (o : Options α) (g : SizedGraph α) (ranks : Array Nat) :
    Solution α :=
  let acyclic := g.graph.acyclic
  let best := (Layering.ofRanks ranks acyclic).minimizeCrossings o.orderingPasses α
  let spacing := o.spacing
  let extents := (g.nodes.map fun n => o.direction.extents n.size).toArray
  let frame := Coordinates.assign best.layers extents acyclic spacing
  let order := Layers.positions g.nodes.length best.layers
  -- A rank axis turned round stays between the margin and the end of the last rank.
  let turn := Scalar.ofNat 2 * spacing.rankMargin + frame.rankSpan
  { placements := g.nodes.zipIdx.map fun (n, i) => (n.id, {
      center := o.direction.place turn (frame.centers.getD i Point.origin)
      size := n.size
      rank := ranks.getD i 0
      order := order.getD i 0 })
    crossings := best.crossings }

/-- The layout of a graph. The options are taken as they are. -/
def solve [Scalar α] (o : Options α) (g : SizedGraph α) : Except LayoutError (Solution α) :=
  if g.nodes.isEmpty then .ok ⟨[], 0⟩
  else
    match g.graph.acyclic.ranks with
    | .ok ranks => .ok (solveRanked o g ranks)
    | .error v => .error (.cycleThrough v)

end LayeredDrawing
