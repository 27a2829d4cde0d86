import LayeredDrawing.Geometry
import LayeredDrawing.Layering.Basic

/-!
# Coordinates

The nodes of an ordered drawing get centers in a frame whose cross axis runs along a rank and
whose rank axis runs from the first rank to the last.

Along the cross axis each rank is first packed with the required gaps and centered on the
widest one (`packLayers`). Then the ranks are aligned in rounds, down and up: every node would
like to be at the mean of its neighbours in the rank before, and `alignLayer` resolves the
conflicts twice, pushing nodes to the right and pushing them to the left, and takes the middle
of both. Rounds end when no node moves noticeably. At last everything is shifted so that the
least box edge is on the margin.

Along the rank axis the ranks are stacked, each as thick as its thickest node (`stackRanks`).
-/

namespace LayeredDrawing

variable {α : Type}

/-- The distances of a drawing in the frame of its ranks, and the number of alignment
rounds. -/
structure Spacing (α : Type) where
  nodeSep : α
  rankSep : α
  crossMargin : α
  rankMargin : α
  alignmentPasses : Nat

namespace Coordinates

variable [Scalar α]

/-- A member of a table of numbers, zero outside of it. -/
def get (table : Array α) (v : Nat) : α := table.getD v Scalar.zero

/-! ## Packing -/

/-- The extent of a packed layer. -/
def packedWidth (sep : α) (extent : Nat → α) (layer : List Nat) : α :=
  Scalar.sum (layer.map extent) + sep * Scalar.ofNat (layer.length - 1)

/-- The centers of the nodes of a layer packed from a cursor on, set in a table. -/
def packFrom (sep : α) (extent : Nat → α) (cursor : α) (cross : Array α) :
    List Nat → Array α
  | [] => cross
  | v :: rest =>
    packFrom sep extent (cursor + (extent v + sep))
      (cross.setIfInBounds v (cursor + Scalar.half (extent v))) rest

/-- The centers of the nodes of all layers, each packed and centered on the widest. -/
def packLayers (sep : α) (extent : Nat → α) (size : Nat) (layers : Layers) : Array α :=
  let widest := Scalar.largest (layers.map (packedWidth sep extent))
  layers.foldl
    (fun cross layer =>
      packFrom sep extent (Scalar.half (widest - packedWidth sep extent layer)) cross layer)
    (Array.replicate size Scalar.zero)

/-! ## Alignment -/

/-- A node of a layer that is being aligned: its extent and the center it would like to
have. -/
structure Wish (α : Type) where
  extent : α
  center : α

/-- The distance that the centers of two nodes next to each other have to keep. -/
def gap (sep : α) (u v : Wish α) : α :=
  Scalar.half (u.extent + v.extent) + sep

/-- The centers to the right of a node with a given center, each pushed right as far as its
left neighbour demands. -/
def pushRightOf (sep : α) (u : Wish α) (center : α) : List (Wish α) → List α
  | [] => []
  | v :: rest =>
    let pushed := Scalar.larger v.center (center + gap sep u v)
    pushed :: pushRightOf sep v pushed rest

/-- The centers of a layer, each pushed right as far as its left neighbour demands. -/
def pushRight (sep : α) : List (Wish α) → List α
  | [] => []
  | u :: rest => u.center :: pushRightOf sep u u.center rest

/-- The centers of a layer, each pushed left as far as its right neighbour demands. -/
def pushLeft (sep : α) : List (Wish α) → List α
  | [] => []
  | [u] => [u.center]
  | u :: v :: rest =>
    match pushLeft sep (v :: rest) with
    | [] => []
    | center :: centers =>
      Scalar.smaller u.center (center - gap sep u v) :: center :: centers

/-- The middle between the centers pushed right and those pushed left. -/
def resolve (sep : α) (wishes : List (Wish α)) : List α :=
  (pushRight sep wishes).zipWith (fun r l => Scalar.half (r + l)) (pushLeft sep wishes)

/-- The least movement that counts as one: a tenth of a unit. -/
def noticeable : α := Scalar.ofNat 1 / Scalar.ofNat 10

/-- The distance of two numbers is noticeable. -/
def movesFrom (old new : α) : Bool :=
  Scalar.lt noticeable (new - old) || Scalar.lt noticeable (old - new)

/-- The centers during alignment, and whether a node has moved noticeably in this round. -/
structure Alignment (α : Type) where
  cross : Array α
  moved : Bool

/-- One node at its new center. -/
def Alignment.place (a : Alignment α) (v : Nat) (center : α) : Alignment α where
  cross := a.cross.setIfInBounds v center
  moved := a.moved || movesFrom (get a.cross v) center

/-- The center that a node would like to have: the mean of its neighbours, or its own if it
has none. -/
def wish (neighbours : Nat → List Nat) (cross : Array α) (v : Nat) : α :=
  (Scalar.mean? ((neighbours v).map (get cross))).getD (get cross v)

/-- The nodes of a layer moved towards the means of their neighbours, as far as their order
and their gaps allow. -/
def alignLayer (sep : α) (extent : Nat → α) (neighbours : Nat → List Nat)
    (a : Alignment α) (layer : List Nat) : Alignment α :=
  let wishes := layer.map fun v => ⟨extent v, wish neighbours a.cross v⟩
  (layer.zip (resolve sep wishes)).foldl (fun a (v, center) => a.place v center) a

/-- One round: every layer but the first is aligned with the one above it, and then every
layer but the last with the one below it, from the last to the first. -/
def alignRound (sep : α) (extent : Nat → α) (above below : Nat → List Nat)
    (layers : Layers) (cross : Array α) : Alignment α :=
  let down := (layers.drop 1).foldl (alignLayer sep extent above) ⟨cross, false⟩
  (layers.reverse.drop 1).foldl (alignLayer sep extent below) down

/-- At most `passes` rounds; one in which nothing moves noticeably is the last. -/
def alignLayers (sep : α) (extent : Nat → α) (above below : Nat → List Nat)
    (layers : Layers) : (passes : Nat) → Array α → Array α
  | 0, cross => cross
  | passes + 1, cross =>
    let a := alignRound sep extent above below layers cross
    if a.moved then alignLayers sep extent above below layers passes a.cross else a.cross

/-! ## The frame -/

/-- The shift that puts the least box edge on the margin; there is none if no node has a finite
edge. -/
def shift (margin : α) (extent : Nat → α) (layers : Layers) (cross : Array α) : α :=
  match Scalar.least? (layers.flatten.map fun v => get cross v - Scalar.half (extent v)) with
  | some edge => if Scalar.isFinite edge then margin - edge else Scalar.zero
  | none => Scalar.zero

/-- The centers of ranks of the given thicknesses below a cursor, and the end of the last
one. -/
def stackBelow (sep : α) (cursor : α) : List α → List α × α
  | [] => ([], cursor)
  | t :: rest =>
    let start := cursor + sep
    let (centers, last) := stackBelow sep (start + t) rest
    ((start + Scalar.half t) :: centers, last)

/-- The centers of ranks of the given thicknesses, the first of which starts on the margin, and
the end of the last one. -/
def stackRanks (sep margin : α) : List α → List α × α
  | [] => ([], margin)
  | t :: rest =>
    let (centers, last) := stackBelow sep (margin + t) rest
    ((margin + Scalar.half t) :: centers, last)

/-- Centers in the frame of the ranks, `x` along the cross axis and `y` along the rank axis,
and the distance from the start of the first rank to the end of the last. -/
structure Frame (α : Type) where
  centers : Array (Point α)
  rankSpan : α

/-- The centers of all nodes. The extents of a node are its width along the cross axis and its
height along the rank axis, and arcs lead to higher ranks. -/
def assign (layers : Layers) (extents : Array (Size α)) (g : Digraph) (spacing : Spacing α) :
    Frame α :=
  let above := g.predecessorTable
  let below := g.successorTable
  let width := fun v => (extents[v]?.map Size.width).getD Scalar.zero
  let height := fun v => (extents[v]?.map Size.height).getD Scalar.zero
  let cross := alignLayers spacing.nodeSep width above.at below.at layers
    spacing.alignmentPasses (packLayers spacing.nodeSep width extents.size layers)
  let offset := shift spacing.crossMargin width layers cross
  let (rankCenters, last) := stackRanks spacing.rankSep spacing.rankMargin
    (layers.map fun layer => Scalar.largest (layer.map height))
  { centers := (layers.zip rankCenters).foldl
      (fun centers (layer, y) =>
        layer.foldl (fun t v => t.setIfInBounds v ⟨get cross v + offset, y⟩) centers)
      (Array.replicate extents.size Point.origin)
    rankSpan := last - spacing.rankMargin }

end Coordinates

end LayeredDrawing
