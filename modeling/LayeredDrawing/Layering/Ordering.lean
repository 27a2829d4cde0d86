import LayeredDrawing.Digraph.Workload
import LayeredDrawing.Layering.Crossings
import LayeredDrawing.Number.Scalar

/-!
# Ordering the ranks

The order of the vertices within the ranks decides how many segments cross. The first order
comes from a depth-first walk, which puts children next to their parents (`initialLayers`).
Sweeps then go down and up in turn: each rank is sorted by the mean position of the neighbours
of its vertices in the rank before it, which keeps its order (`sweep`). The best ordering met is
kept, and the search ends early when nothing crosses any more (`minimizeCrossings`).
-/

namespace LayeredDrawing.Layering

open LayeredDrawing.Digraph (workload workload_erase)

/-! ## The first order -/

/-- The unseen vertices that a depth-first walk from a stack visits, added to those it has
visited before (newest first). -/
def walk (next : Nat → List Nat) (unseen visited : List Nat) : List Nat → List Nat
  | [] => visited.reverse
  | v :: stack =>
    if v ∈ unseen then
      let unseen' := unseen.erase v
      walk next unseen' (v :: visited) (((next v).filter (· ∈ unseen')).reverse ++ stack)
    else walk next unseen visited stack
termination_by stack => workload next unseen + stack.length
decreasing_by
  · have h := workload_erase next ‹v ∈ unseen›
    have := List.length_filter_le (· ∈ unseen.erase v) (next v)
    simp
    omega
  · simp

/-- The real vertices by rank, those of one rank by number. -/
def roots (l : Layering) : List Nat :=
  (List.range l.realCount).mergeSort fun u v => l.rankOf u ≤ l.rankOf v

/-- The layers of a list of vertices, each in the order of the list. -/
def layersOf (l : Layering) (vertices : List Nat) : Layers :=
  (List.range l.rankCount).map fun r => vertices.filter (l.rankOf · == r)

/-- The ordering of a depth-first walk down the segments, which starts from the real vertices
by rank. -/
def initialLayers (l : Layering) : Layers :=
  let below := l.segments.successorTable
  l.layersOf (walk below.at l.segments.nodes [] l.roots)

/-! ## Sweeps -/

section Sweeps

variable (α : Type) [Scalar α]

/-- The sort key of the vertex at an index of its layer: the mean of the positions of its
neighbours, or its index if it has none. -/
def barycenter (index : Nat) (positions : List Nat) : α :=
  if positions.isEmpty then Scalar.ofNat index
  else Scalar.ofNat (positions.foldr (· + ·) 0) / Scalar.ofNat positions.length

/-- A layer sorted by the mean positions of the neighbours of its vertices; vertices with equal
keys keep their order. -/
def arrange (neighbours : Nat → List Nat) (position : Array Nat) (layer : List Nat) :
    List Nat :=
  let keyed := layer.zipIdx.map fun (v, i) =>
    (v, barycenter α i ((neighbours v).map (position.getD · 0)))
  (keyed.mergeSort fun a b => Scalar.totalLE a.2 b.2).map (·.1)

/-- Each layer sorted in turn, once the layer before it has its new positions. -/
def arrangeAll (neighbours : Nat → List Nat) (position : Array Nat) : Layers → Layers
  | [] => []
  | layer :: rest =>
    let sorted := arrange α neighbours position layer
    let position := sorted.zipIdx.foldl (fun t (v, i) => t.setIfInBounds v i) position
    sorted :: arrangeAll neighbours position rest

/-- A sweep away from the first layer, which stays as it is. -/
def sweepFrom (neighbours : Nat → List Nat) (position : Array Nat) : Layers → Layers
  | [] => []
  | fixed :: rest => fixed :: arrangeAll α neighbours position rest

/-- The neighbours of every vertex above it and below it. -/
structure Neighbours where
  above : Digraph.Table
  below : Digraph.Table

/-- The neighbours of every vertex. -/
def neighbours (l : Layering) : Neighbours :=
  ⟨l.segments.predecessorTable, l.segments.successorTable⟩

/-- A sweep downwards, which sorts by the neighbours above, or upwards, which sorts by the
neighbours below. -/
def sweepAlong (l : Layering) (n : Neighbours) (downward : Bool) (layers : Layers) : Layers :=
  let position := layers.positions l.vertexCount
  if downward then sweepFrom α n.above.at position layers
  else (sweepFrom α n.below.at position layers.reverse).reverse

/-- A sweep through the ranks. -/
def sweep (l : Layering) (downward : Bool) (layers : Layers) : Layers :=
  l.sweepAlong α l.neighbours downward layers

end Sweeps

/-! ## The best ordering -/

/-- An ordering with its number of crossings. -/
structure Candidate where
  layers : Layers
  crossings : Nat

/-- At most `passes` sweeps in turns, from the given layers on, and the best candidate of all
met; of equally good ones the first. -/
def improve (α : Type) [Scalar α] (l : Layering) (n : Neighbours) :
    (passes : Nat) → (downward : Bool) → Layers → Candidate → Candidate
  | 0, _, _, best => best
  | passes + 1, downward, layers, best =>
    if best.crossings = 0 then best
    else
      let layers := l.sweepAlong α n downward layers
      let crossings := l.crossingsAlong n.below.at layers
      improve α l n passes (!downward) layers
        (if crossings < best.crossings then ⟨layers, crossings⟩ else best)

/-- The ordering of all vertices with the fewest crossings that at most `passes` sweeps
find. -/
def bestOrdering (α : Type) [Scalar α] (l : Layering) (passes : Nat) : Candidate :=
  let n := l.neighbours
  let layers := l.initialLayers
  l.improve α n passes true layers ⟨layers, l.crossingsAlong n.below.at layers⟩

/-- The ordering of the real vertices in the best ordering, with the number of crossings of
all. The means that layers are sorted by are numbers of type `α`. -/
def minimizeCrossings (l : Layering) (passes : Nat) (α : Type := Float32) [Scalar α] :
    Candidate :=
  let best := l.bestOrdering α passes
  ⟨best.layers.map fun layer => layer.filter (· < l.realCount), best.crossings⟩

end LayeredDrawing.Layering
