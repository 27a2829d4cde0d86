import LayeredDrawing.Layering.Basic

/-!
# Crossings

Two segments between the same two ranks cross if their upper ends and their lower ends are in
opposite order. `Layering.crossings` counts the crossing pairs of an ordering.
-/

namespace LayeredDrawing

/-- A segment by the positions of its ends: above and below. -/
abbrev Strand := Nat × Nat

namespace Strand

/-- The ends of two strands are in strictly opposite order. -/
def crosses (s t : Strand) : Bool :=
  (s.1 < t.1 && t.2 < s.2) || (t.1 < s.1 && s.2 < t.2)

/-- The number of pairs of strands that cross. -/
def countCrossings : List Strand → Nat
  | [] => 0
  | s :: rest => rest.countP s.crosses + countCrossings rest

end Strand

namespace Layering

/-- The strands of the segments that leave the vertices of a layer downwards. -/
def strands (next : Nat → List Nat) (position : Array Nat) (layer : List Nat) : List Strand :=
  layer.flatMap fun u => (next u).map fun w => (position.getD u 0, position.getD w 0)

/-- The number of crossings of an ordering, with the neighbours below each vertex given. -/
def crossingsAlong (l : Layering) (below : Nat → List Nat) (layers : Layers) : Nat :=
  let position := layers.positions l.vertexCount
  let counts := layers.dropLast.map (Strand.countCrossings ∘ strands below position)
  counts.foldr (· + ·) 0

/-- The number of crossings of an ordering. -/
def crossings (l : Layering) (layers : Layers) : Nat :=
  let below := l.segments.successorTable
  l.crossingsAlong below.at layers

end Layering

end LayeredDrawing
