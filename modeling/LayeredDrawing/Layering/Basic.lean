import LayeredDrawing.Digraph.Basic

/-!
# Proper layerings

A ranked graph is made proper by virtual vertices: an arc that crosses several ranks becomes a
path of segments with one virtual vertex in each rank on its way, so that every segment joins
adjacent ranks. The vertices below `realCount` are the nodes of the graph; the virtual ones are
numbered after them, arc by arc and from low to high rank.

`Layers` is the type of orderings of a layering: for each rank the list of its vertices.
-/

namespace LayeredDrawing

/-- The vertices of each rank in their order, first rank first. -/
abbrev Layers := List (List Nat)

/-- A ranked graph whose arcs are split into segments. -/
structure Layering where
  realCount : Nat
  ranks : Array Nat
  segments : Digraph
  rankCount : Nat

namespace Layering

/-- The arcs between consecutive members of a list. -/
def path (vertices : List Nat) : List Arc :=
  vertices.zipWith Arc.mk vertices.tail

/-- The ranks strictly between two ranks. -/
def ranksBetween (low high : Nat) : List Nat :=
  List.range' (low + 1) (high - (low + 1))

/-- Ranks of the vertices met so far and the segments between them. -/
structure Splitting where
  ranks : Array Nat
  segments : List Arc

/-- One more arc, split by a virtual vertex in each rank strictly between those of its
ends. -/
def Splitting.addArc (s : Splitting) (a : Arc) : Splitting :=
  let between := ranksBetween (s.ranks.getD a.source 0) (s.ranks.getD a.target 0)
  let virtual := List.range' s.ranks.size between.length
  { ranks := s.ranks ++ between.toArray
    segments := s.segments ++ path (a.source :: virtual ++ [a.target]) }

/-- The layering of a graph whose arcs lead to higher ranks. -/
def ofRanks (ranks : Array Nat) (g : Digraph) : Layering :=
  let s := g.arcs.foldl Splitting.addArc ⟨ranks, []⟩
  { realCount := ranks.size
    ranks := s.ranks
    segments := .ofArcs s.ranks.size s.segments
    rankCount := ranks.foldl (fun n r => max n (r + 1)) 0 }

/-- The rank of a vertex. -/
def rankOf (l : Layering) (v : Nat) : Nat := l.ranks.getD v 0

/-- The number of vertices. -/
def vertexCount (l : Layering) : Nat := l.segments.size

/-- The number of virtual vertices. -/
def virtualCount (l : Layering) : Nat := l.vertexCount - l.realCount

end Layering

/-- The index of each vertex in its layer, as a table of `size` entries. -/
def Layers.positions (size : Nat) (layers : Layers) : Array Nat :=
  layers.foldl
    (fun table layer => layer.zipIdx.foldl (fun t (v, i) => t.setIfInBounds v i) table)
    (Array.replicate size 0)

end LayeredDrawing
