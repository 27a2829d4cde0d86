import LayeredDrawing.Digraph.Basic
import LayeredDrawing.Digraph.Workload

/-!
# Depth-first search

A depth-first search walks along arcs as long as they lead to nodes that it has not seen, and
goes back where they do not. The nodes it has entered and not yet left form the `path` from a
root to the node it is at. An arc to a node of the path closes a cycle: it is a back arc, and
`backArcs` collects all of them. Without its back arcs a graph has no cycle.
-/

namespace LayeredDrawing.Digraph

/-- The state of a search between two roots: the nodes it has not seen, and the back arcs it
has found. -/
structure Search where
  unseen : List Nat
  backArcs : List Arc

/-- The search from the end of a path, given with the targets that its nodes have still to
look at, deepest node first. -/
def explore (next : Nat → List Nat) (s : Search) : List (Nat × List Nat) → Search
  | [] => s
  | (_, []) :: path => explore next s path
  | (v, w :: ws) :: path =>
    if w ∈ s.unseen then
      explore next { s with unseen := s.unseen.erase w } ((w, next w) :: (v, ws) :: path)
    else if w = v ∨ w ∈ path.map (·.1) then
      explore next { s with backArcs := ⟨v, w⟩ :: s.backArcs } ((v, ws) :: path)
    else explore next s ((v, ws) :: path)
termination_by path => workload next s.unseen + pathload path
decreasing_by
  · simp only [pathload]
    omega
  · have := workload_erase next ‹w ∈ s.unseen›
    simp only [pathload, List.length_cons]
    omega
  · simp only [pathload, List.length_cons]
    omega
  · simp only [pathload, List.length_cons]
    omega

/-- The search from a root, which is only searched from if it has not been seen before. -/
def exploreFrom (next : Nat → List Nat) (s : Search) (root : Nat) : Search :=
  if root ∈ s.unseen then
    explore next { s with unseen := s.unseen.erase root } [(root, next root)]
  else s

/-- The nodes that no arc enters from another node. -/
def sources (g : Digraph) : List Nat :=
  g.nodes.filter fun v => g.arcs.all fun a => a.target != v || a.source == v

/-- The back arcs of the search that starts from the sources, and then from every node that is
still unseen. -/
def backArcs (g : Digraph) : List Arc :=
  let table := g.successorTable
  ((g.sources ++ g.nodes).foldl (exploreFrom table.at) ⟨g.nodes, []⟩).backArcs

end LayeredDrawing.Digraph
