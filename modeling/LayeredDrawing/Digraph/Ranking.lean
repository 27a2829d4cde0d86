import LayeredDrawing.Digraph.DepthFirst
import LayeredDrawing.Digraph.Topological

/-!
# Ranks

A drawing has its nodes in ranks, and arcs lead to higher ranks. Cycles stand against that, so
`Digraph.acyclic` first reverses the back arcs of a depth-first search and drops loops. The
rank of a node is then the length of a longest path that ends in it (`Digraph.ranks`).
-/

namespace LayeredDrawing.Digraph

/-! ## Breaking cycles -/

/-- An arc of the acyclic graph: loops are dropped, and an arc is reversed if it joins the same
nodes as one of the given arcs. -/
def orient (back : List Arc) (a : Arc) : Option Arc :=
  if a.isLoop then none else if a ∈ back then some a.reverse else some a

theorem orient_inRange {size : Nat} {back : List Arc} {a b : Arc} (h : orient back a = some b)
    (ha : a.source < size ∧ a.target < size) : b.source < size ∧ b.target < size := by
  unfold orient at h
  split at h
  · simp at h
  · split at h
    · obtain rfl := Option.some.inj h
      exact ⟨ha.2, ha.1⟩
    · obtain rfl := Option.some.inj h
      exact ha

/-- The graph without loops and with every back arc reversed. -/
def acyclic (g : Digraph) : Digraph where
  size := g.size
  arcs := g.arcs.filterMap (orient g.backArcs)
  inRange := by
    intro b hb
    obtain ⟨a, ha, h⟩ := List.mem_filterMap.1 hb
    exact orient_inRange h (g.inRange a ha)

/-! ## Longest paths -/

/-- The rank of a node below nodes of the given ranks. -/
def rankBelow (ranks : List Nat) : Nat :=
  ranks.foldl (fun r s => max r (s + 1)) 0

/-- The rank of each node, nodes being taken in an order that lists predecessors first. -/
def ranksAlong (previous : Nat → List Nat) (size : Nat) (order : List Nat) : Array Nat :=
  order.foldl
    (fun ranks v => ranks.setIfInBounds v (rankBelow ((previous v).map (ranks.getD · 0))))
    (Array.replicate size 0)

/-- The length of a longest path that ends in each node; a graph with a cycle has none, and
the error is a node on one. -/
def ranks (g : Digraph) : Except Nat (Array Nat) :=
  match g.topologicalOrder with
  | .ok order =>
    let predecessors := g.predecessorTable
    .ok (ranksAlong predecessors.at g.size order)
  | .error v => .error v

end LayeredDrawing.Digraph
