import LayeredDrawing.Proofs.Digraph.CycleBreaking
import LayeredDrawing.Proofs.Digraph.LongestPath
import LayeredDrawing.Proofs.KeyedList
import LayeredDrawing.Proofs.Layering.Orderings
import LayeredDrawing.Proofs.SizedGraph
import LayeredDrawing.Solution

/-!
# Solutions place every node

The only error of `solve` is that of a graph with a cycle, and the graph it ranks has none:
whatever its cycles, loops and parallel arcs, a graph is solved (`exists_solve`). The solution
has the nodes in their order, each with its own size (`sizes_solve`), and a node stands in the
layer of its rank at the index of its order (`exists_layer_of_placementOf`).
-/

namespace LayeredDrawing

variable {α : Type} [Scalar α]

/-! ## Every graph is solved -/

theorem Digraph.exists_leastRanks_acyclic (g : Digraph) :
    ∃ ranks, g.acyclic.ranks = .ok ranks ∧ g.acyclic.LeastRanks ranks := by
  obtain ⟨order, h⟩ := g.exists_isTopological_acyclic
  exact exists_leastRanks h.isAcyclic

/-- The two ways in which a graph is solved. -/
theorem solve_of_ranks (o : Options α) {g : SizedGraph α} {ranks : Array Nat}
    (h : g.graph.acyclic.ranks = .ok ranks) :
    solve o g = .ok (if g.nodes = [] then ⟨[], 0⟩ else solveRanked o g ranks) := by
  by_cases hn : g.nodes = []
  · rw [solve, if_pos (by simpa using hn), if_pos hn]
  · rw [solve, if_neg (by simpa using hn), if_neg hn, h]

/-- A graph with nodes is solved with the least ranks of the graph left after cycle breaking. -/
theorem exists_solve_eq_solveRanked (o : Options α) {g : SizedGraph α} (h : g.nodes ≠ []) :
    ∃ ranks, g.graph.acyclic.LeastRanks ranks ∧ solve o g = .ok (solveRanked o g ranks) := by
  obtain ⟨ranks, e, hl⟩ := g.graph.exists_leastRanks_acyclic
  exact ⟨ranks, hl, by rw [solve_of_ranks o e, if_neg h]⟩

theorem exists_solve (o : Options α) (g : SizedGraph α) : ∃ s, solve o g = .ok s := by
  obtain ⟨ranks, e, -⟩ := g.graph.exists_leastRanks_acyclic
  exact ⟨_, solve_of_ranks o e⟩

/-! ## The placements of a graph with given ranks -/

section Placements

variable (o : Options α) (g : SizedGraph α) (ranks : Array Nat)

/-- The layers of the nodes as they are drawn. -/
def drawnLayers : Layers :=
  ((Layering.ofRanks ranks g.graph.acyclic).minimizeCrossings o.orderingPasses α).layers

/-- The extents of the nodes in the frame of the ranks. -/
def frameExtents : Array (Size α) := (g.nodes.map fun n => o.direction.extents n.size).toArray

/-- The drawing in the frame of the ranks. -/
def drawnFrame : Coordinates.Frame α :=
  Coordinates.assign (drawnLayers o g ranks) (frameExtents o g) g.graph.acyclic o.spacing

/-- The sum of the places of a node on the rank axis before and after it is turned round. -/
def drawnTurn : α := Scalar.ofNat 2 * o.spacing.rankMargin + (drawnFrame o g ranks).rankSpan

/-- The placement of the node with the given number. -/
def placementOf (n : SizedNode α) (v : Nat) : Placement α where
  center := o.direction.place (drawnTurn o g ranks)
    ((drawnFrame o g ranks).centers.getD v Point.origin)
  size := n.size
  rank := ranks.getD v 0
  order := ((drawnLayers o g ranks).positions g.nodes.length).getD v 0

theorem placements_solveRanked :
    (solveRanked o g ranks).placements =
      g.nodes.zipIdx.map fun p => (p.1.id, placementOf o g ranks p.1 p.2) := rfl

theorem map_fst_placements_solveRanked :
    (solveRanked o g ranks).placements.map (·.1) = g.nodes.map (·.id) := by
  have hfirst : g.nodes.zipIdx.map Prod.fst = g.nodes := List.zipIdx_map_fst 0 g.nodes
  calc (solveRanked o g ranks).placements.map (·.1)
      = (g.nodes.zipIdx.map Prod.fst).map (·.id) := by
        rw [placements_solveRanked, List.map_map, List.map_map]
        rfl
    _ = g.nodes.map (·.id) := by rw [hfirst]

/-- The placement of a node is found by its name. -/
theorem get?_solveRanked (hn : (g.nodes.map (·.id)).Nodup) {n : SizedNode α} {v : Nat}
    (h : g.nodes[v]? = some n) :
    (solveRanked o g ranks).get? n.id = some (placementOf o g ranks n v) := by
  rw [← map_fst_placements_solveRanked o g ranks] at hn
  refine (lookup_eq_some_iff_mem hn).2 ?_
  rw [placements_solveRanked]
  exact List.mem_map.2 ⟨(n, v), List.mem_zipIdx_iff_getElem?.2 h, rfl⟩

variable {o g ranks}

theorem exists_node_of_mem_placements {e : String × Placement α}
    (h : e ∈ (solveRanked o g ranks).placements) :
    ∃ v n, g.nodes[v]? = some n ∧ e = (n.id, placementOf o g ranks n v) := by
  rw [placements_solveRanked] at h
  obtain ⟨⟨n, v⟩, hm, rfl⟩ := List.mem_map.1 h
  exact ⟨v, n, List.mem_zipIdx_iff_getElem?.1 hm, rfl⟩

omit [Scalar α] in
theorem size_frameExtents : (frameExtents o g).size = g.nodes.length := by
  simp [frameExtents]

omit [Scalar α] in
theorem getElem?_frameExtents {v : Nat} {n : SizedNode α} (h : g.nodes[v]? = some n) :
    (frameExtents o g)[v]? = some (o.direction.extents n.size) := by
  simp [frameExtents, h]

variable (hs : ranks.size = g.nodes.length)

include hs

theorem isOrdering_drawnLayers :
    (Layering.ofRanks ranks g.graph.acyclic).IsOrdering (List.range g.nodes.length)
      (drawnLayers o g ranks) := by
  rw [← hs]
  exact Layering.isOrdering_minimizeCrossings Layering.realCount_le_vertexCount o.orderingPasses

theorem nodup_drawnLayers : (drawnLayers o g ranks).flatten.Nodup :=
  (isOrdering_drawnLayers hs).nodup_flatten List.nodup_range

theorem lt_of_mem_drawnLayers :
    ∀ v ∈ (drawnLayers o g ranks).flatten, v < (frameExtents o g).size := by
  intro v hv
  rw [size_frameExtents]
  obtain ⟨layer, hl, hv⟩ := List.mem_flatten.1 hv
  obtain ⟨r, hr⟩ := List.mem_iff_getElem?.1 hl
  exact List.mem_range.1 (((isOrdering_drawnLayers hs).mem_layer hr).1 hv).1

/-- A node stands in the layer of its rank at the index of its order. -/
theorem exists_layer_of_placementOf {n : SizedNode α} {v : Nat} (hn : g.nodes[v]? = some n) :
    ∃ layer, (drawnLayers o g ranks)[(placementOf o g ranks n v).rank]? = some layer ∧
      layer[(placementOf o g ranks n v).order]? = some v := by
  have hv : v < g.nodes.length := (List.getElem?_eq_some_iff.1 hn).1
  have hvr : v < ranks.size := hs ▸ hv
  have hrank : (Layering.ofRanks ranks g.graph.acyclic).rankOf v = ranks.getD v 0 :=
    Layering.rankOf_ofRanks hvr
  obtain ⟨layer, hl, hm⟩ := (isOrdering_drawnLayers hs).exists_layer (List.mem_range.2 hv)
    (hrank ▸ Layering.lt_rankCount_ofRanks hvr)
  obtain ⟨i, hi⟩ := List.mem_iff_getElem?.1 hm
  have hpos := Layers.getD_positions (nodup_drawnLayers hs) (List.mem_of_getElem? hl) hi hv
  rw [hrank] at hl
  refine ⟨layer, hl, ?_⟩
  show layer[((drawnLayers o g ranks).positions g.nodes.length).getD v 0]? = some v
  rw [hpos, hi]

/-- Two nodes of one rank stand in the same layer. -/
theorem exists_common_layer {u v : Nat} {m n : SizedNode α} (hu : g.nodes[u]? = some m)
    (hv : g.nodes[v]? = some n)
    (hr : (placementOf o g ranks m u).rank = (placementOf o g ranks n v).rank) :
    ∃ layer ∈ drawnLayers o g ranks, layer[(placementOf o g ranks m u).order]? = some u ∧
      layer[(placementOf o g ranks n v).order]? = some v := by
  obtain ⟨layer, hl, hiu⟩ := exists_layer_of_placementOf (o := o) hs hu
  obtain ⟨layer', hl', hiv⟩ := exists_layer_of_placementOf (o := o) hs hv
  rw [hr] at hl
  obtain rfl := Option.some.inj (hl.symm.trans hl')
  exact ⟨layer, List.mem_of_getElem? hl, hiu, hiv⟩

/-- Two nodes of one rank have different orders. -/
theorem order_ne_of_ne {u v : Nat} {m n : SizedNode α} (hu : g.nodes[u]? = some m)
    (hv : g.nodes[v]? = some n) (hne : u ≠ v)
    (hr : (placementOf o g ranks m u).rank = (placementOf o g ranks n v).rank) :
    (placementOf o g ranks m u).order ≠ (placementOf o g ranks n v).order := by
  obtain ⟨layer, -, hiu, hiv⟩ := exists_common_layer hs hu hv hr
  intro e
  rw [e] at hiu
  exact hne (Option.some.inj (hiu.symm.trans hiv))

end Placements

/-! ## Names and sizes -/

theorem sizes_solveRanked (o : Options α) (g : SizedGraph α) (ranks : Array Nat) :
    (solveRanked o g ranks).placements.map (fun p => (p.1, p.2.size)) =
      g.nodes.map fun n => (n.id, n.size) := by
  have h : g.nodes.zipIdx.map (fun p => (p.1.id, p.1.size)) =
      (g.nodes.zipIdx.map Prod.fst).map fun n => (n.id, n.size) := by
    rw [List.map_map]
    rfl
  rw [List.zipIdx_map_fst] at h
  rw [← h, solveRanked, List.map_map]
  rfl

theorem sizes_solve {o : Options α} {g : SizedGraph α} {s : Solution α}
    (h : solve o g = .ok s) :
    s.placements.map (fun p => (p.1, p.2.size)) = g.nodes.map fun n => (n.id, n.size) := by
  by_cases hn : g.nodes = []
  · rw [solve, if_pos (by simpa using hn)] at h
    obtain rfl := Except.ok.inj h
    simp [hn]
  · obtain ⟨ranks, -, e⟩ := exists_solve_eq_solveRanked o hn
    obtain rfl := Except.ok.inj (e.symm.trans h)
    exact sizes_solveRanked o g ranks

theorem ids_solve {o : Options α} {g : SizedGraph α} {s : Solution α} (h : solve o g = .ok s) :
    s.placements.map (·.1) = g.nodes.map (·.id) := by
  have := congrArg (List.map Prod.fst) (sizes_solve h)
  simpa [List.map_map, Function.comp_def] using this

/-! ## Nodes on their own -/

omit [Scalar α] in
/-- The graph of three nodes on their own, all of one size. -/
def trio (size : Size α) : SizedGraph α where
  nodes := [⟨"a", size⟩, ⟨"b", size⟩, ⟨"c", size⟩]
  graph := .ofArcs 3 []
  size_graph := rfl

theorem solve_trio (o : Options α) (size : Size α) :
    solve o (trio size) = .ok (solveRanked o (trio size) #[0, 0, 0]) := by
  have hranks : (Digraph.ofArcs 3 []).acyclic.ranks = .ok #[0, 0, 0] := by decide +kernel
  exact solve_of_ranks o hranks

/-- Nodes on their own are drawn in the order of the list. -/
theorem drawnLayers_trio (o : Options α) (size : Size α) :
    drawnLayers o (trio size) #[0, 0, 0] = [[0, 1, 2]] := by
  have hroots : (Layering.ofRanks #[0, 0, 0] (Digraph.ofArcs 3 []).acyclic).roots = [0, 1, 2] :=
    Layering.roots_eq_range (by decide +kernel)
  have hinitial : (Layering.ofRanks #[0, 0, 0] (Digraph.ofArcs 3 []).acyclic).initialLayers =
      [[0, 1, 2]] := by
    rw [Layering.initialLayers, hroots]
    decide +kernel
  have hlayers := Layering.layers_minimizeCrossings (α := α) o.orderingPasses
    (show (Layering.ofRanks #[0, 0, 0] (Digraph.ofArcs 3 []).acyclic).crossings _ = 0 by
      rw [hinitial]
      decide +kernel)
  rw [hinitial] at hlayers
  exact hlayers

end LayeredDrawing
