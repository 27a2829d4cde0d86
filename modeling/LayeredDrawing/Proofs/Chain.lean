import LayeredDrawing.Proofs.Coordinates.Chain
import LayeredDrawing.Proofs.Digraph.Chain
import LayeredDrawing.Proofs.Forest
import LayeredDrawing.Proofs.Progression

/-!
# Chains are drawn straight

A chain is a forest whose ranks have one node each (`drawnLayers_of_isChain`): the nodes stand in
the order of the chain, nothing crosses, and on the cross axis the alignment has nothing to resolve.
Packing puts nodes of different widths at centers that may differ by rounding, but already one round
brings all of them to the same number.

* `solve_isChain`: **the nodes of a chain have the ranks `0`, `1`, … and one cross coordinate.**
-/

namespace LayeredDrawing

/-! ## Diagrams that are chains -/

/-- The named nodes form a chain in the given order: one edge leads from each of them to the next
one, and all other edges are loops. Nodes and edges may be listed in any order. -/
structure IsChain (ids : List String) (edges : List Edge) (chain : List String) : Prop where
  nodup : chain.Nodup
  nodes : chain.Perm ids
  steps : ((edges.filter (!·.isSelfLoop)).map fun e => (e.source, e.target)).Perm
    (chain.zip chain.tail)
  loops : ∀ e ∈ edges, e.isSelfLoop = true → e.source ∈ chain

namespace IsChain

variable {ids : List String} {edges : List Edge} {chain : List String}
  (h : IsChain ids edges chain)

include h

theorem mem_zip_tail {e : Edge} (he : e ∈ edges) (hl : e.isSelfLoop = false) :
    (e.source, e.target) ∈ chain.zip chain.tail :=
  h.steps.mem_iff.1 (List.mem_map_of_mem (List.mem_filter.2 ⟨he, by simp [hl]⟩))

/-- The edges join nodes of the diagram. -/
theorem joins {e : Edge} (he : e ∈ edges) : e.Joins ids := by
  cases hl : e.isSelfLoop with
  | true =>
    have hs : e.source ∈ ids := h.nodes.mem_iff.1 (h.loops e he hl)
    exact ⟨hs, beq_iff_eq.1 hl ▸ hs⟩
  | false =>
    obtain ⟨hs, ht⟩ := List.of_mem_zip (h.mem_zip_tail he hl)
    exact ⟨h.nodes.mem_iff.1 hs, h.nodes.mem_iff.1 (List.mem_of_mem_tail ht)⟩

/-- But for loops, edges go up along the chain. -/
theorem acyclic : AcyclicEdges (edges.filter (!·.isSelfLoop)) := by
  refine acyclicEdges_of_lt chain.idxOf fun e he => ?_
  obtain ⟨he, hl⟩ := List.mem_filter.1 he
  obtain ⟨k, hs, ht⟩ := mem_zip_tail_iff.1 (h.mem_zip_tail he (by simpa using hl))
  rw [← eq_idxOf_of_getElem? h.nodup hs, ← eq_idxOf_of_getElem? h.nodup ht]
  exact Nat.lt_succ_self k

end IsChain

theorem map_idxOf_self {ids : List String} (hn : ids.Nodup) :
    ids.map ids.idxOf = List.range ids.length :=
  List.ext_getElem (by simp) fun i hi _ => by
    rw [List.getElem_map, List.getElem_range, hn.idxOf_getElem]

section Build

variable {α δ : Type} [Scalar α] {nodes : List (Node α δ)} {edges : List Edge}
  {sizes : Option (SizeMap α)} {default : Size α} {g : SizedGraph α} {chain : List String}

/-- Without its loops the graph of a chain is a chain. -/
theorem isChain_acyclic_of_build (hg : SizedGraph.build nodes edges sizes default = .ok g)
    (h : IsChain (nodes.map (·.id)) edges chain) :
    g.graph.acyclic.IsChain (chain.map (nodes.map (·.id)).idxOf) where
  nodes := by
    have hsize : g.graph.acyclic.nodes = List.range (nodes.map (·.id)).length := by
      rw [← SizedGraph.map_id_of_build hg, List.length_map, ← g.size_graph]
      rfl
    rw [hsize, ← map_idxOf_self (h.nodes.nodup_iff.1 h.nodup)]
    exact h.nodes.map _
  arcs := by
    have hfilter : g.graph.acyclic.arcs =
        (edges.filter (!·.isSelfLoop)).map (SizedGraph.arcOfEdge nodes) := by
      rw [SizedGraph.arcs_acyclic_of_build hg h.acyclic, SizedGraph.arcs_of_build hg,
        List.filter_map]
      refine congrArg _ (List.filter_congr fun e he => ?_)
      exact congrArg (!·) (SizedGraph.isLoop_arcOfEdge (h.joins he))
    have hsteps := h.steps.map fun p : String × String =>
      (⟨(nodes.map (·.id)).idxOf p.1, (nodes.map (·.id)).idxOf p.2⟩ : Arc)
    rw [List.map_map] at hsteps
    rw [hfilter, ← List.map_tail, List.zip_map, List.map_map]
    exact hsteps

end Build

/-! ## Ranks with one node -/

theorem Digraph.IsChain.isForest {g : Digraph} {vs : List Nat} (h : g.IsChain vs) : g.IsForest := by
  rintro ⟨u, v⟩ ha ⟨w, v'⟩ hb rfl
  exact h.eq_of_adj_left hb ha

section Layers

variable {α : Type} [Scalar α] {o : Options α} {g : SizedGraph α} {ranks : Array Nat}
  {vs : List Nat} (hl : g.graph.acyclic.LeastRanks ranks) (h : g.graph.acyclic.IsChain vs)

include hl h

/-- The one node of a rank is the one with the same place in the chain. -/
theorem mem_layer_iff_of_isChain {layer : List Nat} {r v : Nat}
    (hr : (drawnLayers o g ranks)[r]? = some layer) : v ∈ layer ↔ vs[r]? = some v := by
  have hs : ranks.size = g.nodes.length := hl.size.trans g.size_graph
  have hmem : v ∈ List.range g.nodes.length ↔ v ∈ vs := by
    rw [h.mem_iff, List.mem_range, ← g.size_graph]
    rfl
  rw [(isOrdering_drawnLayers hs).mem_layer hr, hmem]
  constructor
  · rintro ⟨hv, hrank⟩
    obtain ⟨k, hk⟩ := List.mem_iff_getElem?.1 hv
    rw [Layering.rankOf_ofRanks (hl.size ▸ h.mem_iff.1 hv), h.rank_eq hl hk] at hrank
    exact hrank ▸ hk
  · intro hv
    have hm := List.mem_of_getElem? hv
    exact ⟨hm, (Layering.rankOf_ofRanks (hl.size ▸ h.mem_iff.1 hm)).trans (h.rank_eq hl hv)⟩

/-- The ranks of a chain have one node each. -/
theorem drawnLayers_of_isChain : drawnLayers o g ranks = vs.map ([·]) := by
  have hs : ranks.size = g.nodes.length := hl.size.trans g.size_graph
  have hlayer : ∀ {r : Nat} {layer : List Nat}, (drawnLayers o g ranks)[r]? = some layer →
      ∃ v, vs[r]? = some v ∧ layer = [v] := by
    intro r layer hr
    have hm := List.mem_of_getElem? hr
    obtain ⟨v, hv⟩ := List.exists_mem_of_ne_nil layer (ne_nil_of_mem_drawnLayers hl layer hm)
    have hk := (mem_layer_iff_of_isChain hl h hr).1 hv
    have hn := (List.nodup_flatten.1 (nodup_drawnLayers hs)).1 layer hm
    refine ⟨v, hk, eq_singleton_of_mem_iff hn fun w => ?_⟩
    rw [mem_layer_iff_of_isChain hl h hr, hk, Option.some.injEq, eq_comm]
  refine List.ext_getElem? fun r => ?_
  rw [List.getElem?_map]
  cases hr : (drawnLayers o g ranks)[r]? with
  | some layer =>
    obtain ⟨v, hv, rfl⟩ := hlayer hr
    rw [hv]
    rfl
  | none =>
    cases hv : vs[r]? with
    | none => rfl
    | some v =>
      have hlt : v < g.nodes.length := g.size_graph ▸ h.mem_iff.1 (List.mem_of_getElem? hv)
      obtain ⟨layer, hlayer, -⟩ :=
        exists_layer_of_placementOf (o := o) hs (List.getElem?_eq_getElem hlt)
      have hrank : (placementOf o g ranks g.nodes[v] v).rank = r := h.rank_eq hl hv
      rw [hrank, hr] at hlayer
      cases hlayer

end Layers

/-! ## The solution of a chain -/

section Solution

variable {o : Options Float32} {g : SizedGraph Float32} {ranks : Array Nat} {vs : List Nat}
  (hl : g.graph.acyclic.LeastRanks ranks) (h : g.graph.acyclic.IsChain vs)

include hl h

theorem crossings_solveRanked_of_isChain : (solveRanked o g ranks).crossings = 0 :=
  Layering.crossings_minimizeCrossings_of_adjacent Float32 hl.size
    (fun _ ha => h.isForest.rank_target hl ha) h.isForest o.orderingPasses

theorem rank_and_order_of_isChain {n : SizedNode Float32} {k v : Nat} (hn : g.nodes[v]? = some n)
    (hk : vs[k]? = some v) :
    (placementOf o g ranks n v).rank = k ∧ (placementOf o g ranks n v).order = 0 := by
  have hs : ranks.size = g.nodes.length := hl.size.trans g.size_graph
  obtain ⟨layer, hlayer, hi⟩ := exists_layer_of_placementOf (o := o) hs hn
  have hrank : (placementOf o g ranks n v).rank = k := h.rank_eq hl hk
  rw [hrank, drawnLayers_of_isChain hl h, List.getElem?_map, hk] at hlayer
  obtain rfl : [v] = layer := Option.some.inj hlayer
  have hlt := (List.getElem?_eq_some_iff.1 hi).1
  rw [List.length_singleton] at hlt
  exact ⟨hrank, Nat.lt_one_iff.1 hlt⟩

/-- The nodes of a chain are drawn on one line. -/
theorem exists_crossCoordinate_of_isChain (hp : 0 < o.alignmentPasses) :
    ∃ x, ∀ v ∈ vs, ∀ n, o.direction.crossCoordinate (placementOf o g ranks n v).center = x := by
  have hlt : ∀ v ∈ vs, v < (frameExtents o g).size := by
    intro v hv
    rw [size_frameExtents, ← g.size_graph]
    exact h.mem_iff.1 hv
  obtain ⟨x, hx⟩ := Coordinates.exists_x_assign Single.settled_settled
    (h.isChain_adj.imp fun _ _ ha => h.predecessors_eq ha)
    (h.isChain_adj.imp fun _ _ ha => h.successors_eq ha) h.nodup hlt
    (show 0 < o.spacing.alignmentPasses from hp)
  refine ⟨x, fun v hv n => ?_⟩
  rw [center_placementOf, Direction.crossCoordinate_place, drawnFrame, drawnLayers_of_isChain hl h]
  exact hx v hv

end Solution

/-- **A chain is drawn straight**, in single precision: its nodes have the ranks `0`, `1`, … in
their order and are alone in them, nothing crosses, and all centers have the same cross coordinate,
bit by bit. Sizes and options are arbitrary, but for one alignment pass at least, and nodes and
edges are listed in any order. Overflow would make no difference, since an infinite coordinate is
passed on like any other. -/
theorem solve_isChain {δ : Type} {o : Options Float32} {nodes : List (Node Float32 δ)}
    {edges : List Edge} {chain : List String} (h : IsChain (nodes.map (·.id)) edges chain)
    (hp : 0 < o.alignmentPasses) (sizes : Option (SizeMap Float32)) (default : Size Float32) :
    ∃ g, SizedGraph.build nodes edges sizes default = .ok g ∧
      ∃ s, solve o g = .ok s ∧ s.crossings = 0 ∧
        ∃ x, ∀ k id, chain[k]? = some id → ∃ p, s.get? id = some p ∧ p.rank = k ∧ p.order = 0 ∧
          o.direction.crossCoordinate p.center = x := by
  obtain ⟨g, hg⟩ : ∃ g, SizedGraph.build nodes edges sizes default = .ok g :=
    SizedGraph.exists_build_iff.2 ⟨h.nodes.nodup_iff.1 h.nodup, fun e he => h.joins he⟩
  refine ⟨g, hg, ?_⟩
  by_cases hne : g.nodes = []
  · have hchain : chain = [] := by
      have hnil : nodes.map (·.id) = [] := by
        rw [← SizedGraph.map_id_of_build hg, hne, List.map_nil]
      exact (hnil ▸ h.nodes).eq_nil
    refine ⟨⟨[], 0⟩, by rw [solve, if_pos (by simpa using hne)], rfl, 0, ?_⟩
    simp [hchain]
  · obtain ⟨ranks, hl, e⟩ := exists_solve_eq_solveRanked o hne
    have hc := isChain_acyclic_of_build hg h
    obtain ⟨x, hx⟩ := exists_crossCoordinate_of_isChain hl hc hp
    refine ⟨_, e, crossings_solveRanked_of_isChain hl hc, x, fun k id hk => ?_⟩
    have hid := h.nodes.mem_iff.1 (List.mem_of_getElem? hk)
    obtain ⟨n, hn, rfl⟩ := SizedGraph.exists_node_of_build hg hid
    have hv : (chain.map (nodes.map (·.id)).idxOf)[k]? = some ((nodes.map (·.id)).idxOf n.id) := by
      rw [List.getElem?_map, hk, Option.map_some]
    obtain ⟨hrank, horder⟩ := rank_and_order_of_isChain (o := o) hl hc hn hv
    exact ⟨_, get?_solveRanked o g ranks (SizedGraph.nodup_of_build hg) hn, hrank, horder,
      hx _ (List.mem_of_getElem? hv) n⟩

/-- Four nodes of very different heights, two of them with a loop, drawn from right to left with a
single alignment pass. -/
theorem solve_isChain_uneven :
    let o : Options Float32 :=
      { Options.default with direction := .rightToLeft, alignmentPasses := 1 }
    let nodes : List (Node Float32 Unit) := [
      ⟨"c", (), ⟨0, 0⟩, some ⟨10, 0.1⟩⟩, ⟨"a", (), ⟨0, 0⟩, none⟩,
      ⟨"d", (), ⟨0, 0⟩, some ⟨30, 16777215⟩⟩, ⟨"b", (), ⟨0, 0⟩, some ⟨1, 0.7⟩⟩]
    let edges : List Edge := [
      ⟨"1", "c", "d"⟩, ⟨"2", "b", "b"⟩, ⟨"3", "a", "b"⟩, ⟨"4", "b", "c"⟩, ⟨"5", "d", "d"⟩]
    let chain := ["a", "b", "c", "d"]
    IsChain (nodes.map (·.id)) edges chain ∧ 0 < o.alignmentPasses ∧
      ∃ g, SizedGraph.build nodes edges none o.defaultSize = .ok g ∧
        ∃ s, solve o g = .ok s ∧ s.crossings = 0 ∧
          ∃ x, ∀ k id, chain[k]? = some id → ∃ p, s.get? id = some p ∧ p.rank = k ∧
            p.order = 0 ∧ o.direction.crossCoordinate p.center = x := by
  intro o nodes edges chain
  have hchain : IsChain (nodes.map (·.id)) edges chain :=
    ⟨by decide, by decide, by decide, by decide⟩
  have hpasses : 0 < o.alignmentPasses := by decide
  exact ⟨hchain, hpasses, solve_isChain hchain hpasses none o.defaultSize⟩

end LayeredDrawing
