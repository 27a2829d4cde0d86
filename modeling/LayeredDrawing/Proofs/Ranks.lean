import LayeredDrawing.Proofs.KeyedList
import LayeredDrawing.Proofs.Solution

/-!
# Ranks without gaps

A node takes its order from its index in the layer of its rank, and the layers list every node
once. The orders of a rank therefore run from zero to the number of its nodes, and since a node
has a predecessor in the rank before its own, no rank is empty. Sorting the nodes of a rank by
their orders gives back the layer (`FillsRanks`).

* `Solution.fillsRanks`: what the lists of ranks are, given that the orders have no gap.
* `orders_solveRanked`: the orders of a rank are the indices of a layer.
* `solve_fillsRanks`: **a graph that was built is solved, and its solution fills its ranks.**
-/

namespace LayeredDrawing

variable {α : Type}

/-! ## Solutions that fill their ranks -/

/-- A solution places each node once, without a gap in its ranks and in their orders. -/
structure Solution.FillsRanks (s : Solution α) (ids : List String) : Prop where
  /-- There is one placement for each name, in the order of the names. -/
  placed : s.placements.map (·.1) = ids
  nodup : ids.Nodup
  /-- The ranks in use are `0, …, rankCount - 1`. -/
  inhabited : ∀ r, r < s.rankCount ↔ ∃ e ∈ s.placements, e.2.rank = r
  /-- The orders of a rank of `k` nodes are `0, …, k - 1`. -/
  orders : ∀ r, ((s.placements.filter (·.2.rank == r)).map (·.2.order)).Perm
    (List.range (s.placements.countP (·.2.rank == r)))
  length_ranks : s.ranks.length = s.rankCount
  /-- The lists of the ranks have every name once. -/
  listed : s.ranks.flatten.Perm ids
  /-- A node is listed with its rank at the index of its order. -/
  listedAt : ∀ e ∈ s.placements, ∃ rank, s.ranks[e.2.rank]? = some rank ∧
    rank[e.2.order]? = some e.1

namespace Solution

variable {s : Solution α}

theorem rankCount_eq_rankBelow :
    s.rankCount = Digraph.rankBelow (s.placements.map (·.2.rank)) := by
  rw [rankCount, Digraph.rankBelow, List.foldl_map]

theorem lt_rankCount {e : String × Placement α} (h : e ∈ s.placements) :
    e.2.rank < s.rankCount := by
  rw [rankCount_eq_rankBelow]
  exact Digraph.lt_rankBelow (List.mem_map_of_mem h)

@[simp] theorem length_ranks : s.ranks.length = s.rankCount := by
  simp [ranks]

theorem flatten_ranks_perm : s.ranks.flatten.Perm (s.placements.map (·.1)) := by
  have hclasses := flatMap_filter_key_perm s.placements (·.2.rank) s.rankCount
  have hall : s.placements.filter (·.2.rank < s.rankCount) = s.placements :=
    List.filter_eq_self.2 fun e he => by simpa using lt_rankCount he
  rw [hall] at hclasses
  have hsort : s.ranks.flatten.Perm
      (((List.range s.rankCount).flatMap fun r => s.placements.filter (·.2.rank == r)).map
        (·.1)) := by
    rw [ranks, ← List.flatMap_def, List.map_flatMap]
    exact List.Perm.flatMap_left _ fun r _ => (List.mergeSort_perm _ _).map _
  exact hsort.trans (hclasses.map _)

/-- What `ranks` and `rankCount` make of placements without gaps. -/
theorem fillsRanks {ids : List String} (placed : s.placements.map (·.1) = ids)
    (nodup : ids.Nodup)
    (inhabited : ∀ e ∈ s.placements, ∀ r ≤ e.2.rank, ∃ e' ∈ s.placements, e'.2.rank = r)
    (orders : ∀ r, ((s.placements.filter (·.2.rank == r)).map (·.2.order)).Perm
      (List.range (s.placements.countP (·.2.rank == r)))) :
    s.FillsRanks ids where
  placed := placed
  nodup := nodup
  inhabited := by
    intro r
    constructor
    · intro hr
      by_contra hne
      have hle : Digraph.rankBelow (s.placements.map (·.2.rank)) ≤ r := by
        refine Digraph.rankBelow_le_iff.2 fun q hq => ?_
        obtain ⟨e, he, rfl⟩ := List.mem_map.1 hq
        by_contra hlt
        exact hne (inhabited e he r (by omega))
      rw [← rankCount_eq_rankBelow] at hle
      omega
    · rintro ⟨e, he, rfl⟩
      exact lt_rankCount he
  orders := orders
  length_ranks := length_ranks
  listed := placed ▸ flatten_ranks_perm
  listedAt := by
    intro e he
    have hm : e ∈ s.placements.filter (·.2.rank == e.2.rank) := by simpa using he
    have hat := getElem?_mergeSort_key (orders e.2.rank) hm
    refine ⟨((s.placements.filter (·.2.rank == e.2.rank)).mergeSort
      fun a b => a.2.order ≤ b.2.order).map (·.1), ?_, ?_⟩
    · simp [ranks, lt_rankCount he]
    · rw [List.getElem?_map, hat, Option.map_some]

end Solution

/-! ## The orders of a rank -/

section Placements

variable [Scalar α] {o : Options α} {g : SizedGraph α} {ranks : Array Nat}

/-- The vertices of a layer have the positions `0, 1, …` in this order. -/
theorem Layers.map_positions {layers : Layers} {size : Nat} (hn : layers.flatten.Nodup)
    {layer : List Nat} (hl : layer ∈ layers) (hlt : ∀ v ∈ layer, v < size) :
    layer.map ((layers.positions size).getD · 0) = List.range layer.length := by
  refine List.ext_getElem (by simp) fun i hi _ => ?_
  have hi : i < layer.length := by simpa using hi
  rw [List.getElem_map, List.getElem_range]
  exact getD_positions hn hl (List.getElem?_eq_getElem hi) (hlt _ (List.getElem_mem hi))

theorem map_order_filter_rank (r : Nat) :
    ((solveRanked o g ranks).placements.filter (·.2.rank == r)).map (·.2.order) =
      ((List.range g.nodes.length).filter (ranks.getD · 0 == r)).map
        (((drawnLayers o g ranks).positions g.nodes.length).getD · 0) := by
  have hidx : g.nodes.zipIdx.map Prod.snd = List.range g.nodes.length := by
    rw [List.zipIdx_map_snd, List.range_eq_range']
  rw [placements_solveRanked, List.filter_map, List.map_map, ← hidx, List.filter_map,
    List.map_map]
  rfl

theorem orders_solveRanked (hs : ranks.size = g.nodes.length) (r : Nat) :
    (((solveRanked o g ranks).placements.filter (·.2.rank == r)).map (·.2.order)).Perm
      (List.range ((solveRanked o g ranks).placements.countP (·.2.rank == r))) := by
  have hlen : (solveRanked o g ranks).placements.countP (·.2.rank == r) =
      (((solveRanked o g ranks).placements.filter (·.2.rank == r)).map (·.2.order)).length := by
    rw [List.length_map, List.countP_eq_length_filter]
  rw [hlen, map_order_filter_rank, List.length_map]
  have ho := isOrdering_drawnLayers (o := o) hs
  have hrank : ∀ v ∈ List.range g.nodes.length,
      (Layering.ofRanks ranks g.graph.acyclic).rankOf v = ranks.getD v 0 :=
    fun v hv => Layering.rankOf_ofRanks (hs ▸ List.mem_range.1 hv)
  cases hl : (drawnLayers o g ranks)[r]? with
  | some layer =>
    have hp : layer.Perm ((List.range g.nodes.length).filter (ranks.getD · 0 == r)) := by
      refine (ho.perm_layer hl).trans (.of_eq (List.filter_congr fun v hv => ?_))
      rw [hrank v hv]
    have hlt : ∀ v ∈ layer, v < g.nodes.length := by
      intro v hv
      have := hp.mem_iff.1 hv
      simp only [List.mem_filter, List.mem_range] at this
      exact this.1
    have hpos := Layers.map_positions (nodup_drawnLayers hs) (List.mem_of_getElem? hl) hlt
    rw [← hp.length_eq, ← hpos]
    exact (hp.map _).symm
  | none =>
    have hnone : (List.range g.nodes.length).filter (ranks.getD · 0 == r) = [] := by
      refine List.filter_eq_nil_iff.2 fun v hv hr => ?_
      have hvr : v < ranks.size := hs ▸ List.mem_range.1 hv
      have hlt := Layering.lt_rankCount_ofRanks (g := g.graph.acyclic) hvr
      rw [beq_iff_eq.1 hr, ← ho.length_eq] at hlt
      rw [List.getElem?_eq_none_iff] at hl
      omega
    rw [hnone]
    rfl

end Placements

/-! ## Solutions of graphs -/

variable [Scalar α]

/-- **A solution fills its ranks.** Whatever the options, a graph that was built from a diagram
is solved; its solution has one placement for each node in the order of the diagram, no rank is
empty, the orders of a rank have no gap, and the lists of the ranks show each node once, at its
place. -/
theorem solve_fillsRanks {δ : Type} {nodes : List (Node α δ)} {edges : List Edge}
    {sizes : Option (SizeMap α)} {default : Size α} {g : SizedGraph α}
    (hg : SizedGraph.build nodes edges sizes default = .ok g) (o : Options α) :
    ∃ s, solve o g = .ok s ∧ s.FillsRanks (nodes.map (·.id)) := by
  obtain ⟨s, e⟩ := exists_solve o g
  have hids : g.nodes.map (·.id) = nodes.map (·.id) := by
    rw [SizedGraph.nodes_of_build hg, List.map_map]
    rfl
  have placed : s.placements.map (·.1) = nodes.map (·.id) := by rw [ids_solve e, hids]
  have nodup : (nodes.map (·.id)).Nodup := (SizedGraph.exists_build_iff.1 ⟨g, hg⟩).1
  refine ⟨s, e, ?_⟩
  by_cases hn : g.nodes = []
  · rw [solve, if_pos (by simpa using hn)] at e
    obtain rfl := Except.ok.inj e
    exact Solution.fillsRanks placed nodup (by simp) (by simp)
  · obtain ⟨ranks, hl, e'⟩ := exists_solve_eq_solveRanked o hn
    obtain rfl := Except.ok.inj (e'.symm.trans e)
    refine Solution.fillsRanks placed nodup ?_ (orders_solveRanked (hl.size.trans g.size_graph))
    intro a ha r hr
    obtain ⟨v, n, hv, rfl⟩ := exists_node_of_mem_placements ha
    have hsize : g.graph.acyclic.size = g.nodes.length := g.size_graph
    have hvlt : v < g.graph.acyclic.size := hsize ▸ (List.getElem?_eq_some_iff.1 hv).1
    obtain ⟨u, hu, hur⟩ := hl.inhabited v hvlt r hr
    have hu : u < g.nodes.length := hsize ▸ hu
    refine ⟨(g.nodes[u].id, placementOf o g ranks g.nodes[u] u), ?_, hur⟩
    rw [placements_solveRanked]
    exact List.mem_map.2 ⟨(g.nodes[u], u),
      List.mem_zipIdx_iff_getElem?.2 (List.getElem?_eq_getElem hu), rfl⟩

/-- A cycle with a chord, a loop and a node on its own, solved with distances that are not even
finite. -/
theorem solve_fillsRanks_chord :
    let nodes : List (Node Float32 Unit) := [
      ⟨"a", (), ⟨0, 0⟩, some ⟨10, 20⟩⟩, ⟨"b", (), ⟨0, 0⟩, none⟩, ⟨"c", (), ⟨0, 0⟩, some ⟨0, 0⟩⟩,
      ⟨"d", (), ⟨0, 0⟩, none⟩]
    let edges : List Edge := [
      ⟨"e", "a", "b"⟩, ⟨"f", "b", "c"⟩, ⟨"g", "c", "a"⟩, ⟨"h", "a", "c"⟩, ⟨"i", "b", "b"⟩]
    let o : Options Float32 := { Options.default with
      direction := .rightToLeft, nodeSep := 0 / 0, rankSep := 1 / 0, marginX := -1 / 0 }
    ∃ g, SizedGraph.build nodes edges none o.defaultSize = .ok g ∧
      ∃ s, solve o g = .ok s ∧ s.FillsRanks (nodes.map (·.id)) := by
  intro nodes edges o
  obtain ⟨g, hg⟩ := SizedGraph.exists_build_iff.2
    (⟨by decide, by decide⟩ : (nodes.map (·.id)).Nodup ∧ ∀ e ∈ edges, e.Joins (nodes.map (·.id)))
  exact ⟨g, hg, solve_fillsRanks hg o⟩

end LayeredDrawing
