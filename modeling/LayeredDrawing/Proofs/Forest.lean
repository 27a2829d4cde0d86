import LayeredDrawing.Proofs.Flow
import LayeredDrawing.Proofs.Layering.Forests

/-!
# Forests are drawn without crossings

In a forest every node but the roots has one parent, and the rank of a node is its depth: one more
than the rank of its parent. No edge passes a rank, so there are no virtual vertices, and the first
ordering has no crossing that a sweep would have to take out.

* `Digraph.IsForest.rank_target`: the ranks of a forest are its depths.
* `solve_isForest`: **the solution of a forest has no crossings.**
-/

namespace LayeredDrawing

/-- A forest with its arcs away from the roots, but for loops and parallel edges: no cycle joins
different nodes, and edges to one node come from one other node. -/
structure IsForest (edges : List Edge) : Prop where
  acyclic : AcyclicEdges (edges.filter (!·.isSelfLoop))
  parent : ∀ e ∈ edges, ∀ f ∈ edges, e.isSelfLoop = false → f.isSelfLoop = false →
    e.target = f.target → e.source = f.source

/-- Parallel arcs aside, no two arcs lead to one node. -/
def Digraph.IsForest (g : Digraph) : Prop :=
  ∀ a ∈ g.arcs, ∀ b ∈ g.arcs, a.target = b.target → a.source = b.source

/-- The least ranks of a forest are its depths. -/
theorem Digraph.IsForest.rank_target {g : Digraph} (h : g.IsForest) {ranks : Array Nat}
    (hl : g.LeastRanks ranks) {a : Arc} (ha : a ∈ g.arcs) :
    ranks.getD a.target 0 = ranks.getD a.source 0 + 1 := by
  have hlt : ranks.getD a.source 0 < ranks.getD a.target 0 := hl.ascends a.source a.target ha
  obtain ⟨u, hu, e⟩ := hl.predecessor a.target (g.inRange a ha).2 (by omega)
  rw [← e, h a ha ⟨u, a.target⟩ hu rfl]

variable {α δ : Type} [Scalar α] {nodes : List (Node α δ)} {edges : List Edge}
  {sizes : Option (SizeMap α)} {default : Size α} {g : SizedGraph α}

/-- Without its loops the graph of a forest is a forest. -/
theorem isForest_acyclic_of_build (hg : SizedGraph.build nodes edges sizes default = .ok g)
    (h : IsForest edges) : g.graph.acyclic.IsForest := by
  intro a ha b hb hab
  rw [SizedGraph.arcs_acyclic_of_build hg h.acyclic] at ha hb
  obtain ⟨ha, hla⟩ := List.mem_filter.1 ha
  obtain ⟨hb, hlb⟩ := List.mem_filter.1 hb
  obtain ⟨e, he, rfl⟩ := (SizedGraph.mem_arcs_iff hg).1 ha
  obtain ⟨f, hf, rfl⟩ := (SizedGraph.mem_arcs_iff hg).1 hb
  have hje := SizedGraph.joins_of_build hg he
  have hjf := SizedGraph.joins_of_build hg hf
  rw [SizedGraph.isLoop_arcOfEdge hje] at hla
  rw [SizedGraph.isLoop_arcOfEdge hjf] at hlb
  have htarget : e.target = f.target := (List.idxOf_inj hje.2).1 hab
  have hsource := h.parent e he f hf (by simpa using hla) (by simpa using hlb) htarget
  exact congrArg (nodes.map (·.id)).idxOf hsource

/-- **The solution of a forest has no crossings**, whatever the options, the number of passes
included, and in whatever order nodes and edges are given. -/
theorem solve_isForest (hg : SizedGraph.build nodes edges sizes default = .ok g)
    (h : IsForest edges) (o : Options α) : ∃ s, solve o g = .ok s ∧ s.crossings = 0 := by
  by_cases hn : g.nodes = []
  · exact ⟨⟨[], 0⟩, by rw [solve, if_pos (by simpa using hn)], rfl⟩
  obtain ⟨ranks, hl, e⟩ := exists_solve_eq_solveRanked o hn
  have hforest := isForest_acyclic_of_build hg h
  exact ⟨_, e, Layering.crossings_minimizeCrossings_of_adjacent α hl.size
    (fun a ha => hforest.rank_target hl ha) hforest o.orderingPasses⟩

/-- Two trees with a loop and parallel edges, their nodes and edges in no particular order and
without a pass to order the ranks. -/
theorem solve_isForest_mixed :
    let o : Options Float32 := { Options.default with orderingPasses := 0 }
    let nodes : List (Node Float32 Unit) := ["f", "c", "a", "e", "b", "d", "g"].map
      fun id => ⟨id, (), ⟨0, 0⟩, none⟩
    let edges : List Edge := [
      ⟨"1", "c", "f"⟩, ⟨"2", "b", "e"⟩, ⟨"3", "a", "c"⟩, ⟨"4", "a", "d"⟩, ⟨"5", "a", "c"⟩,
      ⟨"6", "d", "d"⟩, ⟨"7", "b", "g"⟩]
    IsForest edges ∧ ∃ g, SizedGraph.build nodes edges none o.defaultSize = .ok g ∧
      ∃ s, solve o g = .ok s ∧ s.crossings = 0 := by
  intro o nodes edges
  have hforest : IsForest edges :=
    ⟨acyclicEdges_of_lt
      (fun id => if id = "a" ∨ id = "b" then 0 else if id = "f" then 2 else 1) (by decide),
      by decide⟩
  obtain ⟨g, hg⟩ : ∃ g, SizedGraph.build nodes edges none o.defaultSize = .ok g :=
    SizedGraph.exists_build_iff.2 ⟨by decide, by decide⟩
  exact ⟨hforest, g, hg, solve_isForest hg hforest o⟩

end LayeredDrawing
