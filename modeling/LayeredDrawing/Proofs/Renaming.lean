import LayeredDrawing.Proofs.KeyedList
import LayeredDrawing.Proofs.Layout

/-!
# What a layout depends on

The graph of a diagram has numbers for names. Two diagrams with the same sizes by number and edges
between the same numbers (`Renames`) have the same graph but for the names, which `solve` carries
along without looking at them (`solve_rename`). The names come back in when the nodes are placed,
each at the placement under its own name, and since no name occurs twice these are the placements
in their order (`positions_placeNodes`).

* `resolveSize_congr`: of a size map only the entries for the node count, in any order.
* `Digraph.acyclic_congr`: of the back arcs only the members count, in any order.
* `Layout.compute_independent`: **two diagrams that differ in names and in what does not count are
  laid out alike.**
-/

namespace LayeredDrawing

variable {α δ ε : Type}

/-! ## Other names -/

/-- The graph with other names. -/
def SizedGraph.rename (g : SizedGraph α) (f : String → String) : SizedGraph α where
  nodes := g.nodes.map fun n => ⟨f n.id, n.size⟩
  graph := g.graph
  size_graph := by simpa using g.size_graph

/-- The solution with other names. -/
def Solution.rename (s : Solution α) (f : String → String) : Solution α :=
  { s with placements := s.placements.map fun e => (f e.1, e.2) }

theorem Solution.rename_id (s : Solution α) : s.rename id = s := by
  simp [rename]

@[simp] theorem SizedGraph.nodes_rename (g : SizedGraph α) (f : String → String) :
    (g.rename f).nodes = g.nodes.map fun n => ⟨f n.id, n.size⟩ := rfl

theorem SizedGraph.ext_of_arcs {g h : SizedGraph α} (hn : g.nodes = h.nodes)
    (ha : g.graph.arcs = h.graph.arcs) : g = h := by
  obtain ⟨nodes, ⟨size, arcs, hr⟩, hs⟩ := g
  obtain ⟨nodes', ⟨size', arcs', hr'⟩, hs'⟩ := h
  obtain rfl : nodes = nodes' := hn
  obtain rfl : arcs = arcs' := ha
  obtain rfl : size = size' := hs.trans hs'.symm
  rfl

section Solve

variable [Scalar α] (o : Options α) (g : SizedGraph α) (f : String → String)

theorem solveRanked_rename (ranks : Array Nat) :
    solveRanked o (g.rename f) ranks = (solveRanked o g ranks).rename f := by
  have hextents : frameExtents o (g.rename f) = frameExtents o g := by
    simp [frameExtents, SizedGraph.rename, Function.comp_def]
  have hlength : (g.rename f).nodes.length = g.nodes.length := List.length_map _
  have hplacement : ∀ (n : SizedNode α) v,
      placementOf o (g.rename f) ranks ⟨f n.id, n.size⟩ v = placementOf o g ranks n v := by
    intro n v
    simp only [placementOf, drawnTurn, drawnFrame, hextents, hlength]
    rfl
  have hplacements : (solveRanked o (g.rename f) ranks).placements =
      (solveRanked o g ranks).placements.map fun e => (f e.1, e.2) := by
    rw [placements_solveRanked, placements_solveRanked, List.map_map]
    simp only [SizedGraph.rename, List.zipIdx_map, List.map_map]
    exact List.map_congr_left fun p _ => congrArg (Prod.mk (f p.1.id)) (hplacement p.1 p.2)
  exact congrArg₂ Solution.mk hplacements rfl

/-- A solution takes the names of its graph as they are. -/
theorem solve_rename : solve o (g.rename f) = (solve o g).map (·.rename f) := by
  obtain ⟨ranks, hr, -⟩ := g.graph.exists_leastRanks_acyclic
  have hr' : (g.rename f).graph.acyclic.ranks = .ok ranks := hr
  have hnil : (g.rename f).nodes = [] ↔ g.nodes = [] := List.map_eq_nil_iff
  rw [solve_of_ranks o hr, solve_of_ranks o hr', if_congr hnil rfl rfl, solveRanked_rename]
  split <;> rfl

end Solve

/-! ## Diagrams with the same graph -/

/-- The numbers of the ends of an edge, as far as they are nodes. -/
def Edge.ends (ids : List String) (e : Edge) : Option Nat × Option Nat :=
  (ids.idxOf? e.source, ids.idxOf? e.target)

theorem Edge.joins_iff_ends {ids : List String} {e : Edge} :
    e.Joins ids ↔ (e.ends ids).1.isSome ∧ (e.ends ids).2.isSome := by
  rw [Joins, ends, List.isSome_idxOf?, List.isSome_idxOf?]

namespace SizedGraph

variable [Scalar α] {nodes : List (Node α δ)} {edges : List Edge} {sizes : Option (SizeMap α)}
  {default : Size α} {g : SizedGraph α} (hg : build nodes edges sizes default = .ok g)

include hg

theorem nodes_eq_zipWith : g.nodes =
    List.zipWith SizedNode.mk (nodes.map (·.id)) (nodes.map (resolveSize sizes default)) := by
  rw [nodes_of_build hg, List.zipWith_map, List.zipWith_self]

theorem arcs_eq_map_ends : g.graph.arcs = (edges.map (Edge.ends (nodes.map (·.id)))).map
    fun p => ⟨p.1.getD nodes.length, p.2.getD nodes.length⟩ := by
  rw [arcs_of_build hg, List.map_map]
  simp [Edge.ends, List.idxOf_eq_getD_idxOf?]

end SizedGraph

/-- The second diagram has other names, and by the numbers of the nodes the same sizes and the
same edges. Nothing is said of the positions and the data of nodes, of the names of edges, and of
how the sizes come about. -/
structure Renames [Scalar α] (f : String → String) (default : Size α)
    (nodes : List (Node α δ)) (edges : List Edge) (sizes : Option (SizeMap α))
    (nodes' : List (Node α ε)) (edges' : List Edge) (sizes' : Option (SizeMap α)) : Prop where
  ids : nodes'.map (·.id) = (nodes.map (·.id)).map f
  injective : ∀ u ∈ nodes.map (·.id), ∀ v ∈ nodes.map (·.id), f u = f v → u = v
  sizes : nodes'.map (SizedGraph.resolveSize sizes' default) =
    nodes.map (SizedGraph.resolveSize sizes default)
  ends : edges'.map (Edge.ends (nodes'.map (·.id))) = edges.map (Edge.ends (nodes.map (·.id)))

namespace Renames

variable [Scalar α] {f : String → String} {default : Size α} {nodes : List (Node α δ)}
  {edges : List Edge} {sizes : Option (SizeMap α)} {nodes' : List (Node α ε)}
  {edges' : List Edge} {sizes' : Option (SizeMap α)}
  (h : Renames f default nodes edges sizes nodes' edges' sizes')

include h

theorem nodup_iff : (nodes'.map (·.id)).Nodup ↔ (nodes.map (·.id)).Nodup := by
  rw [h.ids]
  exact ⟨List.Nodup.of_map f, fun hn => hn.map_on h.injective⟩

theorem joins_iff :
    (∀ e ∈ edges', e.Joins (nodes'.map (·.id))) ↔ ∀ e ∈ edges, e.Joins (nodes.map (·.id)) := by
  simp only [Edge.joins_iff_ends]
  rw [← List.forall_mem_map (f := Edge.ends (nodes'.map (·.id)))
      (P := fun p => p.1.isSome = true ∧ p.2.isSome = true), h.ends, List.forall_mem_map]

theorem exists_build_iff :
    (∃ g, SizedGraph.build nodes' edges' sizes' default = .ok g) ↔
      ∃ g, SizedGraph.build nodes edges sizes default = .ok g := by
  rw [SizedGraph.exists_build_iff, SizedGraph.exists_build_iff, h.nodup_iff, h.joins_iff]

/-- Both diagrams have one graph, but for the names. -/
theorem build_eq {g : SizedGraph α} (hg : SizedGraph.build nodes edges sizes default = .ok g) :
    SizedGraph.build nodes' edges' sizes' default = .ok (g.rename f) := by
  obtain ⟨g', hg'⟩ := h.exists_build_iff.2 ⟨g, hg⟩
  have hlength : nodes'.length = nodes.length := by
    simpa using congrArg List.length h.ids
  have hnodes : g'.nodes = (g.rename f).nodes := by
    rw [SizedGraph.nodes_eq_zipWith hg', h.ids, h.sizes, SizedGraph.nodes_rename,
      SizedGraph.nodes_eq_zipWith hg, List.map_zipWith, List.zipWith_map_left]
  have harcs : g'.graph.arcs = (g.rename f).graph.arcs := by
    rw [SizedGraph.arcs_eq_map_ends hg', h.ends, hlength]
    exact (SizedGraph.arcs_eq_map_ends hg).symm
  rw [hg', SizedGraph.ext_of_arcs hnodes harcs]

end Renames

/-! ## The nodes in their places -/

/-- The places of the nodes, looked up by their names. -/
theorem map_position_placeNodes [Scalar α] {s : Solution α} {nodes placed : List (Node α δ)}
    (h : placeNodes s nodes = .ok placed) :
    (placed.map (·.position)).map some =
      (nodes.map (·.id)).map fun id => (s.get? id).map (·.topLeft) := by
  induction nodes generalizing placed with
  | nil =>
    obtain rfl : [] = placed := by simpa [placeNodes] using h
    rfl
  | cons node rest ih =>
    rw [placeNodes] at h
    split at h
    · cases h
    rename_i p hp
    split at h
    · cases h
    rename_i placed' hrest
    obtain rfl := Except.ok.inj h
    rw [List.map_cons, List.map_cons, ih hrest, List.map_cons, List.map_cons, hp]
    rfl

/-- Nodes with the names of a solution go to its placements in their order. -/
theorem positions_placeNodes [Scalar α] {s : Solution α} {nodes placed : List (Node α δ)}
    (h : placeNodes s nodes = .ok placed) (hids : s.placements.map (·.1) = nodes.map (·.id))
    (hn : (nodes.map (·.id)).Nodup) :
    placed.map (·.position) = s.placements.map (·.2.topLeft) := by
  have hget : s.placements.map (fun e => (s.get? e.1).map (·.topLeft)) =
      s.placements.map fun e => some e.2.topLeft := by
    refine List.map_congr_left fun e he => ?_
    rw [Solution.get?, (lookup_eq_some_iff_mem (hids ▸ hn)).2 he, Option.map_some]
  refine List.map_injective_iff.2 (fun _ _ => Option.some.inj) ?_
  rw [map_position_placeNodes h, ← hids, List.map_map, List.map_map]
  exact hget

/-- Nodes are known by their contents and positions. -/
theorem ext_of_content {nodes nodes' : List (Node α δ)}
    (hc : nodes'.map Node.content = nodes.map Node.content)
    (hp : nodes'.map (·.position) = nodes.map (·.position)) : nodes' = nodes := by
  have hpairs : ∀ ns : List (Node α δ), ns.map (fun n => (n.content, n.position)) =
      (ns.map Node.content).zip (ns.map (·.position)) := by
    intro ns
    rw [List.zip, List.zipWith_map, List.zipWith_self]
  have hinj : Function.Injective fun n : Node α δ => (n.content, n.position) := by
    rintro ⟨id, data, position, measured⟩ ⟨id', data', position', measured'⟩ he
    simpa [Node.content, and_assoc, and_comm, and_left_comm] using he
  refine List.map_injective_iff.2 hinj ?_
  rw [hpairs, hpairs, hc, hp]

/-! ## What does not count -/

/-- Of size maps without repeated names only the entries for the node count, in any order. -/
theorem SizedGraph.resolveSize_congr [Scalar α] {sizes sizes' : Option (SizeMap α)}
    (hn : ((sizes.getD []).map (·.1)).Nodup) (hn' : ((sizes'.getD []).map (·.1)).Nodup)
    {n : Node α δ} (h : ∀ s, (n.id, s) ∈ sizes'.getD [] ↔ (n.id, s) ∈ sizes.getD [])
    (default : Size α) : resolveSize sizes' default n = resolveSize sizes default n := by
  rw [resolveSize, resolveSize, lookup_congr hn' hn h]

theorem SizedGraph.build_congr_sizes [Scalar α] {nodes : List (Node α δ)} {edges : List Edge}
    {sizes sizes' : Option (SizeMap α)} {default : Size α}
    (h : ∀ n ∈ nodes, resolveSize sizes' default n = resolveSize sizes default n) :
    build nodes edges sizes' default = build nodes edges sizes default := by
  have hnodes : nodes.map (fun n => (⟨n.id, resolveSize sizes' default n⟩ : SizedNode α)) =
      nodes.map fun n => ⟨n.id, resolveSize sizes default n⟩ :=
    List.map_congr_left fun n hn => by rw [h n hn]
  simp only [build, hnodes]

/-- The sizes come from the contents of the nodes. -/
theorem SizedGraph.map_resolveSize_of_content [Scalar α] {nodes nodes' : List (Node α δ)}
    (h : nodes'.map Node.content = nodes.map Node.content) (sizes : Option (SizeMap α))
    (default : Size α) :
    nodes'.map (resolveSize sizes default) = nodes.map (resolveSize sizes default) := by
  have hcontent : ∀ ns : List (Node α δ), ns.map (resolveSize sizes default) =
      (ns.map Node.content).map
        fun c => resolveSize sizes default ⟨c.1, c.2.1, Point.origin, c.2.2⟩ := by
    intro ns
    rw [List.map_map]
    rfl
  rw [hcontent, hcontent, h]

/-- Of the back arcs only the members count, in any order. -/
theorem Digraph.acyclic_congr (g : Digraph) {back : List Arc}
    (h : ∀ a, a ∈ back ↔ a ∈ g.backArcs) : g.arcs.filterMap (orient back) = g.acyclic.arcs := by
  refine List.filterMap_congr fun a _ => ?_
  rw [orient, orient, if_congr (h a) rfl rfl]

namespace Layout

variable {o : Options Float32} {nodes : List (Node Float32 δ)} {edges : List Edge}
  {sizes : Option (SizeMap Float32)} {l : Layout δ}

theorem positions_compute (h : compute o nodes edges sizes = .ok l) :
    l.nodes.map (·.position) = l.solution.placements.map (·.2.topLeft) := by
  obtain ⟨-, g, hg, hs, hplaced, -⟩ := stages_of_compute h
  have hids : l.solution.placements.map (·.1) = nodes.map (·.id) := by
    rw [ids_solve hs, SizedGraph.nodes_of_build hg, List.map_map]
    rfl
  exact positions_placeNodes hplaced hids (SizedGraph.exists_build_iff.1 ⟨g, hg⟩).1

variable {f : String → String} {nodes' : List (Node Float32 ε)} {edges' : List Edge}
  {sizes' : Option (SizeMap Float32)}

section Renamed

variable (h : Renames f o.defaultSize nodes edges sizes nodes' edges' sizes')

include h

theorem exists_compute_iff_of_renames :
    (∃ l, compute o nodes' edges' sizes' = .ok l) ↔ ∃ l, compute o nodes edges sizes = .ok l := by
  rw [exists_compute_iff, exists_compute_iff, h.nodup_iff, h.joins_iff]

theorem solution_of_renames {l' : Layout ε} (hl : compute o nodes edges sizes = .ok l)
    (hl' : compute o nodes' edges' sizes' = .ok l') : l'.solution = l.solution.rename f := by
  obtain ⟨-, g, hg, hs, -⟩ := stages_of_compute hl
  obtain ⟨-, g', hg', hs', -⟩ := stages_of_compute hl'
  obtain rfl := Except.ok.inj ((h.build_eq hg).symm.trans hg')
  rw [solve_rename, hs] at hs'
  exact (Except.ok.inj hs').symm

theorem positions_of_renames {l' : Layout ε} (hl : compute o nodes edges sizes = .ok l)
    (hl' : compute o nodes' edges' sizes' = .ok l') :
    l'.nodes.map (·.position) = l.nodes.map (·.position) := by
  rw [positions_compute hl', positions_compute hl, solution_of_renames h hl hl',
    Solution.rename, List.map_map]
  rfl

end Renamed

theorem compute_congr_sizes
    (h : ∀ n ∈ nodes, SizedGraph.resolveSize sizes' o.defaultSize n =
      SizedGraph.resolveSize sizes o.defaultSize n) :
    compute o nodes edges sizes' = compute o nodes edges sizes := by
  simp only [compute, SizedGraph.build_congr_sizes h]

/-- A layout of a layout is the same. -/
theorem compute_again (h : compute o nodes edges sizes = .ok l) :
    compute o l.nodes l.edges sizes = .ok l := by
  have hcontent := map_content_compute h
  have hids : l.nodes.map (·.id) = nodes.map (·.id) := by
    have := congrArg (List.map (·.1)) hcontent
    rwa [List.map_map, List.map_map] at this
  obtain ⟨-, -, -, -, -, hedges⟩ := stages_of_compute h
  have hr : Renames id o.defaultSize nodes edges sizes l.nodes l.edges sizes :=
    ⟨by rw [hids, List.map_id], fun _ _ _ _ e => e,
      SizedGraph.map_resolveSize_of_content hcontent sizes _, by rw [hids, hedges]⟩
  obtain ⟨l', hl'⟩ := (exists_compute_iff_of_renames hr).2 ⟨l, h⟩
  obtain ⟨-, -, -, -, -, hedges'⟩ := stages_of_compute hl'
  have hsolution := solution_of_renames hr h hl'
  rw [Solution.rename_id] at hsolution
  have hnodes := ext_of_content (map_content_compute hl') (positions_of_renames hr h hl')
  obtain ⟨placed, edges', s⟩ := l'
  obtain rfl : placed = l.nodes := hnodes
  obtain rfl : edges' = l.edges := hedges'
  obtain rfl : s = l.solution := hsolution
  exact hl'

/-- **A layout depends on sizes and edges by number, and on nothing else.** Let the nodes of a
second diagram have other names, none of them twice for different ones, with the same sizes in
their order, and let its edges join nodes of the same numbers. Then both are laid out or neither
is, with the same solution but for the names and with the nodes at the same positions. Laying out a
layout again changes nothing; size maps with the same entries for the names of the diagram do the
same, whatever else they hold and in whatever order, and so do lists of the same back arcs. -/
theorem compute_independent
    (h : Renames f o.defaultSize nodes edges sizes nodes' edges' sizes') :
    ((∃ l, compute o nodes' edges' sizes' = .ok l) ↔ ∃ l, compute o nodes edges sizes = .ok l) ∧
    (∀ l l', compute o nodes edges sizes = .ok l → compute o nodes' edges' sizes' = .ok l' →
      l'.solution = l.solution.rename f ∧
        l'.nodes.map (·.position) = l.nodes.map (·.position)) ∧
    (∀ l, compute o nodes edges sizes = .ok l → compute o l.nodes l.edges sizes = .ok l) ∧
    (∀ sizes₂ : Option (SizeMap Float32), ((sizes.getD []).map (·.1)).Nodup →
      ((sizes₂.getD []).map (·.1)).Nodup →
      (∀ e : String × Size Float32, e.1 ∈ nodes.map (·.id) →
        (e ∈ sizes₂.getD [] ↔ e ∈ sizes.getD [])) →
      compute o nodes edges sizes₂ = compute o nodes edges sizes) ∧
    ∀ (g : Digraph) (back : List Arc), (∀ a, a ∈ back ↔ a ∈ g.backArcs) →
      g.arcs.filterMap (Digraph.orient back) = g.acyclic.arcs := by
  refine ⟨exists_compute_iff_of_renames h,
    fun l l' hl hl' => ⟨solution_of_renames h hl hl', positions_of_renames h hl hl'⟩,
    fun l hl => compute_again hl, fun sizes₂ hn hn₂ hm => ?_, fun g back => g.acyclic_congr⟩
  refine compute_congr_sizes fun n hn' => SizedGraph.resolveSize_congr hn hn₂ (fun s => ?_) _
  exact hm (n.id, s) (List.mem_map_of_mem hn')

/-- A cycle and its copy under other names, with data of another type, measured where the first has
its sizes from a map. -/
theorem compute_independent_cycle :
    let f : String → String := fun id => if id = "a" then "b" else "a"
    let nodes : List (Node Float32 Unit) := [
      ⟨"a", (), ⟨0, 0⟩, none⟩, ⟨"b", (), ⟨3, 4⟩, some ⟨7, 7⟩⟩]
    let edges : List Edge := [⟨"e", "a", "b"⟩, ⟨"f", "b", "a"⟩, ⟨"g", "b", "b"⟩]
    let sizes : SizeMap Float32 := [("c", ⟨1, 1⟩), ("a", ⟨10, 20⟩), ("b", ⟨30, 5⟩)]
    let nodes' : List (Node Float32 String) := [
      ⟨"b", "first", ⟨1 / 0, 0⟩, some ⟨10, 20⟩⟩, ⟨"a", "second", ⟨0, 0⟩, some ⟨30, 5⟩⟩]
    let edges' : List Edge := [⟨"h", "b", "a"⟩, ⟨"h", "a", "b"⟩, ⟨"", "a", "a"⟩]
    ∃ l l', compute Options.default nodes edges (some sizes) = .ok l ∧
      compute Options.default nodes' edges' none = .ok l' ∧
      l'.solution = l.solution.rename f ∧
      l'.nodes.map (·.position) = l.nodes.map (·.position) ∧
      compute Options.default l.nodes l.edges (some sizes) = .ok l ∧
      compute Options.default nodes edges (some sizes.reverse.dropLast) = .ok l := by
  intro f nodes edges sizes nodes' edges'
  obtain ⟨l, hl⟩ : ∃ l, compute Options.default nodes edges (some sizes) = .ok l :=
    exists_compute_iff.2 ⟨by decide +kernel, by decide, by decide⟩
  have h : Renames f Options.default.defaultSize nodes edges (some sizes) nodes' edges' none :=
    ⟨by decide, by decide, by decide +kernel, by decide⟩
  obtain ⟨hiff, hsame, hagain, hsizes, -⟩ := compute_independent h
  obtain ⟨l', hl'⟩ := hiff.2 ⟨l, hl⟩
  obtain ⟨hsolution, hpositions⟩ := hsame l l' hl hl'
  refine ⟨l, l', hl, hl', hsolution, hpositions, hagain l hl, ?_⟩
  rw [hsizes (some sizes.reverse.dropLast) (by decide) (by decide) ?_, hl]
  rintro ⟨id, s⟩ hid
  have hids : id = "a" ∨ id = "b" := by simpa [nodes] using hid
  rcases hids with rfl | rfl <;> simp [sizes]

end Layout

end LayeredDrawing
