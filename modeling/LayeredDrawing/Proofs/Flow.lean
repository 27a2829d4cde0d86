import LayeredDrawing.Proofs.Layout

/-!
# The flow of a drawing

The arcs of a graph without cycles ascend. An edge of a diagram therefore goes to a higher rank
unless its arc was reversed to break a cycle, and the arcs that are reversed are back arcs of a
search, so a walk leads back from their end to their start (`Digraph.LeastRanks.lt_or_closed`).
Walks cannot come to a node that only loops lead to, so no arc is turned towards it, and it stays
in the first rank (`Digraph.LeastRanks.eq_zero`).

* `Layout.exists_leastRanks`: the ranks of a layout are least ranks, by the names of the nodes.
* `Layout.flows_compute`: **every edge goes with the flow but for cycles.**
-/

namespace LayeredDrawing

open Relation

/-! ## Arcs that are reversed -/

namespace Digraph

variable {g : Digraph} {ranks : Array Nat}

theorem oriented_mem_acyclic {a : Arc} (ha : a ∈ g.arcs) (hl : a.isLoop = false) :
    (if a ∈ g.backArcs then a.reverse else a) ∈ g.acyclic.arcs := by
  rw [arcs_acyclic]
  exact List.mem_map.2 ⟨a, List.mem_filter.2 ⟨ha, by simp [hl]⟩, rfl⟩

/-- An arc ascends, or it descends and a walk leads back from its end to its start. -/
theorem LeastRanks.lt_or_closed (h : g.acyclic.LeastRanks ranks) {a : Arc} (ha : a ∈ g.arcs)
    (hl : a.isLoop = false) :
    ranks.getD a.source 0 < ranks.getD a.target 0 ∨
      ranks.getD a.target 0 < ranks.getD a.source 0 ∧ ReflTransGen g.Adj a.target a.source := by
  have hm := oriented_mem_acyclic ha hl
  by_cases hb : a ∈ g.backArcs
  · rw [if_pos hb] at hm
    exact .inr ⟨h.ascends _ _ hm, closed_of_mem_backArcs hb⟩
  · rw [if_neg hb] at hm
    exact .inl (h.ascends _ _ hm)

/-- A graph without cycles, but for loops, only loses its loops. -/
theorem arcs_acyclic_of_not_closed
    (h : ∀ a ∈ g.arcs, a.isLoop = false → ¬ ReflTransGen g.Adj a.target a.source) :
    g.acyclic.arcs = g.arcs.filter (!·.isLoop) := by
  rw [arcs_acyclic, List.map_congr_left (g := id), List.map_id]
  intro a ha
  obtain ⟨ha, hl⟩ := List.mem_filter.1 ha
  exact if_neg fun hb => h a ha (by simpa using hl) (closed_of_mem_backArcs hb)

/-- No walk comes to a node that only loops lead to. -/
theorem eq_of_reflTransGen {v w : Nat} (hv : ∀ u, g.Adj u v → u = v)
    (h : ReflTransGen g.Adj w v) : w = v := by
  induction h using ReflTransGen.head_induction_on with
  | refl => rfl
  | head ha _ ih => exact hv _ (ih ▸ ha)

/-- Breaking cycles turns no arc towards a node that only loops lead to. -/
theorem LeastRanks.eq_zero (h : g.acyclic.LeastRanks ranks) {v : Nat} (hlt : v < g.size)
    (hv : ∀ u, g.Adj u v → u = v) : ranks.getD v 0 = 0 := by
  by_contra hne
  obtain ⟨u, ha, -⟩ := h.predecessor v hlt (Nat.pos_of_ne_zero hne)
  rw [Adj, arcs_acyclic] at ha
  obtain ⟨b, hb, e⟩ := List.mem_map.1 ha
  obtain ⟨hb, hl⟩ := List.mem_filter.1 hb
  have hl : b.source ≠ b.target := by simpa [Arc.isLoop] using hl
  split at e
  · rename_i hback
    have hs : b.source = v := congrArg Arc.target e
    exact hl (hs.trans (eq_of_reflTransGen hv (hs ▸ closed_of_mem_backArcs hback)).symm)
  · have ht : b.target = v := congrArg Arc.target e
    exact hl ((hv b.source (ht ▸ hb)).trans ht.symm)

end Digraph

/-! ## Walks along edges -/

/-- An edge leads from the node of one name to that of another. -/
def Leads (edges : List Edge) (u v : String) : Prop := ∃ e ∈ edges, e.source = u ∧ e.target = v

/-- The edge lies on a cycle: a walk along edges leads from its target back to its source. -/
def Edge.OnCycle (edges : List Edge) (e : Edge) : Prop :=
  ReflTransGen (Leads edges) e.target e.source

/-- No walk along one or more edges comes back to where it starts. -/
def AcyclicEdges (edges : List Edge) : Prop := ∀ id, ¬ TransGen (Leads edges) id id

/-- A walk can do without loops. -/
theorem reflTransGen_filter_isSelfLoop {edges : List Edge} {u v : String}
    (h : ReflTransGen (Leads edges) u v) :
    ReflTransGen (Leads (edges.filter (!·.isSelfLoop))) u v := by
  induction h with
  | refl => exact .refl
  | tail _ hl ih =>
    obtain ⟨e, he, rfl, rfl⟩ := hl
    by_cases hs : e.source = e.target
    · exact hs ▸ ih
    · have hm : e ∈ edges.filter (!·.isSelfLoop) := by simp [he, Edge.isSelfLoop, hs]
      exact ih.tail ⟨e, hm, rfl, rfl⟩

theorem AcyclicEdges.not_onCycle {edges : List Edge}
    (h : AcyclicEdges (edges.filter (!·.isSelfLoop))) {e : Edge} (he : e ∈ edges)
    (hl : e.isSelfLoop = false) : ¬ e.OnCycle edges := by
  intro hc
  have hm : e ∈ edges.filter (!·.isSelfLoop) := by simp [he, hl]
  exact h e.source (.head' ⟨e, hm, rfl, rfl⟩ (reflTransGen_filter_isSelfLoop hc))

/-- Edges that all go up have no cycle. -/
theorem acyclicEdges_of_lt {edges : List Edge} (level : String → Nat)
    (h : ∀ e ∈ edges, level e.source < level e.target) : AcyclicEdges edges := by
  have hstep : ∀ u v, Leads edges u v → level u < level v := by
    rintro u v ⟨e, he, rfl, rfl⟩
    exact h e he
  have hwalk : ∀ u v, TransGen (Leads edges) u v → level u < level v := by
    intro u v huv
    induction huv with
    | single hl => exact hstep _ _ hl
    | tail _ hl ih => exact Nat.lt_trans ih (hstep _ _ hl)
  exact fun id hid => Nat.lt_irrefl _ (hwalk id id hid)

/-! ## The arcs of edges -/

/-- The number of a name leads back to it. -/
theorem getD_idxOf {ids : List String} {id : String} (h : id ∈ ids) :
    ids.getD (ids.idxOf id) "" = id := by
  rw [List.getD_eq_getElem?_getD, List.getElem?_idxOf h, Option.getD_some]

namespace SizedGraph

variable {α δ : Type} [Scalar α] {nodes : List (Node α δ)} {edges : List Edge}
  {sizes : Option (SizeMap α)} {default : Size α} {g : SizedGraph α}

/-- The arc of an edge: it joins the numbers of the ends. -/
def arcOfEdge (nodes : List (Node α δ)) (e : Edge) : Arc :=
  ⟨(nodes.map (·.id)).idxOf e.source, (nodes.map (·.id)).idxOf e.target⟩

omit [Scalar α] in
theorem isLoop_arcOfEdge {e : Edge} (h : e.Joins (nodes.map (·.id))) :
    (arcOfEdge nodes e).isLoop = e.isSelfLoop := by
  rw [Bool.eq_iff_iff, Arc.isLoop, Edge.isSelfLoop, beq_iff_eq, beq_iff_eq]
  exact List.idxOf_inj h.1

variable (hg : build nodes edges sizes default = .ok g)

include hg

theorem joins_of_build {e : Edge} (he : e ∈ edges) : e.Joins (nodes.map (·.id)) :=
  (exists_build_iff.1 ⟨g, hg⟩).2 e he

theorem idxOf_lt_size {id : String} (h : id ∈ nodes.map (·.id)) :
    (nodes.map (·.id)).idxOf id < g.graph.size := by
  have hlength := List.idxOf_lt_length_of_mem h
  rw [List.length_map] at hlength
  rwa [g.size_graph, nodes_of_build hg, List.length_map]

theorem mem_arcs_iff {a : Arc} : a ∈ g.graph.arcs ↔ ∃ e ∈ edges, arcOfEdge nodes e = a := by
  rw [arcs_of_build hg]
  exact List.mem_map

/-- A walk of the graph is a walk along edges. -/
theorem leads_of_reflTransGen {u v : String} (hu : u ∈ nodes.map (·.id))
    (hv : v ∈ nodes.map (·.id))
    (h : ReflTransGen g.graph.Adj ((nodes.map (·.id)).idxOf u) ((nodes.map (·.id)).idxOf v)) :
    ReflTransGen (Leads edges) u v := by
  have hstep : ∀ i j, g.graph.Adj i j →
      Leads edges ((nodes.map (·.id)).getD i "") ((nodes.map (·.id)).getD j "") := by
    intro i j ha
    obtain ⟨e, he, hij⟩ := (mem_arcs_iff hg).1 ha
    obtain ⟨rfl, rfl⟩ := Arc.mk.inj hij
    obtain ⟨hs, ht⟩ := joins_of_build hg he
    exact ⟨e, he, (getD_idxOf hs).symm, (getD_idxOf ht).symm⟩
  have hlift : Relation.ReflTransGen (Leads edges)
      ((nodes.map (·.id)).getD ((nodes.map (·.id)).idxOf u) "")
      ((nodes.map (·.id)).getD ((nodes.map (·.id)).idxOf v) "") := h.lift _ hstep
  rwa [getD_idxOf hu, getD_idxOf hv] at hlift

/-- The edge of an arc on a cycle lies on a cycle. -/
theorem onCycle_of_closed {e : Edge} (he : e ∈ edges)
    (h : ReflTransGen g.graph.Adj (arcOfEdge nodes e).target (arcOfEdge nodes e).source) :
    e.OnCycle edges := by
  obtain ⟨hs, ht⟩ := joins_of_build hg he
  exact leads_of_reflTransGen hg ht hs h

/-- If all cycles are loops, breaking cycles only drops the loops. -/
theorem arcs_acyclic_of_build (h : AcyclicEdges (edges.filter (!·.isSelfLoop))) :
    g.graph.acyclic.arcs = g.graph.arcs.filter (!·.isLoop) := by
  refine Digraph.arcs_acyclic_of_not_closed fun a ha hl hc => ?_
  obtain ⟨e, he, rfl⟩ := (mem_arcs_iff hg).1 ha
  rw [isLoop_arcOfEdge (joins_of_build hg he)] at hl
  exact h.not_onCycle he hl (onCycle_of_closed hg he hc)

end SizedGraph

/-! ## Layouts -/

/-- The rank of a node. -/
def Solution.rank? {α : Type} (s : Solution α) (id : String) : Option Nat :=
  (s.get? id).map (·.rank)

/-- The solution of the graph of a diagram has least ranks, by the names of the nodes. -/
theorem SizedGraph.exists_leastRanks {α δ : Type} [Scalar α] {nodes : List (Node α δ)}
    {edges : List Edge} {sizes : Option (SizeMap α)} {default : Size α} {g : SizedGraph α}
    (hg : build nodes edges sizes default = .ok g) {o : Options α} {s : Solution α}
    (hs : solve o g = .ok s) :
    ∃ ranks, g.graph.acyclic.LeastRanks ranks ∧ ∀ id ∈ nodes.map (·.id),
      s.rank? id = some (ranks.getD ((nodes.map (·.id)).idxOf id) 0) := by
  have hnodes := nodes_of_build hg
  by_cases hne : g.nodes = []
  · obtain ⟨ranks, -, hl⟩ := g.graph.exists_leastRanks_acyclic
    obtain rfl : nodes = [] := by simpa [hnodes] using hne
    exact ⟨ranks, hl, by simp⟩
  · obtain ⟨ranks, hl, e⟩ := exists_solve_eq_solveRanked o hne
    rw [Except.ok.inj (hs.symm.trans e)]
    refine ⟨ranks, hl, fun id hid => ?_⟩
    obtain ⟨n, hv, rfl⟩ := exists_node_of_build hg hid
    have hget := get?_solveRanked o g ranks (nodup_of_build hg) hv
    exact congrArg (Option.map (·.rank)) hget

namespace Layout

variable {δ : Type} {o : Options Float32} {nodes : List (Node Float32 δ)} {edges : List Edge}
  {sizes : Option (SizeMap Float32)} {l : Layout δ}

/-- A layout has the least ranks of its graph without cycles. -/
theorem exists_leastRanks (h : compute o nodes edges sizes = .ok l) :
    ∃ g, SizedGraph.build nodes edges sizes o.defaultSize = .ok g ∧
      ∃ ranks, g.graph.acyclic.LeastRanks ranks ∧ ∀ id ∈ nodes.map (·.id),
        l.solution.rank? id = some (ranks.getD ((nodes.map (·.id)).idxOf id) 0) := by
  obtain ⟨-, g, hg, hs, -⟩ := stages_of_compute h
  exact ⟨g, hg, SizedGraph.exists_leastRanks hg hs⟩

/-- An edge that is no loop joins different ranks, and it descends only on a cycle. -/
theorem onCycle_of_descends (h : compute o nodes edges sizes = .ok l) {e : Edge} (he : e ∈ edges)
    (hl : e.isSelfLoop = false) :
    ∃ i j, l.solution.rank? e.source = some i ∧ l.solution.rank? e.target = some j ∧ i ≠ j ∧
      (j < i → e.OnCycle edges) := by
  obtain ⟨g, hg, ranks, hleast, hrank⟩ := exists_leastRanks h
  have hj := SizedGraph.joins_of_build hg he
  refine ⟨_, _, hrank _ hj.1, hrank _ hj.2, ?_⟩
  have ha := (SizedGraph.mem_arcs_iff hg).2 ⟨e, he, rfl⟩
  rw [← SizedGraph.isLoop_arcOfEdge hj] at hl
  rcases hleast.lt_or_closed ha hl with hlt | ⟨hlt, hc⟩
  · exact ⟨Nat.ne_of_lt hlt, fun hgt => absurd hgt (Nat.lt_asymm hlt)⟩
  · exact ⟨Nat.ne_of_gt hlt, fun _ => SizedGraph.onCycle_of_closed hg he hc⟩

theorem rank?_eq_zero (h : compute o nodes edges sizes = .ok l) {n : Node Float32 δ}
    (hn : n ∈ nodes) (hin : ∀ e ∈ edges, e.target = n.id → e.source = n.id) :
    l.solution.rank? n.id = some 0 := by
  obtain ⟨g, hg, ranks, hleast, hrank⟩ := exists_leastRanks h
  have hid : n.id ∈ nodes.map (·.id) := List.mem_map_of_mem hn
  have hlt : (nodes.map (·.id)).idxOf n.id < g.graph.acyclic.size :=
    SizedGraph.idxOf_lt_size hg hid
  rw [hrank _ hid, hleast.eq_zero hlt fun u ha => ?_]
  obtain ⟨e, he, hu⟩ := (SizedGraph.mem_arcs_iff hg).1 ha
  obtain ⟨rfl, ht⟩ := Arc.mk.inj hu
  rw [hin e he ((List.idxOf_inj (SizedGraph.joins_of_build hg he).2).1 ht)]

/-- **Every edge goes with the flow but for cycles.** Of a diagram that is laid out, the ends of
an edge that is no loop have different ranks, and the edge goes to a lower rank only if it lies on
a cycle. If all cycles are loops, every other edge goes to a higher rank and breaking cycles keeps
the arcs of these edges as they are. A node that only loops lead to has rank `0`. -/
theorem flows_compute (h : compute o nodes edges sizes = .ok l) :
    (∀ e ∈ edges, e.isSelfLoop = false → ∃ i j,
      l.solution.rank? e.source = some i ∧ l.solution.rank? e.target = some j ∧ i ≠ j ∧
        (j < i → e.OnCycle edges)) ∧
    (AcyclicEdges (edges.filter (!·.isSelfLoop)) →
      (∀ e ∈ edges, e.isSelfLoop = false → ∃ i j,
        l.solution.rank? e.source = some i ∧ l.solution.rank? e.target = some j ∧ i < j) ∧
      ∃ g, SizedGraph.build nodes edges sizes o.defaultSize = .ok g ∧
        g.graph.acyclic.arcs = g.graph.arcs.filter (!·.isLoop)) ∧
    ∀ n ∈ nodes, (∀ e ∈ edges, e.target = n.id → e.source = n.id) →
      l.solution.rank? n.id = some 0 := by
  refine ⟨fun e he hl => onCycle_of_descends h he hl, fun hacyclic => ⟨fun e he hl => ?_, ?_⟩,
    fun n hn hin => rank?_eq_zero h hn hin⟩
  · obtain ⟨i, j, hi, hj, hne, hc⟩ := onCycle_of_descends h he hl
    have hle : ¬ j < i := fun hlt => hacyclic.not_onCycle he hl (hc hlt)
    exact ⟨i, j, hi, hj, by omega⟩
  · obtain ⟨g, hg, -⟩ := exists_leastRanks h
    exact ⟨g, hg, SizedGraph.arcs_acyclic_of_build hg hacyclic⟩

/-- A path with a loop at its second node, once with an edge that closes a cycle and once
without. -/
theorem flows_compute_path :
    let nodes : List (Node Float32 Unit) := [
      ⟨"a", (), ⟨0, 0⟩, none⟩, ⟨"b", (), ⟨0, 0⟩, some ⟨10, 20⟩⟩, ⟨"c", (), ⟨0, 0⟩, none⟩]
    let path : List Edge := [⟨"e", "a", "b"⟩, ⟨"f", "b", "b"⟩, ⟨"g", "b", "c"⟩]
    let cyclic : List Edge := path ++ [⟨"h", "c", "b"⟩]
    (∃ l, compute Options.default nodes cyclic none = .ok l ∧
      (∀ e ∈ cyclic, e.isSelfLoop = false → ∃ i j,
        l.solution.rank? e.source = some i ∧ l.solution.rank? e.target = some j ∧ i ≠ j ∧
          (j < i → e.OnCycle cyclic)) ∧
      l.solution.rank? "a" = some 0) ∧
    ∃ l, compute Options.default nodes path none = .ok l ∧
      ∀ e ∈ path, e.isSelfLoop = false → ∃ i j,
        l.solution.rank? e.source = some i ∧ l.solution.rank? e.target = some j ∧ i < j := by
  intro nodes path cyclic
  have ho : (Options.default : Options Float32).check = .ok () := by decide +kernel
  obtain ⟨l, hl⟩ : ∃ l, compute Options.default nodes cyclic none = .ok l :=
    exists_compute_iff.2 ⟨ho, by decide, by decide⟩
  obtain ⟨l', hl'⟩ : ∃ l, compute Options.default nodes path none = .ok l :=
    exists_compute_iff.2 ⟨ho, by decide, by decide⟩
  obtain ⟨hflow, -, hzero⟩ := flows_compute hl
  have hacyclic : AcyclicEdges (path.filter (!·.isSelfLoop)) :=
    acyclicEdges_of_lt (fun id => if id = "a" then 0 else if id = "b" then 1 else 2) (by decide)
  refine ⟨⟨l, hl, hflow, ?_⟩, l', hl', ((flows_compute hl').2.1 hacyclic).1⟩
  exact hzero _ List.mem_cons_self (by decide)

end Layout

end LayeredDrawing
