import LayeredDrawing.Proofs.Digraph.Parts
import LayeredDrawing.Proofs.Flow
import Mathlib.Data.List.GetD

/-!
# Parts of a diagram

A part of a diagram is given by the names of its nodes; no edge joins them to the other nodes.
The graph of the part is a part of the graph of the diagram under the numbers that its nodes have
among all of them (`SizedGraph.isPart_of_build`), and its ranks are those of the part. So are the
ranks of every other diagram with the same part, whatever else it consists of and however its nodes
and edges are mixed with those of the part.

* `SizedGraph.ranks_of_part`: **ranks are local to the parts of a diagram**, with cycles and all.
-/

namespace LayeredDrawing

/-! ## Numbers of the nodes of a part -/

section Numbers

variable {ids : List String} {part : String → Bool}

/-- Numbers among all names for the numbers among the names of the part, and others, different from
these and from one another, for the rest of the numbers. -/
def partNumber (ids : List String) (part : String → Bool) (i : Nat) : Nat :=
  ((ids.filter part).map ids.idxOf).getD i (ids.length + i)

theorem partNumber_idxOf {id : String} (h : id ∈ ids.filter part) :
    partNumber ids part ((ids.filter part).idxOf id) = ids.idxOf id := by
  rw [partNumber, List.getD_eq_getElem?_getD, List.getElem?_map, List.getElem?_idxOf h]
  rfl

theorem partNumber_of_lt {i : Nat} (h : i < (ids.filter part).length) :
    partNumber ids part i = ids.idxOf (ids.filter part)[i] := by
  rw [partNumber, List.getD_eq_getElem _ _ (by simpa using h), List.getElem_map]

theorem partNumber_of_le {i : Nat} (h : (ids.filter part).length ≤ i) :
    partNumber ids part i = ids.length + i := by
  rw [partNumber, List.getD_eq_default _ _ (by simpa using h)]

theorem partNumber_lt_length_iff {i : Nat} :
    partNumber ids part i < ids.length ↔ i < (ids.filter part).length := by
  by_cases h : i < (ids.filter part).length
  · have hm : (ids.filter part)[i] ∈ ids := (List.mem_filter.1 (List.getElem_mem h)).1
    simpa only [partNumber_of_lt h, h, iff_true] using List.idxOf_lt_length_of_mem hm
  · simp [partNumber_of_le (Nat.not_lt.1 h), h]

theorem partNumber_injective (hn : ids.Nodup) : Function.Injective (partNumber ids part) := by
  intro i j h
  have hiff : i < (ids.filter part).length ↔ j < (ids.filter part).length := by
    rw [← partNumber_lt_length_iff, h, partNumber_lt_length_iff]
  by_cases hi : i < (ids.filter part).length
  · have hj := hiff.1 hi
    rw [partNumber_of_lt hi, partNumber_of_lt hj] at h
    have hm : (ids.filter part)[i] ∈ ids := (List.mem_filter.1 (List.getElem_mem hi)).1
    exact ((hn.filter part).getElem_inj_iff).1 ((List.idxOf_inj hm).1 h)
  · rw [partNumber_of_le (Nat.not_lt.1 hi), partNumber_of_le (Nat.not_lt.1 (mt hiff.2 hi))] at h
    exact Nat.add_left_cancel h

/-- The numbers of the names of a part in their order. -/
theorem map_partNumber_range (hn : ids.Nodup) :
    (List.range (ids.filter part).length).map (partNumber ids part) =
      (List.range ids.length).filter fun v => part (ids.getD v "") := by
  have hids : (List.range ids.length).map (fun v => ids.getD v "") = ids := by
    refine List.ext_getElem (by simp) fun i hi _ => ?_
    simp at hi ⊢
    simp [hi]
  have hnumber : ∀ v ∈ (List.range ids.length).filter fun v => part (ids.getD v ""),
      ids.idxOf (ids.getD v "") = v := by
    intro v hv
    have hv : v < ids.length := List.mem_range.1 (List.mem_filter.1 hv).1
    rw [List.getD_eq_getElem _ _ hv, hn.idxOf_getElem]
  have hfilter : ids.filter part =
      ((List.range ids.length).filter fun v => part (ids.getD v "")).map
        fun v => ids.getD v "" := by
    conv_lhs => rw [← hids, List.filter_map]
    rfl
  calc (List.range (ids.filter part).length).map (partNumber ids part)
      = (ids.filter part).map ids.idxOf := by
        refine List.ext_getElem (by simp) fun i hi hi' => ?_
        have hlt : i < (ids.filter part).length := by simpa using hi
        rw [List.getElem_map, List.getElem_range, partNumber_of_lt hlt, List.getElem_map]
    _ = ((List.range ids.length).filter fun v => part (ids.getD v "")).map id := by
        conv_lhs => rw [hfilter, List.map_map]
        exact List.map_congr_left hnumber
    _ = _ := List.map_id _

end Numbers

/-! ## Diagrams with a common part -/

variable {α δ ε : Type}

/-- The names of the ends of an edge. -/
def Edge.endNames (e : Edge) : String × String := (e.source, e.target)

/-- No edge joins a node of the part to one that is not in it. -/
def IsClosed (part : String → Bool) (edges : List Edge) : Prop :=
  ∀ e ∈ edges, part e.target = part e.source

instance {part : String → Bool} {edges : List Edge} : Decidable (IsClosed part edges) :=
  inferInstanceAs (Decidable (∀ e ∈ edges, part e.target = part e.source))

/-- The part is one of both diagrams, and in both it has the same nodes in the same order and edges
with the same ends in the same order. Nothing is said of the rest, and of the data, the positions
and the sizes of the nodes. -/
structure CommonPart (part : String → Bool) (nodes : List (Node α δ)) (edges : List Edge)
    (nodes' : List (Node α ε)) (edges' : List Edge) : Prop where
  closed : IsClosed part edges
  closed' : IsClosed part edges'
  ids : (nodes.map (·.id)).filter part = (nodes'.map (·.id)).filter part
  ends : (edges.filter (part ·.source)).map Edge.endNames =
    (edges'.filter (part ·.source)).map Edge.endNames

namespace SizedGraph

variable [Scalar α] {part : String → Bool} {nodes : List (Node α δ)} {edges : List Edge}
  {sizes : Option (SizeMap α)} {default : Size α} {g : SizedGraph α}

/-- The nodes and edges of a part make a graph of their own. -/
theorem exists_build_part (hg : build nodes edges sizes default = .ok g)
    (hclosed : IsClosed part edges) :
    ∃ h, build (nodes.filter (part ·.id)) (edges.filter (part ·.source)) sizes default = .ok h := by
  obtain ⟨hn, hj⟩ := exists_build_iff.1 ⟨g, hg⟩
  have hids : (nodes.filter (part ·.id)).map (·.id) = (nodes.map (·.id)).filter part :=
    List.filter_map.symm
  refine exists_build_iff.2 ⟨hids ▸ hn.filter part, fun e he => ?_⟩
  obtain ⟨he, hs⟩ := List.mem_filter.1 he
  rw [Edge.Joins, hids]
  exact ⟨List.mem_filter.2 ⟨(hj e he).1, hs⟩,
    List.mem_filter.2 ⟨(hj e he).2, (hclosed e he).trans hs⟩⟩

/-- The graph of a part is a part of the graph of the whole diagram. -/
theorem isPart_of_build {nodes' : List (Node α ε)} {edges' : List Edge}
    {sizes' : Option (SizeMap α)} {default' : Size α} {h : SizedGraph α}
    (hg : build nodes edges sizes default = .ok g)
    (hh : build nodes' edges' sizes' default' = .ok h) (hclosed : IsClosed part edges)
    (hids : nodes'.map (·.id) = (nodes.map (·.id)).filter part)
    (hends : edges'.map Edge.endNames = (edges.filter (part ·.source)).map Edge.endNames) :
    h.graph.IsPart g.graph (partNumber (nodes.map (·.id)) part)
      fun v => part ((nodes.map (·.id)).getD v "") := by
  obtain ⟨hn, hj⟩ := exists_build_iff.1 ⟨g, hg⟩
  obtain ⟨-, hj'⟩ := exists_build_iff.1 ⟨h, hh⟩
  exact {
    injective := partNumber_injective hn
    closed := by
      intro a ha
      obtain ⟨e, he, rfl⟩ := (mem_arcs_iff hg).1 ha
      obtain ⟨hs, ht⟩ := hj e he
      simp only [arcOfEdge, getD_idxOf hs, getD_idxOf ht]
      exact hclosed e he
    nodes := by
      have hlength : g.graph.size = (nodes.map (·.id)).length := by
        rw [g.size_graph, nodes_of_build hg, List.length_map, List.length_map]
      have hlength' : h.graph.size = ((nodes.map (·.id)).filter part).length := by
        rw [h.size_graph, nodes_of_build hh, List.length_map, ← hids, List.length_map]
      rw [Digraph.nodes, Digraph.nodes, hlength, hlength', map_partNumber_range hn]
    arcs := by
      have hpart : ∀ e ∈ edges, part ((nodes.map (·.id)).getD (arcOfEdge nodes e).source "") =
          part e.source := fun e he => congrArg part (getD_idxOf (hj e he).1)
      have harc : ∀ e ∈ edges', (arcOfEdge nodes' e).map (partNumber (nodes.map (·.id)) part) =
          arcOfEdge nodes e := by
        intro e he
        obtain ⟨hs, ht⟩ := hj' e he
        rw [hids] at hs ht
        simp only [arcOfEdge, Arc.map, hids, partNumber_idxOf hs, partNumber_idxOf ht]
      have hendNames : ∀ edges : List Edge, edges.map (arcOfEdge nodes) =
          (edges.map Edge.endNames).map fun p =>
            ⟨(nodes.map (·.id)).idxOf p.1, (nodes.map (·.id)).idxOf p.2⟩ := by
        intro edges
        rw [List.map_map]
        rfl
      calc g.graph.arcs.filter (fun a => part ((nodes.map (·.id)).getD a.source ""))
          = (edges.filter (part ·.source)).map (arcOfEdge nodes) := by
            rw [arcs_of_build hg]
            exact List.filter_map.trans (congrArg _ (List.filter_congr hpart))
        _ = edges'.map (arcOfEdge nodes) := by rw [hendNames, ← hends, ← hendNames]
        _ = (edges'.map (arcOfEdge nodes')).map (Arc.map _) := by
            rw [List.map_map]
            exact (List.map_congr_left harc).symm
        _ = h.graph.arcs.map (Arc.map _) := by
            rw [arcs_of_build hh]
            rfl }

end SizedGraph

/-! ## Ranks -/

/-- Both solutions rank the nodes of a part, and they give them the same ranks. -/
def Solution.RankAlike (part : String → Bool) (ids : List String) (s s' : Solution α) : Prop :=
  ∀ id ∈ ids, part id = true → ∃ r, s.rank? id = some r ∧ s'.rank? id = some r

namespace SizedGraph

variable [Scalar α] {part : String → Bool} {nodes : List (Node α δ)} {edges : List Edge}
  {sizes : Option (SizeMap α)} {default : Size α} {g : SizedGraph α}

theorem rankAlike_of_isPart {nodes' : List (Node α ε)} {edges' : List Edge}
    {sizes' : Option (SizeMap α)} {default' : Size α} {h : SizedGraph α}
    (hg : build nodes edges sizes default = .ok g)
    (hh : build nodes' edges' sizes' default' = .ok h) (hclosed : IsClosed part edges)
    (hids : nodes'.map (·.id) = (nodes.map (·.id)).filter part)
    (hends : edges'.map Edge.endNames = (edges.filter (part ·.source)).map Edge.endNames)
    {o o' : Options α} {s s' : Solution α} (hs : solve o g = .ok s) (hs' : solve o' h = .ok s') :
    Solution.RankAlike part (nodes.map (·.id)) s s' := by
  obtain ⟨ranks, hl, hrank⟩ := exists_leastRanks hg hs
  obtain ⟨ranks', hl', hrank'⟩ := exists_leastRanks hh hs'
  have hpart := isPart_of_build hg hh hclosed hids hends
  intro id hid hp
  have hm : id ∈ (nodes.map (·.id)).filter part := List.mem_filter.2 ⟨hid, hp⟩
  have hm' : id ∈ nodes'.map (·.id) := hids ▸ hm
  have hsame := hpart.getD_ranks hl hl' (idxOf_lt_size hh hm')
  rw [hids, partNumber_idxOf hm, ← hids] at hsame
  exact ⟨_, hrank id hid, hsame ▸ hrank' id hm'⟩

/-- **Ranks are local to the parts of a diagram.** Take a part of a diagram, that is nodes that no
edge joins to the others; there may be cycles in it and elsewhere. The nodes and the edges of the
part make a diagram of their own, in which the nodes have the ranks that they have in the whole
one. They also have these ranks in every other diagram of which this is a part, with whatever
other nodes and edges between its own, and under other options. -/
theorem ranks_of_part (hg : build nodes edges sizes default = .ok g)
    (hclosed : IsClosed part edges) (o : Options α) :
    ∃ s, solve o g = .ok s ∧
      (∃ h s', build (nodes.filter (part ·.id)) (edges.filter (part ·.source)) sizes default =
          .ok h ∧ solve o h = .ok s' ∧
        Solution.RankAlike part (nodes.map (·.id)) s s') ∧
      ∀ {ε : Type} (nodes' : List (Node α ε)) (edges' : List Edge)
        (sizes' : Option (SizeMap α)) (default' : Size α) (g' : SizedGraph α) (o' : Options α),
        CommonPart part nodes edges nodes' edges' →
        build nodes' edges' sizes' default' = .ok g' →
        ∃ s', solve o' g' = .ok s' ∧ Solution.RankAlike part (nodes.map (·.id)) s s' := by
  have hids : (nodes.filter (part ·.id)).map (·.id) = (nodes.map (·.id)).filter part :=
    List.filter_map.symm
  obtain ⟨s, hs⟩ := exists_solve o g
  obtain ⟨h, hh⟩ := exists_build_part hg hclosed
  obtain ⟨sh, hsh⟩ := exists_solve o h
  have halike := rankAlike_of_isPart hg hh hclosed hids rfl hs hsh
  refine ⟨s, hs, ⟨h, sh, hh, hsh, halike⟩, fun nodes' edges' sizes' default' g' o' hc hg' => ?_⟩
  -- Both diagrams are compared with the part alone.
  obtain ⟨s', hs'⟩ := exists_solve o' g'
  refine ⟨s', hs', fun id hid hp => ?_⟩
  have halike' := rankAlike_of_isPart hg' hh hc.closed' (hids.trans hc.ids) hc.ends hs' hsh
  have hid' : id ∈ (nodes'.map (·.id)).filter part := hc.ids ▸ List.mem_filter.2 ⟨hid, hp⟩
  obtain ⟨r, hr, hrh⟩ := halike id hid hp
  obtain ⟨r', hr', hrh'⟩ := halike' id (List.mem_filter.1 hid').1 hp
  obtain rfl := Option.some.inj (hrh.symm.trans hrh')
  exact ⟨r, hr, hr'⟩

/-- A cycle with a loop and a parallel edge, first beside another cycle and then between nodes and
edges of its own. -/
theorem ranks_of_part_cycle :
    let part : String → Bool := fun id => id == "a" || id == "b"
    let nodes : List (Node Float32 Unit) := [⟨"x", (), ⟨0, 0⟩, none⟩, ⟨"a", (), ⟨0, 0⟩, none⟩,
      ⟨"y", (), ⟨0, 0⟩, none⟩, ⟨"b", (), ⟨0, 0⟩, none⟩]
    let edges : List Edge := [⟨"e", "y", "x"⟩, ⟨"f", "a", "b"⟩, ⟨"g", "x", "y"⟩, ⟨"h", "b", "a"⟩,
      ⟨"i", "b", "b"⟩, ⟨"j", "a", "b"⟩]
    let nodes' : List (Node Float32 Unit) := [⟨"a", (), ⟨5, 5⟩, none⟩, ⟨"b", (), ⟨0, 0⟩, none⟩,
      ⟨"z", (), ⟨0, 0⟩, none⟩]
    let edges' : List Edge := [⟨"k", "a", "b"⟩, ⟨"h", "b", "a"⟩, ⟨"l", "z", "z"⟩, ⟨"i", "b", "b"⟩,
      ⟨"m", "a", "b"⟩]
    ∃ g g' s s', build nodes edges none ⟨10, 20⟩ = .ok g ∧
      build nodes' edges' none ⟨30, 30⟩ = .ok g' ∧
      solve Options.default g = .ok s ∧ solve Options.default g' = .ok s' ∧
      Solution.RankAlike part ["x", "a", "y", "b"] s s' := by
  intro part nodes edges nodes' edges'
  obtain ⟨g, hg⟩ : ∃ g, build nodes edges none (⟨10, 20⟩ : Size Float32) = .ok g :=
    exists_build_iff.2 ⟨by decide, by decide⟩
  obtain ⟨g', hg'⟩ : ∃ g, build nodes' edges' none (⟨30, 30⟩ : Size Float32) = .ok g :=
    exists_build_iff.2 ⟨by decide, by decide⟩
  have hclosed : IsClosed part edges := by decide
  have hcommon : CommonPart part nodes edges nodes' edges' :=
    ⟨hclosed, by decide, by decide, by decide⟩
  obtain ⟨s, hs, -, hother⟩ := ranks_of_part hg hclosed Options.default
  obtain ⟨s', hs', halike⟩ := hother nodes' edges' none ⟨30, 30⟩ g' Options.default hcommon hg'
  exact ⟨g, g', s, s', hg, hg', hs, hs', halike⟩

end SizedGraph

end LayeredDrawing
