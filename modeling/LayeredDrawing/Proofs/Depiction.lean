import LayeredDrawing.Proofs.Renaming

/-!
# The graph of a diagram depicts it

The graph has a node for each node of the diagram and an arc for each edge, in the same order
(`SizedGraph.Depicts`). A node keeps its name, and its size is the first that can be laid out of
the sizes known for it, or else the default (`resolveSize_eq_find?`). The ends of an arc are numbers
of nodes; since no name occurs twice, the names at these numbers determine them
(`eq_idxOf_of_getElem?`), so that the graph is the only one that depicts the diagram.

* `SizedGraph.depicts_build`: **the graph built from a diagram depicts it**, and with a default size
  that can be laid out all its sizes are finite and positive.
-/

namespace LayeredDrawing.SizedGraph

variable {α δ : Type}

/-! ## Sizes -/

/-- The sizes known for a node, in the order in which they are tried: its entry in the size map and
its measured size. -/
def knownSizes (sizes : Option (SizeMap α)) (n : Node α δ) : List (Size α) :=
  ((sizes.getD []).lookup n.id).toList ++ n.measured.toList

/-- Known sizes that cannot be laid out are passed over. -/
theorem resolveSize_eq_find? [Scalar α] (sizes : Option (SizeMap α)) (default : Size α)
    (n : Node α δ) :
    resolveSize sizes default n =
      ((knownSizes sizes n).find? (·.isMeasurable)).getD default := by
  have hfind : ∀ x : Option (Size α), x.toList.find? (·.isMeasurable) =
      x.filter (·.isMeasurable) := by
    intro x
    cases x with
    | none => rfl
    | some s =>
      rw [Option.toList_some, List.find?_singleton]
      rfl
  rw [resolveSize, knownSizes, List.find?_append, hfind, hfind]

/-! ## Depictions -/

/-- A node of a graph stands for a node of a diagram: it has the same name, and for its size the
first known one that can be laid out, or else the default. -/
structure StandsFor [Scalar α] (sizes : Option (SizeMap α)) (default : Size α) (n : Node α δ)
    (m : SizedNode α) : Prop where
  id_eq : m.id = n.id
  size_eq : m.size = ((knownSizes sizes n).find? (·.isMeasurable)).getD default

/-- An arc leads from the node with the name of the source of an edge to the node with the name of
its target. -/
def Realizes (g : SizedGraph α) (e : Edge) (a : Arc) : Prop :=
  (g.nodes.map (·.id))[a.source]? = some e.source ∧ (g.nodes.map (·.id))[a.target]? = some e.target

/-- A graph depicts a diagram: the nodes stand for those of the diagram, one by one, no two of them
have the same name, and the arcs realize the edges, one by one. -/
structure Depicts [Scalar α] (g : SizedGraph α) (nodes : List (Node α δ)) (edges : List Edge)
    (sizes : Option (SizeMap α)) (default : Size α) : Prop where
  nodes : nodes.Forall₂ (StandsFor sizes default) g.nodes
  distinct : (g.nodes.map (·.id)).Nodup
  arcs : edges.Forall₂ g.Realizes g.graph.arcs

section Build

variable [Scalar α] {nodes : List (Node α δ)} {edges : List Edge} {sizes : Option (SizeMap α)}
  {default : Size α} {g : SizedGraph α}

theorem standsFor_of_build (h : build nodes edges sizes default = .ok g) :
    nodes.Forall₂ (StandsFor sizes default) g.nodes := by
  rw [nodes_of_build h, List.forall₂_map_right_iff]
  exact List.forall₂_same.2 fun n _ => ⟨rfl, resolveSize_eq_find? sizes default n⟩

/-- Looking up the name of an end finds the node with that name. -/
theorem realizes_of_build (h : build nodes edges sizes default = .ok g) :
    edges.Forall₂ g.Realizes g.graph.arcs := by
  obtain ⟨-, hjoins⟩ := exists_build_iff.1 ⟨g, h⟩
  rw [arcs_of_build h, List.forall₂_map_right_iff]
  refine List.forall₂_same.2 fun e he => ?_
  obtain ⟨hsource, htarget⟩ := hjoins e he
  rw [Realizes, map_id_of_build h]
  exact ⟨List.getElem?_idxOf hsource, List.getElem?_idxOf htarget⟩

namespace Depicts

theorem nodes_eq (h : g.Depicts nodes edges sizes default) :
    g.nodes = nodes.map fun n => ⟨n.id, resolveSize sizes default n⟩ := by
  rw [eq_comm, ← List.forall₂_eq_eq_eq, List.forall₂_map_left_iff]
  refine h.nodes.imp ?_
  rintro n ⟨id, size⟩ ⟨rfl, rfl⟩
  rw [resolveSize_eq_find?]

theorem arcs_eq (h : g.Depicts nodes edges sizes default) :
    g.graph.arcs = edges.map fun e =>
      ⟨(g.nodes.map (·.id)).idxOf e.source, (g.nodes.map (·.id)).idxOf e.target⟩ := by
  rw [eq_comm, ← List.forall₂_eq_eq_eq, List.forall₂_map_left_iff]
  refine h.arcs.imp ?_
  rintro e a ⟨hsource, htarget⟩
  rw [← eq_idxOf_of_getElem? h.distinct hsource, ← eq_idxOf_of_getElem? h.distinct htarget]

/-- A diagram is depicted by one graph only. -/
theorem unique {g' : SizedGraph α} (h : g.Depicts nodes edges sizes default)
    (h' : g'.Depicts nodes edges sizes default) : g' = g := by
  have hnodes : g'.nodes = g.nodes := h'.nodes_eq.trans h.nodes_eq.symm
  refine ext_of_arcs hnodes ?_
  rw [h'.arcs_eq, h.arcs_eq, hnodes]

end Depicts

end Build

/-- **The graph built from a diagram depicts it**, and no other graph does. With a default size that
can be laid out, whatever the size map and the measured sizes, every extent of a node is finite and
positive. -/
theorem depicts_build {nodes : List (Node Float32 δ)} {edges : List Edge}
    {sizes : Option (SizeMap Float32)} {default : Size Float32} {g : SizedGraph Float32}
    (h : build nodes edges sizes default = .ok g) :
    g.Depicts nodes edges sizes default ∧
      (∀ g' : SizedGraph Float32, g'.Depicts nodes edges sizes default → g' = g) ∧
      (default.isMeasurable = true → ∀ n ∈ g.nodes,
        (n.size.width.isFinite = true ∧ 0 < n.size.width) ∧
          n.size.height.isFinite = true ∧ 0 < n.size.height) := by
  have hdepicts : g.Depicts nodes edges sizes default :=
    ⟨standsFor_of_build h, nodup_of_build h, realizes_of_build h⟩
  refine ⟨hdepicts, fun g' => hdepicts.unique, fun hd n hn => ?_⟩
  have hm := isMeasurable_of_build hd h n hn
  simp only [Size.isMeasurable, Bool.and_eq_true] at hm
  obtain ⟨⟨⟨fw, fh⟩, hw⟩, hh⟩ := hm
  exact ⟨⟨fw, of_decide_eq_true hw⟩, fh, of_decide_eq_true hh⟩

/-- A node whose entry in the size map is passed over for its measured size, one with neither, and
one with both; two parallel edges and a loop. -/
theorem depicts_build_parallel :
    let nodes : List (Node Float32 Unit) := [
      ⟨"c", (), ⟨0, 0⟩, some ⟨90, 20⟩⟩, ⟨"a", (), ⟨0, 0⟩, some ⟨0, 0⟩⟩,
      ⟨"b", (), ⟨0, 0⟩, some ⟨10, 10⟩⟩]
    let edges : List Edge := [⟨"1", "a", "b"⟩, ⟨"2", "c", "a"⟩, ⟨"3", "a", "b"⟩, ⟨"4", "b", "b"⟩]
    let sizes : SizeMap Float32 := [("c", ⟨1 / 0, 48⟩), ("b", ⟨200, 48⟩), ("ghost", ⟨1, 1⟩)]
    let default : Size Float32 := ⟨280, 56⟩
    ∃ g, build nodes edges (some sizes) default = .ok g ∧
      g.nodes = [⟨"c", ⟨90, 20⟩⟩, ⟨"a", ⟨280, 56⟩⟩, ⟨"b", ⟨200, 48⟩⟩] ∧
      g.graph.arcs = [⟨1, 2⟩, ⟨0, 1⟩, ⟨1, 2⟩, ⟨2, 2⟩] ∧
      g.Depicts nodes edges (some sizes) default ∧
      ∀ n ∈ g.nodes, (n.size.width.isFinite = true ∧ 0 < n.size.width) ∧
        n.size.height.isFinite = true ∧ 0 < n.size.height := by
  intro nodes edges sizes default
  obtain ⟨g, hg⟩ : ∃ g, build nodes edges (some sizes) default = .ok g :=
    exists_build_iff.2 ⟨by decide, by decide⟩
  obtain ⟨hdepicts, -, hpositive⟩ := depicts_build hg
  refine ⟨g, hg, ?_, ?_, hdepicts, hpositive (by decide +kernel)⟩
  · rw [nodes_of_build hg]
    decide +kernel
  · rw [arcs_of_build hg]
    decide

end LayeredDrawing.SizedGraph
