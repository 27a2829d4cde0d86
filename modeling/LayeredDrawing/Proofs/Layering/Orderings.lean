import LayeredDrawing.Layering.Ordering
import LayeredDrawing.Proofs.Digraph.LongestPath
import LayeredDrawing.Proofs.Table
import Mathlib.Data.List.Forall2
import Mathlib.Data.List.Nodup

/-!
# Orderings list the vertices of each rank

Whatever the means that layers are sorted by, a sweep only moves vertices within their layers
(`rearranges_sweepAlong`). The orderings that the search for few crossings meets therefore list
the same vertices as its first one, each in the layer of its rank (`IsOrdering`), and among these
are all nodes of the graph: the walk starts from each of them.

* `isOrdering_initialLayers`: the first ordering lists the vertices of the walk.
* `isOrdering_minimizeCrossings`: **the ordering found lists all nodes, each in its rank.**
* `layers_minimizeCrossings`: the first ordering is the one found if nothing crosses in it.
-/

namespace LayeredDrawing

/-! ## Layers that differ by the order within them -/

/-- Each layer has the members of the layer of the same rank, in some order. -/
def Layers.Rearranges (layers layers' : Layers) : Prop := layers.Forall₂ List.Perm layers'

namespace Layers.Rearranges

variable {layers₁ layers₂ layers₃ : Layers}

theorem refl (layers : Layers) : layers.Rearranges layers :=
  List.forall₂_same.2 fun layer _ => .refl layer

theorem trans (h₁ : layers₁.Rearranges layers₂) (h₂ : layers₂.Rearranges layers₃) :
    layers₁.Rearranges layers₃ := by
  induction h₁ generalizing layers₃ with
  | nil => exact h₂
  | cons hp _ ih =>
    cases h₂ with
    | cons hp' h₂ => exact .cons (hp.trans hp') (ih h₂)

theorem reverse (h : layers₁.Rearranges layers₂) :
    Layers.Rearranges layers₁.reverse layers₂.reverse :=
  List.forall₂_reverse_iff.2 h

theorem filter (h : layers₁.Rearranges layers₂) (p : Nat → Bool) :
    Layers.Rearranges (layers₁.map (·.filter p)) (layers₂.map (·.filter p)) := by
  induction h with
  | nil => exact .nil
  | cons hp _ ih => exact .cons (hp.filter p) ih

end Layers.Rearranges

/-! ## Positions -/

namespace Layers

variable {layers : Layers} {size : Nat}

theorem positions_eq_setAll :
    layers.positions size =
      setAll (Array.replicate size 0) (List.flatMap List.zipIdx layers) := by
  rw [positions, setAll, List.foldl_flatMap]

theorem map_fst_flatMap_zipIdx :
    (List.flatMap List.zipIdx layers).map (·.1) = layers.flatten := by
  simp only [List.map_flatMap, List.zipIdx_map_fst, List.flatMap_id']

/-- The position of a vertex is its index in its layer. -/
theorem getD_positions (hn : layers.flatten.Nodup) {layer : List Nat} (hl : layer ∈ layers)
    {i v : Nat} (hi : layer[i]? = some v) (hv : v < size) :
    (layers.positions size).getD v 0 = i := by
  rw [positions_eq_setAll]
  refine getD_setAll ?_ ?_ (by simpa using hv)
  · rwa [map_fst_flatMap_zipIdx]
  · exact List.mem_flatMap.2 ⟨layer, hl, List.mem_zipIdx_iff_getElem?.2 hi⟩

end Layers

namespace Layering

variable {l : Layering} {vertices vertices' : List Nat} {layers : Layers}

/-- The layers list the given vertices, each in the layer of its rank. -/
def IsOrdering (l : Layering) (vertices : List Nat) (layers : Layers) : Prop :=
  layers.Rearranges (l.layersOf vertices)

theorem layersOf_perm (h : vertices.Perm vertices') :
    (l.layersOf vertices).Rearranges (l.layersOf vertices') := by
  rw [layersOf, layersOf, Layers.Rearranges, List.forall₂_map_left_iff,
    List.forall₂_map_right_iff]
  exact List.forall₂_same.2 fun r _ => h.filter _

theorem filter_layersOf (p : Nat → Bool) :
    (l.layersOf vertices).map (·.filter p) = l.layersOf (vertices.filter p) := by
  simp only [layersOf, List.map_map]
  refine List.map_congr_left fun r _ => ?_
  simp only [Function.comp_apply, List.filter_filter, Bool.and_comm]

theorem IsOrdering.rearrange {layers' : Layers} (h : l.IsOrdering vertices layers)
    (hr : layers'.Rearranges layers) : l.IsOrdering vertices layers' :=
  hr.trans h

theorem IsOrdering.filter (h : l.IsOrdering vertices layers) (p : Nat → Bool) :
    l.IsOrdering (vertices.filter p) (layers.map (·.filter p)) := by
  rw [IsOrdering, ← filter_layersOf]
  exact Layers.Rearranges.filter h p

theorem IsOrdering.perm (h : l.IsOrdering vertices layers) (hp : vertices.Perm vertices') :
    l.IsOrdering vertices' layers :=
  Layers.Rearranges.trans h (layersOf_perm hp)

theorem IsOrdering.length_eq (h : l.IsOrdering vertices layers) :
    layers.length = l.rankCount := by
  simpa [layersOf] using List.Forall₂.length_eq h

theorem IsOrdering.perm_layer (h : l.IsOrdering vertices layers) {r : Nat} {layer : List Nat}
    (hr : layers[r]? = some layer) : layer.Perm (vertices.filter (l.rankOf · == r)) := by
  obtain ⟨hlt, rfl⟩ := List.getElem?_eq_some_iff.1 hr
  have hlt' : r < (l.layersOf vertices).length := by
    simpa [layersOf] using h.length_eq ▸ hlt
  have hp := List.Forall₂.get h hlt hlt'
  simpa [layersOf] using hp

theorem IsOrdering.mem_layer (h : l.IsOrdering vertices layers) {r : Nat} {layer : List Nat}
    (hr : layers[r]? = some layer) {v : Nat} : v ∈ layer ↔ v ∈ vertices ∧ l.rankOf v = r := by
  rw [(h.perm_layer hr).mem_iff, List.mem_filter, beq_iff_eq]

theorem IsOrdering.exists_layer (h : l.IsOrdering vertices layers) {v : Nat}
    (hv : v ∈ vertices) (hr : l.rankOf v < l.rankCount) :
    ∃ layer, layers[l.rankOf v]? = some layer ∧ v ∈ layer := by
  have hlt : l.rankOf v < layers.length := h.length_eq ▸ hr
  exact ⟨_, List.getElem?_eq_getElem hlt,
    (h.mem_layer (List.getElem?_eq_getElem hlt)).2 ⟨hv, rfl⟩⟩

/-- No vertex is listed twice. -/
theorem IsOrdering.nodup_flatten (h : l.IsOrdering vertices layers) (hn : vertices.Nodup) :
    layers.flatten.Nodup := by
  refine List.nodup_flatten.2 ⟨fun layer hl => ?_, List.pairwise_iff_getElem.2 ?_⟩
  · obtain ⟨r, hr⟩ := List.mem_iff_getElem?.1 hl
    exact (h.perm_layer hr).nodup_iff.2 (hn.filter _)
  · intro i j hi hj hij v hvi hvj
    have h₁ := (h.mem_layer (List.getElem?_eq_getElem hi)).1 hvi
    have h₂ := (h.mem_layer (List.getElem?_eq_getElem hj)).1 hvj
    omega

/-! ## The walk -/

/-- The walk lists the vertices visited before and all unseen ones but some that are not on the
stack. -/
theorem exists_rest_walk (next : Nat → List Nat) {unseen : List Nat} (visited stack : List Nat)
    (h : unseen.Nodup) :
    ∃ rest, rest.Sublist unseen ∧
      (walk next unseen visited stack ++ rest).Perm (visited ++ unseen) ∧
      ∀ v ∈ stack, v ∉ rest := by
  fun_induction walk next unseen visited stack with
  | case1 unseen visited =>
    exact ⟨unseen, .refl _, visited.reverse_perm.append_right unseen, by simp⟩
  | case2 unseen visited v stack hv unseen' =>
    rename_i ih
    obtain ⟨rest, hs, hp, hstack⟩ := ih (h.erase v)
    have hmove : (v :: visited ++ unseen.erase v).Perm (visited ++ unseen) :=
      List.perm_middle.symm.trans ((List.perm_cons_erase hv).symm.append_left visited)
    refine ⟨rest, hs.trans List.erase_sublist, hp.trans hmove, fun u hu => ?_⟩
    rcases List.mem_cons.1 hu with rfl | hu
    · exact fun hm => h.not_mem_erase (hs.subset hm)
    · exact hstack u (List.mem_append_right _ hu)
  | case3 unseen visited v stack hv ih =>
    obtain ⟨rest, hs, hp, hstack⟩ := ih h
    refine ⟨rest, hs, hp, fun u hu => ?_⟩
    rcases List.mem_cons.1 hu with rfl | hu
    · exact fun hm => hv (hs.subset hm)
    · exact hstack u hu

/-! ## Sweeps -/

section Sweeps

variable {α : Type} [Scalar α] {neighbours : Nat → List Nat} {position : Array Nat}

theorem arrange_perm (layer : List Nat) :
    (arrange α neighbours position layer).Perm layer := by
  have hkeys : (layer.zipIdx.map fun p =>
      (p.1, barycenter α p.2 ((neighbours p.1).map (position.getD · 0)))).map (·.1) = layer := by
    rw [List.map_map]
    exact List.zipIdx_map_fst 0 layer
  rw [arrange]
  conv_rhs => rw [← hkeys]
  exact (List.mergeSort_perm _ _).map _

theorem rearranges_arrangeAll (layers : Layers) :
    (arrangeAll α neighbours position layers).Rearranges layers := by
  induction layers generalizing position with
  | nil => exact .nil
  | cons layer layers ih => exact .cons (arrange_perm layer) ih

theorem rearranges_sweepFrom (layers : Layers) :
    (sweepFrom α neighbours position layers).Rearranges layers := by
  cases layers with
  | nil => exact .nil
  | cons fixed layers => exact .cons (.refl fixed) (rearranges_arrangeAll layers)

/-- A sweep leaves every vertex in its layer. -/
theorem rearranges_sweepAlong (n : Neighbours) (downward : Bool) (layers : Layers) :
    (l.sweepAlong α n downward layers).Rearranges layers := by
  unfold sweepAlong
  cases downward with
  | true => exact rearranges_sweepFrom layers
  | false =>
    have h : Layers.Rearranges
        (sweepFrom α n.below.at (layers.positions l.vertexCount) layers.reverse)
        layers.reverse := rearranges_sweepFrom layers.reverse
    simpa using h.reverse

theorem isOrdering_improve {n : Neighbours} {passes : Nat} {downward : Bool} {best : Candidate}
    (h : l.IsOrdering vertices layers) (hb : l.IsOrdering vertices best.layers) :
    l.IsOrdering vertices (improve α l n passes downward layers best).layers := by
  induction passes generalizing downward layers best with
  | zero => exact hb
  | succ passes ih =>
    rw [improve]
    split
    · exact hb
    · have hs : l.IsOrdering vertices (l.sweepAlong α n downward layers) :=
        h.rearrange (rearranges_sweepAlong n downward layers)
      refine ih hs ?_
      split
      · exact hs
      · exact hb

end Sweeps

/-! ## The best ordering -/

theorem mem_roots {v : Nat} : v ∈ l.roots ↔ v < l.realCount := by
  rw [roots, (List.mergeSort_perm _ _).mem_iff, List.mem_range]

/-- Nodes that are numbered by rank keep their order among the roots. -/
theorem roots_eq_range
    (h : (List.range l.realCount).Pairwise fun u v => l.rankOf u ≤ l.rankOf v) :
    l.roots = List.range l.realCount :=
  List.mergeSort_of_pairwise (by simpa using h)

/-- The first ordering lists the vertices that the walk visits, and all nodes are among
them. -/
theorem isOrdering_initialLayers (h : l.realCount ≤ l.vertexCount) :
    ∃ vertices, (vertices.filter (· < l.realCount)).Perm (List.range l.realCount) ∧
      l.IsOrdering vertices l.initialLayers := by
  refine ⟨_, ?_, Layers.Rearranges.refl _⟩
  obtain ⟨rest, hs, hp, hroots⟩ := exists_rest_walk l.segments.successorTable.at [] l.roots
    (List.nodup_range : l.segments.nodes.Nodup)
  have hrest : rest.filter (· < l.realCount) = [] := by
    refine List.filter_eq_nil_iff.2 fun v hv => ?_
    simpa [mem_roots] using mt (hroots v) (not_not.2 hv)
  have hp := hp.filter (· < l.realCount)
  rw [List.filter_append, hrest, List.append_nil, List.nil_append] at hp
  refine hp.trans ((List.perm_ext_iff_of_nodup (List.nodup_range.filter _) List.nodup_range).2
    fun v => ?_)
  have h : l.realCount ≤ l.segments.size := h
  simp only [List.mem_filter, decide_eq_true_eq, List.mem_range]
  omega

theorem improve_of_crossings_eq_zero {α : Type} [Scalar α] {n : Neighbours} {passes : Nat}
    {downward : Bool} {best : Candidate} (h : best.crossings = 0) :
    improve α l n passes downward layers best = best := by
  cases passes with
  | zero => rfl
  | succ passes => rw [improve, if_pos h]

/-- The first ordering is kept if nothing crosses in it. -/
theorem layers_minimizeCrossings {α : Type} [Scalar α] (passes : Nat)
    (h : l.crossings l.initialLayers = 0) :
    (l.minimizeCrossings passes α).layers =
      l.initialLayers.map fun layer => layer.filter (· < l.realCount) := by
  rw [minimizeCrossings, bestOrdering, improve_of_crossings_eq_zero h]

theorem isOrdering_minimizeCrossings {α : Type} [Scalar α] (h : l.realCount ≤ l.vertexCount)
    (passes : Nat) :
    l.IsOrdering (List.range l.realCount) (l.minimizeCrossings passes α).layers := by
  obtain ⟨vertices, hp, ho⟩ := isOrdering_initialLayers h
  exact ((isOrdering_improve ho ho).filter _).perm hp

/-! ## The layering of a ranked graph -/

section OfRanks

variable {ranks : Array Nat} {g : Digraph} {v : Nat}

theorem exists_ranks_addArc (arcs : List Arc) (s : Splitting) :
    ∃ virtual, (arcs.foldl Splitting.addArc s).ranks = s.ranks ++ virtual := by
  induction arcs generalizing s with
  | nil => exact ⟨#[], by simp⟩
  | cons a arcs ih =>
    obtain ⟨virtual, h⟩ := ih (s.addArc a)
    rw [List.foldl_cons, h, Splitting.addArc, Array.append_assoc]
    exact ⟨_, rfl⟩

theorem exists_ranks_ofRanks (ranks : Array Nat) (g : Digraph) :
    ∃ virtual, (ofRanks ranks g).ranks = ranks ++ virtual :=
  exists_ranks_addArc g.arcs ⟨ranks, []⟩

theorem realCount_le_vertexCount : (ofRanks ranks g).realCount ≤ (ofRanks ranks g).vertexCount := by
  obtain ⟨virtual, h⟩ := exists_ranks_ofRanks ranks g
  have hs : (ofRanks ranks g).vertexCount = (ofRanks ranks g).ranks.size := rfl
  have hr : (ofRanks ranks g).realCount = ranks.size := rfl
  rw [hs, h, hr, Array.size_append]
  omega

theorem rankOf_ofRanks (hv : v < ranks.size) : (ofRanks ranks g).rankOf v = ranks.getD v 0 := by
  obtain ⟨virtual, h⟩ := exists_ranks_ofRanks ranks g
  rw [rankOf, h, Array.getD_eq_getD_getElem?, Array.getElem?_append_left hv,
    Array.getD_eq_getD_getElem?]

theorem lt_rankCount_ofRanks (hv : v < ranks.size) :
    ranks.getD v 0 < (ofRanks ranks g).rankCount := by
  have hc : (ofRanks ranks g).rankCount = Digraph.rankBelow ranks.toList :=
    (Array.foldl_toList ..).symm
  rw [hc]
  exact Digraph.lt_rankBelow (by simp [hv])

end OfRanks

end Layering

end LayeredDrawing
