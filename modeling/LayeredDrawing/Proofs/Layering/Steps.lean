import LayeredDrawing.Proofs.Layering.BestOrdering

/-!
# Sweeps step by step

A sweep keeps one table of positions and writes the new ones of each layer into it. At every layer
the table therefore holds the positions of the ordering as it then is (`Layers.positions_sorted`),
and a sweep is a sequence of steps that each sort one layer of an ordering by the positions of the
neighbours of its vertices (`reorder`).

* `isFullOrdering_reorder`: a step makes an ordering of the same vertices.
* `sweep_eq_foldl_reorder`: **a sweep takes a step at each rank**, away from the one it starts from.
-/

namespace LayeredDrawing

namespace Layers

variable {layers front rest : Layers} {layer sorted : List Nat} {size : Nat}

theorem size_positions : (layers.positions size).size = size := by
  rw [positions_eq_setAll, size_setAll, Array.size_replicate]

theorem lt_of_getElem? (h : layers.flatten.Perm (List.range size)) (hl : layer ∈ layers)
    {i v : Nat} (hi : layer[i]? = some v) : v < size :=
  List.mem_range.1 (h.mem_iff.1 (List.mem_flatten.2 ⟨layer, hl, List.mem_of_getElem? hi⟩))

/-- In an ordering of all vertices the position of a vertex is its index in its layer. -/
theorem getD_positions_of_perm (h : layers.flatten.Perm (List.range size)) (hl : layer ∈ layers)
    {i v : Nat} (hi : layer[i]? = some v) : (layers.positions size).getD v 0 = i :=
  getD_positions (h.nodup_iff.2 List.nodup_range) hl hi (lt_of_getElem? h hl hi)

/-- The positions are known by the indices of the vertices. -/
theorem positions_eq (h : layers.flatten.Perm (List.range size)) {table : Array Nat}
    (hs : table.size = size)
    (ht : ∀ layer ∈ layers, ∀ i v, layer[i]? = some v → table.getD v 0 = i) :
    layers.positions size = table := by
  refine Array.ext (size_positions.trans hs.symm) fun v hv hv' => ?_
  have hlt : v < size := hs ▸ hv'
  obtain ⟨layer, hl, hm⟩ := List.mem_flatten.1 (h.mem_iff.2 (List.mem_range.2 hlt))
  obtain ⟨i, hi⟩ := List.mem_iff_getElem?.1 hm
  have hp := getD_positions_of_perm h hl hi
  have ht := ht layer hl i v hi
  rw [Array.getD_eq_getD_getElem?, Array.getElem?_eq_getElem hv, Option.getD_some] at hp
  rw [Array.getD_eq_getD_getElem?, Array.getElem?_eq_getElem hv', Option.getD_some] at ht
  exact hp.trans ht.symm

/-- The new positions of a layer, written over the old ones. -/
theorem positions_sorted (h : (front ++ layer :: rest).flatten.Perm (List.range size))
    (hp : sorted.Perm layer) :
    setAll (positions size (front ++ layer :: rest)) sorted.zipIdx =
      positions size (front ++ sorted :: rest) := by
  have hflat : (front ++ sorted :: rest).flatten.Perm (front ++ layer :: rest).flatten := by
    simpa using (hp.append_right rest.flatten).append_left front.flatten
  have h' := hflat.trans h
  have hsorted : sorted ∈ front ++ sorted :: rest :=
    List.mem_append_right _ List.mem_cons_self
  refine (positions_eq h' (by rw [size_setAll, size_positions]) fun m hm i v hi => ?_).symm
  by_cases hv : v ∈ sorted
  · obtain ⟨j, hj⟩ := List.mem_iff_getElem?.1 hv
    have hentry : (v, j) ∈ sorted.zipIdx := List.mem_zipIdx_iff_getElem?.2 hj
    have hn : (sorted.zipIdx.map (·.1)).Nodup := by
      rw [List.zipIdx_map_fst]
      exact (List.nodup_flatten.1 (h'.nodup_iff.2 List.nodup_range)).1 sorted hsorted
    have hlt : v < (positions size (front ++ layer :: rest)).size :=
      size_positions.symm ▸ lt_of_getElem? h' hm hi
    rw [getD_setAll hn hentry hlt, ← getD_positions_of_perm h' hsorted hj,
      getD_positions_of_perm h' hm hi]
  · have hne : m ≠ sorted := fun e => hv (e ▸ List.mem_of_getElem? hi)
    have hold : m ∈ front ++ layer :: rest := by
      simpa [hne] using (List.mem_append.1 hm).imp_right fun hm =>
        Or.inr ((List.mem_cons.1 hm).resolve_left hne)
    rw [getD_setAll_of_not_mem (by rwa [List.zipIdx_map_fst]), getD_positions_of_perm h hold hi]

end Layers

namespace Layering

variable {l : Layering} {layers : Layers}

theorem IsFullOrdering.rearrange {layers' : Layers} (h : l.IsFullOrdering layers)
    (hr : layers'.Rearranges layers) : l.IsFullOrdering layers' where
  length_eq := (List.Forall₂.length_eq hr).trans h.length_eq
  listed := (List.Perm.flatten_congr hr).trans h.listed
  rank_eq := by
    intro r layer hl v hv
    obtain ⟨hlt, rfl⟩ := List.getElem?_eq_some_iff.1 hl
    have hlt' : r < layers.length := (List.Forall₂.length_eq hr) ▸ hlt
    have hp : layers'[r].Perm layers[r] := List.Forall₂.get hr hlt hlt'
    exact h.rank_eq r _ (List.getElem?_eq_getElem hlt') v (hp.mem_iff.1 hv)

/-! ## Steps -/

/-- The neighbours by which a sweep sorts: those above going down, and those below going up. -/
def sweepNeighbours (l : Layering) (downward : Bool) : Nat → List Nat :=
  if downward then l.neighbours.above.at else l.neighbours.below.at

section Steps

variable (α : Type) [Scalar α]

/-- One step of a sweep: the layer of a rank, sorted by the positions of the neighbours. -/
def reorder (l : Layering) (downward : Bool) (layers : Layers) (r : Nat) : Layers :=
  layers.modify r (arrange α (l.sweepNeighbours downward) (layers.positions l.vertexCount))

/-- The ranks in which a sweep takes its steps, in their order. -/
def sweepRanks (downward : Bool) (count : Nat) : List Nat :=
  if downward then List.range' 1 (count - 1) else (List.range (count - 1)).reverse

variable {α} {downward : Bool}

theorem rearranges_reorder (r : Nat) : (l.reorder α downward layers r).Rearranges layers := by
  refine List.forall₂_iff_get.2 ⟨List.length_modify .., fun i hi hi' => ?_⟩
  simp only [reorder, List.get_eq_getElem, List.getElem_modify]
  split
  · exact arrange_perm _
  · exact .refl _

theorem perm_flatten_reorder (r : Nat) :
    (l.reorder α downward layers r).flatten.Perm layers.flatten :=
  List.Perm.flatten_congr (rearranges_reorder r)

theorem isFullOrdering_reorder (h : l.IsFullOrdering layers) (r : Nat) :
    l.IsFullOrdering (l.reorder α downward layers r) :=
  h.rearrange (rearranges_reorder r)

theorem reorder_append (downward : Bool) (front rest : Layers) (layer : List Nat) :
    l.reorder α downward (front ++ layer :: rest) front.length =
      front ++ arrange α (l.sweepNeighbours downward)
        (Layers.positions l.vertexCount (front ++ layer :: rest)) layer :: rest := by
  rw [reorder, List.modify_eq_take_cons_drop (by simp)]
  simp

/-- A layer is sorted by the positions in the table, and its new ones are written into it. -/
theorem arrangeAll_cons (neighbours : Nat → List Nat) (position : Array Nat) (layer : List Nat)
    (rest : Layers) :
    arrangeAll α neighbours position (layer :: rest) =
      arrange α neighbours position layer ::
        arrangeAll α neighbours
          (setAll position (arrange α neighbours position layer).zipIdx) rest := rfl

/-- Sorting the layers after some others is a sequence of steps down the ranks. -/
theorem append_arrangeAll (downward : Bool) (front back : List (List Nat))
    (h : (front ++ back).flatten.Perm (List.range l.vertexCount)) :
    front ++ arrangeAll α (l.sweepNeighbours downward)
        (Layers.positions l.vertexCount (front ++ back)) back =
      (List.range' front.length back.length).foldl (l.reorder α downward) (front ++ back) := by
  induction back generalizing front with
  | nil => rfl
  | cons layer rest ih =>
    have hstep := reorder_append (l := l) (α := α) downward front rest layer
    -- The table that the rest is sorted by is that of the ordering after this step.
    have hlisted := hstep ▸ (perm_flatten_reorder front.length).trans h
    rw [List.length_cons, List.range'_succ, List.foldl_cons, hstep, arrangeAll_cons,
      Layers.positions_sorted h (arrange_perm layer)]
    have hrest := ih (front ++ [_]) (List.append_cons front _ rest ▸ hlisted)
    rwa [List.append_assoc, List.append_assoc, List.length_append] at hrest

/-- Sorting the layers before some others, last one first, is a sequence of steps up the ranks. -/
theorem reverse_arrangeAll_append (downward : Bool) (front back : List (List Nat))
    (h : (back.reverse ++ front).flatten.Perm (List.range l.vertexCount)) :
    (arrangeAll α (l.sweepNeighbours downward)
        (Layers.positions l.vertexCount (back.reverse ++ front)) back).reverse ++ front =
      (List.range back.length).reverse.foldl (l.reorder α downward) (back.reverse ++ front) := by
  induction back generalizing front with
  | nil => rfl
  | cons layer rest ih =>
    rw [List.reverse_cons, List.append_assoc, List.singleton_append] at h ⊢
    have hstep := reorder_append (l := l) (α := α) downward rest.reverse front layer
    have hlisted := hstep ▸ (perm_flatten_reorder rest.reverse.length).trans h
    rw [List.length_reverse] at hstep
    rw [List.length_cons, List.range_succ, List.reverse_append, List.reverse_singleton,
      List.singleton_append, List.foldl_cons, hstep, arrangeAll_cons,
      Layers.positions_sorted h (arrange_perm layer), List.reverse_cons, List.append_assoc,
      List.singleton_append]
    exact ih _ hlisted

/-- **A sweep takes a step at each rank**, in turn from the rank next to the one it starts from. -/
theorem sweep_eq_foldl_reorder (h : l.IsFullOrdering layers) :
    l.sweep α downward layers =
      (sweepRanks downward layers.length).foldl (l.reorder α downward) layers := by
  cases downward with
  | true =>
    cases layers with
    | nil => rfl
    | cons fixed rest => exact append_arrangeAll true [fixed] rest h.listed
  | false =>
    obtain ⟨back, rfl⟩ : ∃ back : Layers, layers = back.reverse := ⟨_, layers.reverse_reverse.symm⟩
    rw [sweep, sweepAlong, if_neg (by simp), List.reverse_reverse]
    cases back with
    | nil => rfl
    | cons fixed rest =>
      have hrun := reverse_arrangeAll_append (l := l) (α := α) false [fixed] rest
        (by simpa using h.listed)
      simpa [sweepRanks, sweepFrom, sweepNeighbours] using hrun

end Steps

end Layering

end LayeredDrawing
