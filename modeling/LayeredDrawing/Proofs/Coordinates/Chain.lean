import LayeredDrawing.Proofs.Coordinates.Frame
import LayeredDrawing.Proofs.Digraph.Acyclic
import LayeredDrawing.Proofs.Number.Middle

/-!
# Chains are drawn on one line

A node that is alone in its rank has nothing beside it that could push it away, so that alignment
puts it at the mean of its one neighbour, which is the center of the neighbour up to rounding
(`aligned_singleton`). If all ranks of a drawing have one node, a round thus carries the center of
the first node down to the last one and back up again. The rounding does not matter, since middles
settle after one step, and neither do the centers from which the round starts: at its end all
centers are the same (`exists_get_alignRound`), and however the rounds end, there is a last one
(`exists_alignRound_eq`).

* `exists_x_assign`: **the nodes of a chain have one place along the cross axis.**
-/

namespace LayeredDrawing.Coordinates

variable {α : Type} [Scalar α] {sep : α} {extent : Nat → α}
  {neighbours above below : Nat → List Nat} {a : Alignment α} {cross : Array α}
  {layer vs : List Nat} {u v w : Nat}

/-! ## What a layer that is aligned leaves alone -/

@[simp] theorem size_alignLayer :
    (alignLayer sep extent neighbours a layer).cross.size = a.cross.size := by
  rw [cross_alignLayer, size_setAll]

theorem get_alignLayer_of_not_mem (h : w ∉ layer) :
    get (alignLayer sep extent neighbours a layer).cross w = get a.cross w := by
  rw [cross_alignLayer]
  exact getD_setAll_of_not_mem (by rwa [map_fst_aligned])

@[simp] theorem size_foldl_alignLayer (layers : Layers) :
    (layers.foldl (alignLayer sep extent neighbours) a).cross.size = a.cross.size := by
  induction layers generalizing a with
  | nil => rfl
  | cons layer layers ih => rw [List.foldl_cons, ih, size_alignLayer]

theorem get_foldl_alignLayer_of_not_mem {layers : Layers} (h : w ∉ layers.flatten) :
    get (layers.foldl (alignLayer sep extent neighbours) a).cross w = get a.cross w := by
  induction layers generalizing a with
  | nil => rfl
  | cons layer layers ih =>
    rw [List.flatten_cons, List.mem_append, not_or] at h
    rw [List.foldl_cons, ih h.2, get_alignLayer_of_not_mem h.1]

@[simp] theorem size_alignRound (layers : Layers) :
    (alignRound sep extent above below layers cross).cross.size = cross.size := by
  rw [alignRound, size_foldl_alignLayer, size_foldl_alignLayer]

/-- Rounds end when nothing moves or when the passes are used up, and after a round either way. -/
theorem exists_alignRound_eq {layers : Layers} {passes : Nat} (hp : 0 < passes) :
    ∃ cross', cross'.size = cross.size ∧ alignLayers sep extent above below layers passes cross =
      (alignRound sep extent above below layers cross').cross := by
  induction passes generalizing cross with
  | zero => exact absurd hp (Nat.lt_irrefl 0)
  | succ passes ih =>
    rw [alignLayers]
    split
    · rcases Nat.eq_zero_or_pos passes with rfl | hpos
      · exact ⟨cross, rfl, rfl⟩
      · exact (ih hpos).imp fun cross' h => ⟨h.1.trans (size_alignRound layers), h.2⟩
    · exact ⟨cross, rfl, rfl⟩

/-! ## Ranks with one node -/

/-- A node that is alone in its rank goes to the settled center of its one neighbour. -/
theorem aligned_singleton (h : neighbours v = [u]) :
    aligned sep extent neighbours cross [v] = [(v, Scalar.settled (get cross u))] := by
  simp only [aligned, List.map_singleton, wish, h]
  rfl

theorem get_alignLayer_singleton (h : neighbours v = [u]) (hlt : v < a.cross.size) :
    get (alignLayer sep extent neighbours a [v]).cross v = Scalar.settled (get a.cross u) := by
  rw [cross_alignLayer, aligned_singleton h]
  exact getD_setIfInBounds_self hlt

section Settling

variable (hs : ∀ x : α, Scalar.settled (Scalar.settled x) = Scalar.settled x)

include hs

/-- A node passes its center on to all that follow it. -/
theorem get_foldl_alignLayer_of_isChain (hc : (u :: vs).IsChain fun u v => neighbours v = [u])
    (hn : (u :: vs).Nodup) (hlt : ∀ v ∈ vs, v < a.cross.size) (hv : v ∈ vs) :
    get ((vs.map ([·])).foldl (alignLayer sep extent neighbours) a).cross v =
      Scalar.settled (get a.cross u) := by
  induction vs generalizing u a with
  | nil => cases hv
  | cons w vs ih =>
    obtain ⟨hw, hc⟩ := List.isChain_cons_cons.1 hc
    obtain ⟨hlw, hlt⟩ := List.forall_mem_cons.1 hlt
    have hnw := List.nodup_cons.1 (List.nodup_cons.1 hn).2
    have hfirst : get (alignLayer sep extent neighbours a [w]).cross w =
        Scalar.settled (get a.cross u) := get_alignLayer_singleton hw hlw
    rw [List.map_cons, List.foldl_cons]
    rcases List.mem_cons.1 hv with rfl | hv
    · rw [get_foldl_alignLayer_of_not_mem (by simpa using hnw.1), hfirst]
    · rw [ih hc (List.nodup_cons.2 hnw) (by simpa using hlt) hv, hfirst, hs]

/-- **After a round all nodes of a chain have one center.** -/
theorem exists_get_alignRound (habove : vs.IsChain fun u v => above v = [u])
    (hbelow : vs.IsChain fun u v => below u = [v]) (hn : vs.Nodup)
    (hlt : ∀ v ∈ vs, v < cross.size) :
    ∃ x, ∀ v ∈ vs, get (alignRound sep extent above below (vs.map ([·])) cross).cross v = x := by
  rcases vs with - | ⟨u, vs⟩
  · exact ⟨Scalar.zero, by simp⟩
  rcases vs.eq_nil_or_concat' with rfl | ⟨mid, w, rfl⟩
  · exact ⟨_, fun v hv => by rw [List.mem_singleton.1 hv]⟩
  let down := ((mid ++ [w]).map ([·])).foldl (alignLayer sep extent above) ⟨cross, false⟩
  have hround : alignRound sep extent above below ((u :: (mid ++ [w])).map ([·])) cross =
      ((u :: mid).reverse.map ([·])).foldl (alignLayer sep extent below) down := by
    have hup : ((u :: (mid ++ [w])).map ([·])).reverse.drop 1 = (u :: mid).reverse.map ([·]) := by
      simp
    rw [alignRound, hup]
    rfl
  have hreverse : (u :: (mid ++ [w])).reverse = w :: (u :: mid).reverse := by simp
  have hlast : get down.cross w = Scalar.settled (get cross u) := by
    refine get_foldl_alignLayer_of_isChain hs habove hn ?_ (by simp)
    exact fun v hv => hlt v (List.mem_cons_of_mem u hv)
  have hnup : (w :: (u :: mid).reverse).Nodup := hreverse ▸ List.nodup_reverse.2 hn
  refine ⟨Scalar.settled (get cross u), fun v hv => ?_⟩
  rw [hround]
  rcases List.mem_cons.1 (hreverse ▸ List.mem_reverse.2 hv) with rfl | hv
  · rw [get_foldl_alignLayer_of_not_mem (by simpa using (List.nodup_cons.1 hnup).1), hlast]
  · have hup : (w :: (u :: mid).reverse).IsChain fun u v => below v = [u] :=
      hreverse ▸ List.isChain_reverse.2 hbelow
    rw [get_foldl_alignLayer_of_isChain hs hup hnup ?_ hv, hlast, hs]
    intro x hx
    rw [size_foldl_alignLayer]
    refine hlt x ?_
    rw [← List.mem_reverse, hreverse]
    exact List.mem_cons_of_mem w hx

end Settling

/-! ## The frame of a chain -/

section Frame

variable {extents : Array (Size α)} {g : Digraph} {spacing : Spacing α}

/-- The centers of a frame are those after the last round. -/
theorem exists_crossTable_eq (layers : Layers) (hp : 0 < spacing.alignmentPasses) :
    ∃ cross, cross.size = extents.size ∧ crossTable layers extents g spacing =
      (alignRound spacing.nodeSep (widthOf extents) g.predecessors g.successors layers
        cross).cross := by
  have hsize : (packLayers spacing.nodeSep (widthOf extents) extents.size layers).size =
      extents.size := by simp [packLayers_eq_setAll]
  rw [← hsize, crossTable, g.predecessorTable_at, g.successorTable_at]
  exact exists_alignRound_eq hp

/-- **The nodes of a chain have one place along the cross axis**, whatever their extents. -/
theorem exists_x_assign (hs : ∀ x : α, Scalar.settled (Scalar.settled x) = Scalar.settled x)
    (hpredecessors : vs.IsChain fun u v => g.predecessors v = [u])
    (hsuccessors : vs.IsChain fun u v => g.successors u = [v]) (hn : vs.Nodup)
    (hlt : ∀ v ∈ vs, v < extents.size) (hp : 0 < spacing.alignmentPasses) :
    ∃ x, ∀ v ∈ vs,
      ((assign (vs.map ([·])) extents g spacing).centers.getD v Point.origin).x = x := by
  have hflatten : (vs.map ([·])).flatten = vs := List.flatMap_singleton' vs
  obtain ⟨cross, hsize, e⟩ := exists_crossTable_eq (vs.map ([·])) hp
  obtain ⟨x, hx⟩ := exists_get_alignRound hs hpredecessors hsuccessors hn (hsize ▸ hlt)
  refine ⟨x + offset (vs.map ([·])) extents g spacing, fun v hv => ?_⟩
  rw [x_getD_centers_assign g spacing (by rwa [hflatten]) (by rwa [hflatten]) (by rwa [hflatten]),
    e, hx v hv]

end Frame

end LayeredDrawing.Coordinates
