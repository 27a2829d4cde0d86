import LayeredDrawing.Proofs.Coordinates.Extent
import LayeredDrawing.Proofs.Ranks
import LayeredDrawing.Proofs.Separation

/-!
# The bounds of a solution

No rank of a solution is empty, so the drawing in the frame of the ranks starts on both margins
and ends with its last rank (`exists_isHull_frameBox`). The rank axis is turned round about the
middle of the drawing, which leaves its bounds in their place: they start on the margins in every
direction, and opposite directions have the same bounds (`solve_bounds`).
-/

namespace LayeredDrawing

/-! ## The layers that are drawn -/

section Layers

variable {α : Type} [Scalar α] {o : Options α} {g : SizedGraph α} {ranks : Array Nat}

theorem mem_flatten_drawnLayers (hs : ranks.size = g.nodes.length) {v : Nat} :
    v ∈ (drawnLayers o g ranks).flatten ↔ v < g.nodes.length := by
  constructor
  · intro hv
    simpa [size_frameExtents] using lt_of_mem_drawnLayers (o := o) hs v hv
  · intro hv
    obtain ⟨layer, hl, hm⟩ :=
      exists_layer_of_placementOf (o := o) hs (List.getElem?_eq_getElem hv)
    exact List.mem_flatten.2 ⟨layer, List.mem_of_getElem? hl, List.mem_of_getElem? hm⟩

theorem length_drawnLayers (hs : ranks.size = g.nodes.length) :
    (drawnLayers o g ranks).length = Digraph.rankBelow ranks.toList := by
  rw [(isOrdering_drawnLayers hs).length_eq]
  exact (Array.foldl_toList ..).symm

/-- The ranks of a solution are those of its layers. -/
theorem rankCount_solveRanked (hs : ranks.size = g.nodes.length) :
    (solveRanked o g ranks).rankCount = (drawnLayers o g ranks).length := by
  have hranks : (solveRanked o g ranks).placements.map (·.2.rank) = ranks.toList := by
    rw [placements_solveRanked, List.map_map]
    refine List.ext_getElem (by simp [hs]) fun v hv hv' => ?_
    simp [placementOf, Array.getD, show v < ranks.size by simpa using hv']
  rw [Solution.rankCount_eq_rankBelow, hranks, length_drawnLayers hs]

/-- Every rank below that of some node has a node. -/
theorem ne_nil_of_mem_drawnLayers (hl : g.graph.acyclic.LeastRanks ranks) :
    ∀ layer ∈ drawnLayers o g ranks, layer ≠ [] := by
  have hsize : g.graph.acyclic.size = g.nodes.length := g.size_graph
  have hs : ranks.size = g.nodes.length := hl.size.trans hsize
  intro layer hlayer
  obtain ⟨r, hr⟩ := List.mem_iff_getElem?.1 hlayer
  have hlt : r < Digraph.rankBelow ranks.toList :=
    length_drawnLayers (o := o) hs ▸ (List.getElem?_eq_some_iff.1 hr).1
  obtain ⟨q, hq, hqr⟩ := Digraph.exists_of_rankBelow_pos (Nat.zero_lt_of_lt hlt)
  obtain ⟨v, hv, rfl⟩ := Array.mem_iff_getElem.1 (Array.mem_toList_iff.1 hq)
  have hv' : ranks.getD v 0 = ranks[v] := by simp [Array.getD, hv]
  obtain ⟨u, hu, hur⟩ := hl.inhabited v (hl.size ▸ hv) r (by omega)
  have hrank := Layering.rankOf_ofRanks (g := g.graph.acyclic) (hl.size ▸ hu)
  refine List.ne_nil_of_mem (a := u) (((isOrdering_drawnLayers hs).mem_layer hr).2 ⟨?_, ?_⟩)
  · exact List.mem_range.2 (hsize ▸ hu)
  · rw [hrank, hur]

end Layers

/-! ## The drawing in the frame of the ranks -/

section Frame

variable {o : Options Rat} {g : SizedGraph Rat} {ranks : Array Nat}

theorem image_setOf_mem {β γ : Type} (f : β → γ) (xs : List β) :
    f '' {x | x ∈ xs} = {y | y ∈ xs.map f} := by
  ext y
  simp

/-- The boxes of the nodes in the frame of the ranks. -/
def frameBoxes (o : Options Rat) (g : SizedGraph Rat) (ranks : Array Nat) : Set (Box Rat) :=
  Coordinates.frameBox (drawnLayers o g ranks) (frameExtents o g) g.graph.acyclic o.spacing ''
    {v | v ∈ (drawnLayers o g ranks).flatten}

theorem box_placementOf {v : Nat} {n : SizedNode Rat} (hn : g.nodes[v]? = some n) :
    (placementOf o g ranks n v).box = o.direction.placeBox (drawnTurn o g ranks)
      (Coordinates.frameBox (drawnLayers o g ranks) (frameExtents o g) g.graph.acyclic o.spacing
        v) := by
  rw [Placement.box, placementOf, Direction.ofCenter_place, Coordinates.frameBox,
    widthOf_frameExtents hn, heightOf_frameExtents hn]
  rfl

theorem boxes_solveRanked (hs : ranks.size = g.nodes.length) :
    {b | b ∈ (solveRanked o g ranks).placements.map (·.2.box)} =
      o.direction.placeBox (drawnTurn o g ranks) '' frameBoxes o g ranks := by
  ext b
  simp only [frameBoxes, Set.image_image, List.mem_map, Set.mem_image, Set.mem_ofPred_eq,
    mem_flatten_drawnLayers hs]
  constructor
  · rintro ⟨e, he, rfl⟩
    obtain ⟨v, n, hn, rfl⟩ := exists_node_of_mem_placements he
    exact ⟨v, (List.getElem?_eq_some_iff.1 hn).1, (box_placementOf hn).symm⟩
  · rintro ⟨v, hv, rfl⟩
    have hn := List.getElem?_eq_getElem hv
    refine ⟨(g.nodes[v].id, placementOf o g ranks g.nodes[v] v), ?_, box_placementOf hn⟩
    rw [placements_solveRanked]
    exact List.mem_map.2 ⟨(g.nodes[v], v), List.mem_zipIdx_iff_getElem?.2 hn, rfl⟩

variable (ho : o.check = .ok ()) (hl : g.graph.acyclic.LeastRanks ranks)
  (hm : ∀ n ∈ g.nodes, n.size.isMeasurable = true) (hne : g.nodes ≠ [])

include hl hne

theorem drawnLayers_ne_nil : drawnLayers o g ranks ≠ [] ∧ (drawnLayers o g ranks).flatten ≠ [] := by
  have hmem : 0 ∈ (drawnLayers o g ranks).flatten :=
    (mem_flatten_drawnLayers (hl.size.trans g.size_graph)).2 (List.length_pos_iff.2 hne)
  refine ⟨fun h => ?_, List.ne_nil_of_mem hmem⟩
  simp [h] at hmem

theorem rankSpan_drawnFrame : (drawnFrame o g ranks).rankSpan =
    (Coordinates.thicknesses (frameExtents o g) (drawnLayers o g ranks)).sum +
      o.rankSep * ((drawnLayers o g ranks).length - 1) := by
  have hts : Coordinates.thicknesses (frameExtents o g) (drawnLayers o g ranks) ≠ [] := by
    simpa [Coordinates.thicknesses] using (drawnLayers_ne_nil hl hne).1
  have hlast := Coordinates.snd_stackRanks o.spacing.rankSep o.spacing.rankMargin hts
  show (Coordinates.stackRanks o.spacing.rankSep o.spacing.rankMargin
    (Coordinates.thicknesses (frameExtents o g) (drawnLayers o g ranks))).2 -
      o.spacing.rankMargin = _
  rw [hlast, Coordinates.thicknesses, List.length_map]
  show _ + _ + o.rankSep * _ - _ = _
  ring

include ho hm

/-- The frame of the ranks starts on both margins and ends with its last rank. -/
theorem exists_isHull_frameBoxes : ∃ b : Box Rat, b.IsHull (frameBoxes o g ranks) ∧
    b.minX = o.spacing.crossMargin ∧ b.minY = o.spacing.rankMargin ∧
      b.maxY = o.spacing.rankMargin + (drawnFrame o g ranks).rankSpan := by
  have hs := hl.size.trans g.size_graph
  obtain ⟨hlayers, hflat⟩ := drawnLayers_ne_nil (o := o) hl hne
  obtain ⟨b, hull⟩ : ∃ b : Box Rat, b.IsHull (frameBoxes o g ranks) := by
    obtain ⟨b, hb⟩ := Box.exists_enclosing? (mt List.map_eq_nil_iff.1 hflat :
      (drawnLayers o g ranks).flatten.map (Coordinates.frameBox (drawnLayers o g ranks)
        (frameExtents o g) g.graph.acyclic o.spacing) ≠ [])
    rw [frameBoxes, image_setOf_mem]
    exact ⟨b, Box.isHull_enclosing? hb⟩
  refine ⟨b, hull, hull.minX.unique ?_, hull.minY.unique ?_, hull.maxY.unique ?_⟩
  · exact Coordinates.isLeast_minX_frameBox (nodup_drawnLayers hs) (lt_of_mem_drawnLayers hs) hflat
  · exact Coordinates.isLeast_minY_frameBox (nodup_drawnLayers hs) (lt_of_mem_drawnLayers hs)
      (fun s h => (extents_nonneg hm s h).2) (Options.distance_nonneg ho .rankSep)
      (ne_nil_of_mem_drawnLayers hl) hlayers
  · rw [rankSpan_drawnFrame hl hne, ← add_assoc]
    exact Coordinates.isGreatest_maxY_frameBox (nodup_drawnLayers hs) (lt_of_mem_drawnLayers hs)
      (fun s h => (extents_nonneg hm s h).2) (Options.distance_nonneg ho .rankSep)
      (ne_nil_of_mem_drawnLayers hl) hlayers

end Frame

/-! ## The bounds -/

section Bounds

variable {o : Options Rat} {g : SizedGraph Rat} {ranks : Array Nat}

/-- The bounds are those of the frame, turned into the direction of the drawing. -/
theorem bounds?_solveRanked (hs : ranks.size = g.nodes.length) {b : Box Rat}
    (hb : b.IsHull (frameBoxes o g ranks)) (hmin : b.minY = o.spacing.rankMargin)
    (hmax : b.maxY = o.spacing.rankMargin + (drawnFrame o g ranks).rankSpan) :
    (solveRanked o g ranks).bounds? =
      some (if o.direction.isVertical then b else b.transpose) := by
  have hturn : drawnTurn o g ranks = b.minY + b.maxY := by
    rw [drawnTurn, hmin, hmax, Scalar.ofNat_rat]
    ring
  have hull := hb.place o.direction (drawnTurn o g ranks)
  rw [← boxes_solveRanked hs] at hull
  rw [Solution.bounds?, Box.enclosing?_eq_some_iff.2 hull, hturn, Direction.placeBox_self]

/-- Opposite directions have the same frame. -/
theorem frame_reverse (o : Options Rat) (g : SizedGraph Rat) (ranks : Array Nat) :
    let o' := { o with direction := o.direction.reverse }
    o'.spacing = o.spacing ∧ drawnFrame o' g ranks = drawnFrame o g ranks ∧
      frameBoxes o' g ranks = frameBoxes o g ranks := by
  intro o'
  have hspacing : o'.spacing = o.spacing := by simp [o', Options.spacing]
  have hextents : frameExtents o' g = frameExtents o g := by
    simp [o', frameExtents, Direction.extents]
  refine ⟨hspacing, ?_, ?_⟩
  · rw [drawnFrame, drawnFrame, hspacing, hextents]
    rfl
  · rw [frameBoxes, frameBoxes, hspacing, hextents]
    rfl

/-- The thickness of a rank is the greatest extent of its nodes in the direction of flow. -/
theorem isGreatest_thicknesses (hl : g.graph.acyclic.LeastRanks ranks)
    (hm : ∀ n ∈ g.nodes, n.size.isMeasurable = true) {r : Nat}
    (hr : r < (drawnLayers o g ranks).length) :
    IsGreatest {t | ∃ e ∈ (solveRanked o g ranks).placements, e.2.rank = r ∧
        (o.direction.extents e.2.size).height = t}
      ((Coordinates.thicknesses (frameExtents o g) (drawnLayers o g ranks)).getD r 0) := by
  have hs : ranks.size = g.nodes.length := hl.size.trans g.size_graph
  have hr := List.getElem?_eq_getElem hr
  have hset : {t | ∃ e ∈ (solveRanked o g ranks).placements, e.2.rank = r ∧
      (o.direction.extents e.2.size).height = t} =
      {t | t ∈ ((drawnLayers o g ranks)[r]).map (Coordinates.heightOf (frameExtents o g))} := by
    ext t
    simp only [Set.mem_ofPred_eq, List.mem_map, (isOrdering_drawnLayers hs).mem_layer hr]
    constructor
    · rintro ⟨e, he, rfl, rfl⟩
      obtain ⟨v, n, hn, rfl⟩ := exists_node_of_mem_placements he
      have hv := (List.getElem?_eq_some_iff.1 hn).1
      exact ⟨v, ⟨List.mem_range.2 hv, Layering.rankOf_ofRanks (hs ▸ hv)⟩, heightOf_frameExtents hn⟩
    · rintro ⟨v, ⟨hv, hvr⟩, rfl⟩
      have hv := List.mem_range.1 hv
      have hn := List.getElem?_eq_getElem hv
      refine ⟨(g.nodes[v].id, placementOf o g ranks g.nodes[v] v), ?_, ?_,
        (heightOf_frameExtents hn).symm⟩
      · rw [placements_solveRanked]
        exact List.mem_map.2 ⟨(g.nodes[v], v), List.mem_zipIdx_iff_getElem?.2 hn, rfl⟩
      · exact (Layering.rankOf_ofRanks (hs ▸ hv)).symm.trans hvr
  have ht : (Coordinates.thicknesses (frameExtents o g) (drawnLayers o g ranks)).getD r 0 =
      Scalar.largest (((drawnLayers o g ranks)[r]).map
        (Coordinates.heightOf (frameExtents o g))) := by
    simp [Coordinates.thicknesses, hr]
  rw [hset, ht]
  exact Coordinates.isGreatest_thickness (fun s h => (extents_nonneg hm s h).2)
    (ne_nil_of_mem_drawnLayers hl _ (List.getElem_mem _))

theorem map_getD_range (xs : List Rat) : (List.range xs.length).map (xs.getD · 0) = xs := by
  refine List.ext_getElem (by simp) fun i hi hi' => ?_
  simp [List.getElem?_eq_getElem hi']

end Bounds

/-- **The bounds of a drawing start on its margins**, in exact arithmetic. In the direction of flow
they are as long as the thickest nodes of all ranks and the distances between the ranks together,
and the opposite direction has the same bounds. -/
theorem solve_bounds {δ : Type} {o : Options Rat} {nodes : List (Node Rat δ)}
    {edges : List Edge} {sizes : Option (SizeMap Rat)} {default : Size Rat}
    {g : SizedGraph Rat} (ho : o.check = .ok ()) (hd : default.isMeasurable = true)
    (hg : SizedGraph.build nodes edges sizes default = .ok g) (hne : nodes ≠ []) :
    ∃ s b, solve o g = .ok s ∧ s.bounds? = some b ∧
      b.topLeft = ⟨o.marginX, o.marginY⟩ ∧
      (∃ thickness : Nat → Rat,
        (∀ r < s.rankCount, IsGreatest {t | ∃ e ∈ s.placements, e.2.rank = r ∧
          (o.direction.extents e.2.size).height = t} (thickness r)) ∧
        o.direction.extentAlong b =
          ((List.range s.rankCount).map thickness).sum + o.rankSep * (s.rankCount - 1)) ∧
      ∃ s', solve { o with direction := o.direction.reverse } g = .ok s' ∧
        s'.bounds? = some b := by
  have hm := SizedGraph.isMeasurable_of_build hd hg
  have hne : g.nodes ≠ [] := by simpa [SizedGraph.nodes_of_build hg] using hne
  obtain ⟨ranks, hranks, hl⟩ := g.graph.exists_leastRanks_acyclic
  have hs : ranks.size = g.nodes.length := hl.size.trans g.size_graph
  have hsolve : ∀ o : Options Rat, solve o g = .ok (solveRanked o g ranks) := fun o => by
    rw [solve, if_neg (by simpa using hne), hranks]
  obtain ⟨b, hb, hminX, hminY, hmaxY⟩ := exists_isHull_frameBoxes ho hl hm hne
  obtain ⟨hspacing, hframe, hboxes⟩ := frame_reverse o g ranks
  refine ⟨_, _, hsolve o, bounds?_solveRanked hs hb hminY hmaxY, ?_, ?_, _, hsolve _, ?_⟩
  · cases h : o.direction <;>
      simp [Direction.isVertical, Box.topLeft, Box.transpose, hminX, hminY, Options.spacing, h]
  · refine ⟨fun r =>
      (Coordinates.thicknesses (frameExtents o g) (drawnLayers o g ranks)).getD r 0, ?_, ?_⟩
    · intro r hr
      exact isGreatest_thicknesses hl hm (rankCount_solveRanked (o := o) hs ▸ hr)
    · have hlen : (Coordinates.thicknesses (frameExtents o g) (drawnLayers o g ranks)).length =
          (drawnLayers o g ranks).length := List.length_map _
      have hextent : b.maxY - b.minY = (drawnFrame o g ranks).rankSpan := by
        rw [hmaxY, hminY, add_sub_cancel_left]
      rw [rankCount_solveRanked hs, ← hlen, map_getD_range, hlen, ← rankSpan_drawnFrame hl hne,
        ← hextent]
      cases h : o.direction <;> rfl
  · rw [← hspacing, ← hframe] at hmaxY
    rw [← hspacing] at hminY
    rw [← hboxes] at hb
    rw [bounds?_solveRanked hs hb hminY hmaxY, Direction.isVertical_reverse]

/-- Two nodes above a third one, drawn from bottom to top, and a loop. -/
theorem solve_bounds_join :
    let o : Options Rat := { Options.default with direction := .bottomToTop, rankSep := 7 }
    let nodes : List (Node Rat Unit) := [
      ⟨"a", (), ⟨0, 0⟩, some ⟨10, 20⟩⟩, ⟨"b", (), ⟨0, 0⟩, none⟩, ⟨"c", (), ⟨0, 0⟩, some ⟨5, 7⟩⟩]
    let edges : List Edge := [⟨"e", "a", "c"⟩, ⟨"f", "b", "c"⟩, ⟨"g", "b", "b"⟩]
    o.check = .ok () ∧ o.defaultSize.isMeasurable = true ∧ nodes ≠ [] ∧
      ∃ g, SizedGraph.build nodes edges none o.defaultSize = .ok g ∧
        ∃ s b, solve o g = .ok s ∧ s.bounds? = some b ∧
          b.topLeft = ⟨o.marginX, o.marginY⟩ ∧
          (∃ thickness : Nat → Rat,
            (∀ r < s.rankCount, IsGreatest {t | ∃ e ∈ s.placements, e.2.rank = r ∧
              (o.direction.extents e.2.size).height = t} (thickness r)) ∧
            o.direction.extentAlong b =
              ((List.range s.rankCount).map thickness).sum + o.rankSep * (s.rankCount - 1)) ∧
          ∃ s', solve { o with direction := o.direction.reverse } g = .ok s' ∧
            s'.bounds? = some b := by
  intro o nodes edges
  have ho : o.check = .ok () := by decide
  have hd : o.defaultSize.isMeasurable = true := Options.isMeasurable_defaultSize ho
  have hne : nodes ≠ [] := List.cons_ne_nil _ _
  obtain ⟨g, hg⟩ := SizedGraph.exists_build_iff.2
    (⟨by decide, by decide⟩ : (nodes.map (·.id)).Nodup ∧ ∀ e ∈ edges, e.Joins (nodes.map (·.id)))
  exact ⟨ho, hd, hne, g, hg, solve_bounds ho hd hg hne⟩

/-- The default size is taken as it is: if it is negative, the bounds of three nodes on their own do
not start on the upper margin. -/
theorem solve_bounds_off_margin :
    let o : Options Rat := Options.default
    let nodes : List (Node Rat Unit) :=
      [⟨"a", (), ⟨0, 0⟩, none⟩, ⟨"b", (), ⟨0, 0⟩, none⟩, ⟨"c", (), ⟨0, 0⟩, none⟩]
    o.check = .ok () ∧ nodes ≠ [] ∧
      ∃ g, SizedGraph.build nodes [] none ⟨-100, -100⟩ = .ok g ∧
        ∃ s b, solve o g = .ok s ∧ s.bounds? = some b ∧
          b.topLeft = ⟨40, 90⟩ ∧ b.topLeft ≠ ⟨o.marginX, o.marginY⟩ := by
  intro o nodes
  have ho : o.check = .ok () := by decide
  have hbounds : (solveRanked o (trio ⟨-100, -100⟩) #[0, 0, 0]).bounds? =
      some ⟨40, 90, 60, -10⟩ := by
    simp only [Solution.bounds?, placements_solveRanked, placementOf, drawnTurn, drawnFrame,
      drawnLayers_trio]
    decide +kernel
  exact ⟨ho, List.cons_ne_nil _ _, trio ⟨-100, -100⟩, rfl, _, _, solve_trio o _, hbounds, rfl,
    by decide⟩

end LayeredDrawing
