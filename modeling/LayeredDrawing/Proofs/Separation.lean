import LayeredDrawing.Proofs.Coordinates.Frame
import LayeredDrawing.Proofs.Solution

/-!
# The boxes of a solution do not overlap

What the frame of the ranks says about the centers of two nodes is carried over to their boxes in
the direction of the drawing, which may turn the rank axis round and exchange the axes
(`beside_place`, `ahead_place`). Over the exact numbers two nodes of one rank are then at least
`nodeSep` apart across the flow, and nodes of two ranks at least `rankSep` along it
(`solve_separated`).
-/

namespace LayeredDrawing

/-! ## Distances between boxes -/

namespace Direction

variable {α : Type} [Scalar α]

/-- The distance from the end of one box to the start of another along a rank. -/
def beside (d : Direction) (a b : Box α) : α :=
  if d.isVertical then b.minX - a.maxX else b.minY - a.maxY

/-- The distance from the end of one box to the start of another in the direction of flow. -/
def ahead : (d : Direction) → (a b : Box α) → α
  | topToBottom, a, b => b.minY - a.maxY
  | bottomToTop, a, b => a.minY - b.maxY
  | leftToRight, a, b => b.minX - a.maxX
  | rightToLeft, a, b => a.minX - b.maxX

end Direction

/-- Two nodes with the distances that the options ask for: across the flow if they have the same
rank, and along the flow if they have different ones. -/
structure Options.Separates (o : Options Rat) (a b : Placement Rat) : Prop where
  order_ne : a.rank = b.rank → a.order ≠ b.order
  beside : a.rank = b.rank → a.order < b.order → o.nodeSep ≤ o.direction.beside a.box b.box
  ahead : a.rank < b.rank → o.rankSep ≤ o.direction.ahead a.box b.box
  disjoint : a.box.intersects b.box = false

namespace Direction

variable (d : Direction) (turn : Rat) (p q : Point Rat) (s t : Size Rat)

theorem beside_place :
    d.beside (.ofCenter (d.place turn p) s) (.ofCenter (d.place turn q) t) =
      q.x - (d.extents t).width / 2 - (p.x + (d.extents s).width / 2) := by
  cases d <;> rfl

theorem ahead_place :
    d.ahead (.ofCenter (d.place turn p) s) (.ofCenter (d.place turn q) t) =
      q.y - (d.extents t).height / 2 - (p.y + (d.extents s).height / 2) := by
  cases d with
  | topToBottom => rfl
  | leftToRight => rfl
  | bottomToTop =>
    show turn - p.y - s.height / 2 - (turn - q.y + t.height / 2) =
      q.y - t.height / 2 - (p.y + s.height / 2)
    ring
  | rightToLeft =>
    show turn - p.y - s.width / 2 - (turn - q.y + t.width / 2) =
      q.y - t.width / 2 - (p.y + s.width / 2)
    ring

end Direction

/-! ## Boxes beside each other and ahead of each other -/

section Intersections

variable {d : Direction} {a b : Box Rat}

theorem Box.intersects_comm : a.intersects b = b.intersects a := by
  simp only [intersects, Bool.and_comm, Bool.and_left_comm, Bool.and_assoc]

theorem Box.not_intersects_of_le_minX (h : a.maxX ≤ b.minX) : a.intersects b = false := by
  simp [intersects, not_lt.2 h]

theorem Box.not_intersects_of_le_minY (h : a.maxY ≤ b.minY) : a.intersects b = false := by
  simp [intersects, not_lt.2 h]

theorem Direction.not_intersects_of_beside (h : 0 ≤ d.beside a b) : a.intersects b = false := by
  cases d with
  | topToBottom => exact Box.not_intersects_of_le_minX (sub_nonneg.1 h)
  | bottomToTop => exact Box.not_intersects_of_le_minX (sub_nonneg.1 h)
  | leftToRight => exact Box.not_intersects_of_le_minY (sub_nonneg.1 h)
  | rightToLeft => exact Box.not_intersects_of_le_minY (sub_nonneg.1 h)

theorem Direction.not_intersects_of_ahead (h : 0 ≤ d.ahead a b) : a.intersects b = false := by
  cases d with
  | topToBottom => exact Box.not_intersects_of_le_minY (sub_nonneg.1 h)
  | leftToRight => exact Box.not_intersects_of_le_minX (sub_nonneg.1 h)
  | bottomToTop =>
    rw [Box.intersects_comm]
    exact Box.not_intersects_of_le_minY (sub_nonneg.1 h)
  | rightToLeft =>
    rw [Box.intersects_comm]
    exact Box.not_intersects_of_le_minX (sub_nonneg.1 h)

end Intersections

/-! ## Exact distances -/

section Exact

variable {o : Options Rat} {g : SizedGraph Rat} {ranks : Array Nat}

theorem extents_nonneg (hm : ∀ n ∈ g.nodes, n.size.isMeasurable = true) :
    ∀ s ∈ frameExtents o g, 0 ≤ s.width ∧ 0 ≤ s.height := by
  intro s h
  obtain ⟨n, hn, rfl⟩ := List.mem_map.1 (List.mem_toArray.1 h)
  obtain ⟨hw, hh⟩ := Size.isMeasurable_rat.1 (hm n hn)
  rw [Direction.extents]
  split
  · exact ⟨hw.le, hh.le⟩
  · exact ⟨hh.le, hw.le⟩

theorem widthOf_frameExtents {v : Nat} {n : SizedNode Rat} (h : g.nodes[v]? = some n) :
    Coordinates.widthOf (frameExtents o g) v = (o.direction.extents n.size).width := by
  simp [Coordinates.widthOf, getElem?_frameExtents h]

theorem heightOf_frameExtents {v : Nat} {n : SizedNode Rat} (h : g.nodes[v]? = some n) :
    Coordinates.heightOf (frameExtents o g) v = (o.direction.extents n.size).height := by
  simp [Coordinates.heightOf, getElem?_frameExtents h]

variable (ho : o.check = .ok ()) (hs : ranks.size = g.nodes.length) {u v : Nat}
  {m n : SizedNode Rat} (hu : g.nodes[u]? = some m) (hv : g.nodes[v]? = some n)

include ho hs hu hv

/-- Nodes of one rank keep their distance across the flow. -/
theorem nodeSep_le_beside (hm : ∀ n ∈ g.nodes, n.size.isMeasurable = true)
    (hr : (placementOf o g ranks m u).rank = (placementOf o g ranks n v).rank)
    (hlt : (placementOf o g ranks m u).order < (placementOf o g ranks n v).order) :
    o.nodeSep ≤
      o.direction.beside (placementOf o g ranks m u).box (placementOf o g ranks n v).box := by
  obtain ⟨layer, hl, hiu, hiv⟩ := exists_common_layer hs hu hv hr
  obtain ⟨hi, hiu⟩ := List.getElem?_eq_some_iff.1 hiu
  obtain ⟨hj, hiv⟩ := List.getElem?_eq_some_iff.1 hiv
  have hpair : layer.Pairwise fun u v =>
      ((drawnFrame o g ranks).centers.getD u Point.origin).x +
          Coordinates.widthOf (frameExtents o g) u / 2 + o.nodeSep ≤
        ((drawnFrame o g ranks).centers.getD v Point.origin).x -
          Coordinates.widthOf (frameExtents o g) v / 2 :=
    Coordinates.beside_assign (nodup_drawnLayers hs) (lt_of_mem_drawnLayers hs)
      (Options.distance_nonneg ho .nodeSep) (fun s h => (extents_nonneg hm s h).1) hl
  have h := List.pairwise_iff_getElem.1 hpair _ _ hi hj hlt
  rw [hiu, hiv, widthOf_frameExtents hu, widthOf_frameExtents hv] at h
  rw [Placement.box, Placement.box, placementOf, placementOf, Direction.beside_place]
  linarith

/-- Nodes of different ranks keep their distance along the flow. -/
theorem rankSep_le_ahead
    (hlt : (placementOf o g ranks m u).rank < (placementOf o g ranks n v).rank) :
    o.rankSep ≤
      o.direction.ahead (placementOf o g ranks m u).box (placementOf o g ranks n v).box := by
  obtain ⟨layer, hl, hiu⟩ := exists_layer_of_placementOf (o := o) hs hu
  obtain ⟨layer', hl', hiv⟩ := exists_layer_of_placementOf (o := o) hs hv
  have h : ((drawnFrame o g ranks).centers.getD u Point.origin).y +
        Coordinates.heightOf (frameExtents o g) u / 2 + o.rankSep ≤
      ((drawnFrame o g ranks).centers.getD v Point.origin).y -
        Coordinates.heightOf (frameExtents o g) v / 2 :=
    Coordinates.ahead_assign (nodup_drawnLayers hs) (lt_of_mem_drawnLayers hs)
      (Options.distance_nonneg ho .rankSep) hlt hl hl' (List.mem_of_getElem? hiu)
      (List.mem_of_getElem? hiv)
  rw [heightOf_frameExtents hu, heightOf_frameExtents hv] at h
  rw [Placement.box, Placement.box, placementOf, placementOf, Direction.ahead_place]
  linarith

end Exact

theorem separates_of_ne {o : Options Rat} {g : SizedGraph Rat} {ranks : Array Nat}
    (ho : o.check = .ok ()) (hs : ranks.size = g.nodes.length)
    (hm : ∀ n ∈ g.nodes, n.size.isMeasurable = true) {u v : Nat} {m n : SizedNode Rat}
    (hu : g.nodes[u]? = some m) (hv : g.nodes[v]? = some n) (hne : u ≠ v) :
    o.Separates (placementOf o g ranks m u) (placementOf o g ranks n v) where
  order_ne := order_ne_of_ne hs hu hv hne
  beside := nodeSep_le_beside ho hs hu hv hm
  ahead := rankSep_le_ahead ho hs hu hv
  disjoint := by
    have hnode := Options.distance_nonneg ho .nodeSep
    have hrank := Options.distance_nonneg ho .rankSep
    rcases Nat.lt_trichotomy (placementOf o g ranks m u).rank (placementOf o g ranks n v).rank
      with hlt | hr | hgt
    · exact Direction.not_intersects_of_ahead (hrank.trans (rankSep_le_ahead ho hs hu hv hlt))
    · rcases Nat.lt_or_gt_of_ne (order_ne_of_ne hs hu hv hne hr) with hlt | hgt
      · exact Direction.not_intersects_of_beside
          (hnode.trans (nodeSep_le_beside ho hs hu hv hm hr hlt))
      · rw [Box.intersects_comm]
        exact Direction.not_intersects_of_beside
          (hnode.trans (nodeSep_le_beside ho hs hv hu hm hr.symm hgt))
    · rw [Box.intersects_comm]
      exact Direction.not_intersects_of_ahead (hrank.trans (rankSep_le_ahead ho hs hv hu hgt))

/-- **The nodes of a solution keep the distances of the options**, in exact arithmetic. The
options and the default size are ones that can be used; the sizes of the nodes, the direction and
the numbers of passes are arbitrary. -/
theorem solve_separated {δ : Type} {o : Options Rat} {nodes : List (Node Rat δ)}
    {edges : List Edge} {sizes : Option (SizeMap Rat)} {default : Size Rat}
    {g : SizedGraph Rat} (ho : o.check = .ok ()) (hd : default.isMeasurable = true)
    (hg : SizedGraph.build nodes edges sizes default = .ok g) :
    ∃ s, solve o g = .ok s ∧
      s.placements.map (fun p => (p.1, p.2.size)) = g.nodes.map (fun n => (n.id, n.size)) ∧
      ∀ a ∈ s.placements, ∀ b ∈ s.placements, a.1 ≠ b.1 → o.Separates a.2 b.2 := by
  obtain ⟨s, e⟩ := exists_solve o g
  refine ⟨s, e, sizes_solve e, fun a ha b hb hab => ?_⟩
  by_cases hn : g.nodes = []
  · have hids : s.placements.map (·.1) = [] := by rw [ids_solve e, hn, List.map_nil]
    rw [List.map_eq_nil_iff.1 hids] at ha
    simp at ha
  · obtain ⟨ranks, hl, e'⟩ := exists_solve_eq_solveRanked o hn
    obtain rfl := Except.ok.inj (e'.symm.trans e)
    obtain ⟨u, m, hu, rfl⟩ := exists_node_of_mem_placements ha
    obtain ⟨v, n, hv, rfl⟩ := exists_node_of_mem_placements hb
    have hne : u ≠ v := by
      rintro rfl
      obtain rfl := Option.some.inj (hu.symm.trans hv)
      exact hab rfl
    exact separates_of_ne ho (hl.size.trans g.size_graph)
      (SizedGraph.isMeasurable_of_build hd hg) hu hv hne

/-- A cycle of three nodes of different sizes with a loop, drawn from right to left, and a node
on its own. -/
theorem solve_separated_cycle :
    let o : Options Rat := { Options.default with direction := .rightToLeft, nodeSep := 3 }
    let nodes : List (Node Rat Unit) := [
      ⟨"a", (), ⟨0, 0⟩, some ⟨10, 20⟩⟩, ⟨"b", (), ⟨0, 0⟩, none⟩,
      ⟨"c", (), ⟨0, 0⟩, some ⟨5, 7⟩⟩, ⟨"d", (), ⟨0, 0⟩, some ⟨0, 0⟩⟩]
    let edges : List Edge := [⟨"e", "a", "b"⟩, ⟨"f", "b", "c"⟩, ⟨"g", "c", "a"⟩, ⟨"h", "b", "b"⟩]
    o.check = .ok () ∧ o.defaultSize.isMeasurable = true ∧
      ∃ g, SizedGraph.build nodes edges none o.defaultSize = .ok g ∧
        ∃ s, solve o g = .ok s ∧
          s.placements.map (fun p => (p.1, p.2.size)) = g.nodes.map (fun n => (n.id, n.size)) ∧
          ∀ a ∈ s.placements, ∀ b ∈ s.placements, a.1 ≠ b.1 → o.Separates a.2 b.2 := by
  intro o nodes edges
  have ho : o.check = .ok () := by decide
  have hd : o.defaultSize.isMeasurable = true := Options.isMeasurable_defaultSize ho
  obtain ⟨g, hg⟩ := SizedGraph.exists_build_iff.2
    (⟨by decide, by decide⟩ : (nodes.map (·.id)).Nodup ∧ ∀ e ∈ edges, e.Joins (nodes.map (·.id)))
  exact ⟨ho, hd, g, hg, solve_separated ho hd hg⟩

/-- The default size is taken as it is: if it is negative, the first and the last of three nodes on
their own are closer to each other than the options ask for. -/
theorem solve_too_close :
    let o : Options Rat := Options.default
    let nodes : List (Node Rat Unit) :=
      [⟨"a", (), ⟨0, 0⟩, none⟩, ⟨"b", (), ⟨0, 0⟩, none⟩, ⟨"c", (), ⟨0, 0⟩, none⟩]
    o.check = .ok () ∧ ∃ g, SizedGraph.build nodes [] none ⟨-100, -100⟩ = .ok g ∧
      ∃ s, solve o g = .ok s ∧ ∃ a ∈ s.placements, ∃ b ∈ s.placements, a.1 ≠ b.1 ∧
        a.2.rank = b.2.rank ∧ a.2.order < b.2.order ∧
        o.direction.beside a.2.box b.2.box < o.nodeSep := by
  intro o nodes
  have ho : o.check = .ok () := by decide
  refine ⟨ho, trio ⟨-100, -100⟩, rfl, _, solve_trio o _, ?_⟩
  simp only [placements_solveRanked, placementOf, drawnTurn, drawnFrame, drawnLayers_trio]
  decide +kernel

end LayeredDrawing
