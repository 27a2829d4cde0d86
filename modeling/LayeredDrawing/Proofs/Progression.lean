import LayeredDrawing.Proofs.Bounds
import LayeredDrawing.Proofs.Coordinates.Ascent
import LayeredDrawing.Proofs.Overflow

/-!
# Rounded centers follow ranks and orders

Over the exact numbers the boxes of a solution keep their distances. Rounded ones need not, but the
centers stay in their order: those of one rank are level, those of a later rank are not behind them
in the direction of flow, and within a rank they do not decrease with the order (`solve_inOrder`).

Of the rounding it is used only that it is monotone. Of the magnitudes it is asked that the centers
are numbers, whatever has happened on the way to them. They are if nothing overflows, since the
operations of the layout give numbers from finite operands, and for moderate sizes nothing does
(`isNumber_of_within`).
-/

namespace LayeredDrawing

open Single

/-! ## Coordinates in the direction of a drawing -/

/-- A point with two coordinates that are numbers. -/
structure Point.IsNumber (p : Point Float32) : Prop where
  x : Single.IsNumber p.x
  y : Single.IsNumber p.y

namespace Direction

/-- The coordinate of a point along the rank axis. -/
def rankCoordinate {α : Type} (d : Direction) (p : Point α) : α :=
  if d.isVertical then p.y else p.x

/-- The coordinate of a point along the cross axis. -/
def crossCoordinate {α : Type} (d : Direction) (p : Point α) : α :=
  if d.isVertical then p.x else p.y

/-- The second place on the rank axis is not behind the first in the direction of flow. -/
def NotBehind (d : Direction) (x y : Float32) : Prop :=
  if d.isReversed then y ≤ x else x ≤ y

/-- Two nodes with centers in the order of their ranks and of their places in a rank. -/
structure InOrder (d : Direction) (a b : Placement Float32) : Prop where
  level : a.rank = b.rank → d.rankCoordinate a.center = d.rankCoordinate b.center
  ahead : a.rank ≤ b.rank →
    d.NotBehind (d.rankCoordinate a.center) (d.rankCoordinate b.center)
  beside : a.rank = b.rank → a.order ≤ b.order →
    d.crossCoordinate a.center ≤ d.crossCoordinate b.center

section Place

variable {α : Type} [Scalar α] (d : Direction)

theorem rankCoordinate_place (turn : α) (p : Point α) :
    d.rankCoordinate (d.place turn p) = if d.isReversed then turn - p.y else p.y := by
  cases d <;> rfl

theorem crossCoordinate_place (turn : α) (p : Point α) :
    d.crossCoordinate (d.place turn p) = p.x := by
  cases d <;> rfl

end Place

variable {d : Direction} {turn : Float32} {p q : Point Float32}

theorem isNumber_of_place (h : (d.place turn p).IsNumber) : p.IsNumber := by
  cases d with
  | topToBottom => exact h
  | leftToRight => exact ⟨h.y, h.x⟩
  | bottomToTop => exact ⟨h.x, (isNumber_of_sub h.y).2⟩
  | rightToLeft => exact ⟨h.y, (isNumber_of_sub h.x).2⟩

/-- Turning the rank axis round exchanges the order of two places, rounded as well. -/
theorem notBehind_place (h : p.y ≤ q.y) (hp : (d.place turn p).IsNumber)
    (hq : (d.place turn q).IsNumber) :
    d.NotBehind (d.rankCoordinate (d.place turn p)) (d.rankCoordinate (d.place turn q)) := by
  cases d with
  | topToBottom => exact h
  | leftToRight => exact h
  | bottomToTop => exact sub_anti h hp.y hq.y
  | rightToLeft => exact sub_anti h hp.x hq.x

end Direction

/-! ## Sizes and distances -/

theorem Size.nonneg_of_isMeasurable {s : Size Float32} (h : s.isMeasurable = true) :
    0 ≤ s.width ∧ 0 ≤ s.height := by
  simp only [Size.isMeasurable, Bool.and_eq_true] at h
  obtain ⟨⟨⟨hw, hh⟩, hw'⟩, hh'⟩ := h
  exact ⟨le_of_lt isNumber_zero (isNumber_of_isFinite hw) (of_decide_eq_true hw'),
    le_of_lt isNumber_zero (isNumber_of_isFinite hh) (of_decide_eq_true hh')⟩

theorem Options.zero_le_distance {o : Options Float32} (h : o.check = .ok ()) (d : Distance) :
    0 ≤ o.distance d := by
  have husable := isUsable_distance h d
  simp only [isUsable, Bool.and_eq_true, Bool.not_eq_true'] at husable
  exact le_of_not_lt isNumber_zero (isNumber_of_isFinite husable.1) (of_decide_eq_false husable.2)

/-! ## The centers of a solution -/

section Solutions

variable {o : Options Float32} {g : SizedGraph Float32} {ranks : Array Nat}

theorem zero_le_width_frameExtents (hm : ∀ n ∈ g.nodes, n.size.isMeasurable = true) :
    ∀ s ∈ frameExtents o g, 0 ≤ s.width := by
  intro s h
  obtain ⟨n, hn, rfl⟩ := List.mem_map.1 (List.mem_toArray.1 h)
  obtain ⟨hw, hh⟩ := Size.nonneg_of_isMeasurable (hm n hn)
  rw [Direction.extents]
  split
  · exact hw
  · exact hh

theorem center_placementOf (m : SizedNode Float32) (v : Nat) :
    (placementOf o g ranks m v).center = o.direction.place (drawnTurn o g ranks)
      ((drawnFrame o g ranks).centers.getD v Point.origin) := rfl

variable (hs : ranks.size = g.nodes.length) {u v : Nat} {m n : SizedNode Float32}
  (hu : g.nodes[u]? = some m) (hv : g.nodes[v]? = some n)

include hs

/-- If the centers of all nodes are numbers, so are those in the frame of the ranks. -/
theorem isNumber_drawnFrame
    (h : ∀ e ∈ (solveRanked o g ranks).placements, e.2.center.IsNumber) :
    ∀ v ∈ (drawnLayers o g ranks).flatten,
      ((drawnFrame o g ranks).centers.getD v Point.origin).IsNumber := by
  intro v hv
  have hlt := (mem_flatten_drawnLayers hs).1 hv
  refine Direction.isNumber_of_place (h (g.nodes[v].id, placementOf o g ranks g.nodes[v] v) ?_)
  rw [placements_solveRanked]
  exact List.mem_map.2
    ⟨(g.nodes[v], v), List.mem_zipIdx_iff_getElem?.2 (List.getElem?_eq_getElem hlt), rfl⟩

include hu hv

/-- Nodes of one rank are level. -/
theorem rankCoordinate_eq_of_rank_eq
    (hr : (placementOf o g ranks m u).rank = (placementOf o g ranks n v).rank) :
    o.direction.rankCoordinate (placementOf o g ranks m u).center =
      o.direction.rankCoordinate (placementOf o g ranks n v).center := by
  obtain ⟨layer, hl, hiu, hiv⟩ := exists_common_layer hs hu hv hr
  have hy : ((drawnFrame o g ranks).centers.getD u Point.origin).y =
      ((drawnFrame o g ranks).centers.getD v Point.origin).y :=
    Coordinates.y_getD_centers_assign g.graph.acyclic o.spacing (nodup_drawnLayers hs)
      (lt_of_mem_drawnLayers hs) hl (List.mem_of_getElem? hiu) (List.mem_of_getElem? hiv)
  rw [center_placementOf, center_placementOf, Direction.rankCoordinate_place,
    Direction.rankCoordinate_place, hy]

variable (ho : o.check = .ok ())
  (hnumber : ∀ v ∈ (drawnLayers o g ranks).flatten,
    ((drawnFrame o g ranks).centers.getD v Point.origin).IsNumber)

include ho hnumber

/-- Nodes of later ranks are not behind those of earlier ones. -/
theorem notBehind_of_rank_le (hne : ∀ layer ∈ drawnLayers o g ranks, layer ≠ [])
    (hu' : (placementOf o g ranks m u).center.IsNumber)
    (hv' : (placementOf o g ranks n v).center.IsNumber)
    (hr : (placementOf o g ranks m u).rank ≤ (placementOf o g ranks n v).rank) :
    o.direction.NotBehind (o.direction.rankCoordinate (placementOf o g ranks m u).center)
      (o.direction.rankCoordinate (placementOf o g ranks n v).center) := by
  obtain ⟨layer, hl, hiu⟩ := exists_layer_of_placementOf (o := o) hs hu
  obtain ⟨layer', hl', hiv⟩ := exists_layer_of_placementOf (o := o) hs hv
  have hsep : 0 ≤ o.spacing.rankSep := Options.zero_le_distance ho .rankSep
  have hy : ((drawnFrame o g ranks).centers.getD u Point.origin).y ≤
      ((drawnFrame o g ranks).centers.getD v Point.origin).y :=
    Coordinates.rank_le_assign (nodup_drawnLayers hs) (lt_of_mem_drawnLayers hs) hsep hne
      (fun v hv => (hnumber v hv).y) hr hl hl' (List.mem_of_getElem? hiu)
      (List.mem_of_getElem? hiv)
  rw [center_placementOf] at hu' hv' ⊢
  rw [center_placementOf]
  exact Direction.notBehind_place hy hu' hv'

/-- Within a rank the centers do not decrease with the order. -/
theorem crossCoordinate_le_of_order_le (hm : ∀ n ∈ g.nodes, n.size.isMeasurable = true)
    (hr : (placementOf o g ranks m u).rank = (placementOf o g ranks n v).rank)
    (hle : (placementOf o g ranks m u).order ≤ (placementOf o g ranks n v).order) :
    o.direction.crossCoordinate (placementOf o g ranks m u).center ≤
      o.direction.crossCoordinate (placementOf o g ranks n v).center := by
  obtain ⟨layer, hl, hiu, hiv⟩ := exists_common_layer hs hu hv hr
  have hmem : ∀ w ∈ layer, w ∈ (drawnLayers o g ranks).flatten :=
    fun w hw => List.mem_flatten.2 ⟨layer, hl, hw⟩
  have hsep : 0 ≤ o.spacing.nodeSep := Options.zero_le_distance ho .nodeSep
  have hpair : layer.Pairwise fun u v =>
      ((drawnFrame o g ranks).centers.getD u Point.origin).x ≤
        ((drawnFrame o g ranks).centers.getD v Point.origin).x :=
    Coordinates.pairwise_cross_assign (nodup_drawnLayers hs) (lt_of_mem_drawnLayers hs) hsep
      (zero_le_width_frameExtents hm) hl fun w hw => (hnumber w (hmem w hw)).x
  rw [center_placementOf, center_placementOf, Direction.crossCoordinate_place,
    Direction.crossCoordinate_place]
  rcases hle.eq_or_lt with heq | hlt
  · rw [heq] at hiu
    obtain rfl := Option.some.inj (hiu.symm.trans hiv)
    exact le_refl (hnumber u (hmem u (List.mem_of_getElem? hiu))).x
  · obtain ⟨hi, hiu⟩ := List.getElem?_eq_some_iff.1 hiu
    obtain ⟨hj, hiv⟩ := List.getElem?_eq_some_iff.1 hiv
    have h := List.pairwise_iff_getElem.1 hpair _ _ hi hj hlt
    rwa [hiu, hiv] at h

omit hs hu hv ho hnumber

theorem inOrder_solveRanked (ho : o.check = .ok ()) (hl : g.graph.acyclic.LeastRanks ranks)
    (hm : ∀ n ∈ g.nodes, n.size.isMeasurable = true)
    (h : ∀ e ∈ (solveRanked o g ranks).placements, e.2.center.IsNumber) :
    ∀ a ∈ (solveRanked o g ranks).placements, ∀ b ∈ (solveRanked o g ranks).placements,
      o.direction.InOrder a.2 b.2 := by
  intro a ha b hb
  have hs : ranks.size = g.nodes.length := hl.size.trans g.size_graph
  have hnumber := isNumber_drawnFrame hs h
  have hca := h a ha
  have hcb := h b hb
  obtain ⟨u, m, hu, rfl⟩ := exists_node_of_mem_placements ha
  obtain ⟨v, n, hv, rfl⟩ := exists_node_of_mem_placements hb
  exact {
    level := rankCoordinate_eq_of_rank_eq hs hu hv
    ahead := notBehind_of_rank_le hs hu hv ho hnumber (ne_nil_of_mem_drawnLayers hl) hca hcb
    beside := crossCoordinate_le_of_order_le hs hu hv ho hnumber hm }

/-- A solution is in order if its centers are numbers. -/
theorem inOrder_of_isNumber {s : Solution Float32} (ho : o.check = .ok ())
    (hm : ∀ n ∈ g.nodes, n.size.isMeasurable = true) (hsolve : solve o g = .ok s)
    (h : ∀ e ∈ s.placements, e.2.center.IsNumber) :
    ∀ a ∈ s.placements, ∀ b ∈ s.placements, o.direction.InOrder a.2 b.2 := by
  by_cases hn : g.nodes = []
  · rw [solve, if_pos (by simpa using hn)] at hsolve
    obtain rfl := Except.ok.inj hsolve
    simp
  · obtain ⟨ranks, hl, e⟩ := exists_solve_eq_solveRanked o hn
    obtain rfl := Except.ok.inj (e.symm.trans hsolve)
    exact inOrder_solveRanked ho hl hm h

/-- The centers of a solution of moderate size are numbers: nothing in it overflows. -/
theorem isNumber_of_within {s : Solution Float32} {k n : Nat} (hn : 24 ≤ n) (hkn : k + n ≤ 102)
    (hlen : g.nodes.length ≤ 2 ^ n) (hdistance : ∀ d, Within (2 ^ k) (o.distance d))
    (hsizes : ∀ v ∈ g.nodes, v.size.Within (2 ^ k)) (h : solve o g = .ok s) :
    ∀ e ∈ s.placements, e.2.center.IsNumber := by
  intro e he
  obtain ⟨hcenter, -⟩ := within_solve hn hkn hlen hdistance hsizes h e he
  exact ⟨isNumber_of_isFinite hcenter.x.isFinite, isNumber_of_isFinite hcenter.y.isFinite⟩

end Solutions

/-- **The centers of a solution are in the order of ranks and orders**, in single precision: nodes
of one rank are level, later ranks are not behind earlier ones in the direction of flow, and within
a rank the centers do not decrease with the order. The options and the default size are ones that
can be used; the sizes, the direction and the numbers of passes are arbitrary. Instead of a layout
without overflow it is asked only that its centers are numbers, as all of them are if nothing
overflows. -/
theorem solve_inOrder {δ : Type} {o : Options Float32} {nodes : List (Node Float32 δ)}
    {edges : List Edge} {sizes : Option (SizeMap Float32)} {default : Size Float32}
    {g : SizedGraph Float32} (ho : o.check = .ok ()) (hd : default.isMeasurable = true)
    (hg : SizedGraph.build nodes edges sizes default = .ok g) :
    ∃ s, solve o g = .ok s ∧
      ((∀ e ∈ s.placements, e.2.center.IsNumber) →
        ∀ a ∈ s.placements, ∀ b ∈ s.placements, o.direction.InOrder a.2 b.2) := by
  obtain ⟨s, e⟩ := exists_solve o g
  exact ⟨s, e, inOrder_of_isNumber ho (SizedGraph.isMeasurable_of_build hd hg) e⟩

/-- A cycle of three nodes with a loop, drawn from right to left, and a node on its own that is so
tall that the distances beside it are lost in rounding. -/
theorem solve_inOrder_tall :
    let o : Options Float32 := { Options.default with direction := .rightToLeft }
    let nodes : List (Node Float32 Unit) := [
      ⟨"a", (), ⟨0, 0⟩, some ⟨10, 20⟩⟩, ⟨"b", (), ⟨0, 0⟩, none⟩, ⟨"c", (), ⟨0, 0⟩, none⟩,
      ⟨"d", (), ⟨0, 0⟩, some ⟨10, 100000000000000000000⟩⟩]
    let edges : List Edge := [⟨"e", "a", "b"⟩, ⟨"f", "b", "c"⟩, ⟨"g", "c", "a"⟩, ⟨"h", "b", "b"⟩]
    o.check = .ok () ∧ o.defaultSize.isMeasurable = true ∧
      ∃ g, SizedGraph.build nodes edges none o.defaultSize = .ok g ∧
        ∃ s, solve o g = .ok s ∧ (∀ e ∈ s.placements, e.2.center.IsNumber) ∧
          ∀ a ∈ s.placements, ∀ b ∈ s.placements, o.direction.InOrder a.2 b.2 := by
  intro o nodes edges
  have ho : o.check = .ok () := by decide +kernel
  have hd : o.defaultSize.isMeasurable = true := Options.isMeasurable_defaultSize ho
  obtain ⟨g, hg⟩ : ∃ g, SizedGraph.build nodes edges none o.defaultSize = .ok g :=
    SizedGraph.exists_build_iff.2 ⟨by decide, by decide⟩
  obtain ⟨s, hs, h⟩ := solve_inOrder ho hd hg
  have hvalue : ∀ n ≤ 2 ^ 67, Within (2 ^ 67) (Float32.ofNat n) :=
    fun n hn => within_ofNat (by norm_num) hn
  have hdistance : ∀ d, Within (2 ^ 67) (o.distance d) := by
    intro d
    cases d with
    | nodeSep => exact hvalue 40 (by norm_num)
    | rankSep => exact hvalue 80 (by norm_num)
    | marginX => exact hvalue 40 (by norm_num)
    | marginY => exact hvalue 40 (by norm_num)
  have hresolve : nodes.map (SizedGraph.resolveSize none o.defaultSize) =
      [⟨10, 20⟩, o.defaultSize, o.defaultSize, ⟨10, 100000000000000000000⟩] := by decide +kernel
  have hsizes : ∀ size ∈ nodes.map (SizedGraph.resolveSize none o.defaultSize),
      size.Within (2 ^ 67) := by
    have hsmall : Size.Within (2 ^ 67) ⟨10, 20⟩ :=
      ⟨hvalue 10 (by norm_num), hvalue 20 (by norm_num)⟩
    have htall : Size.Within (2 ^ 67) ⟨10, 100000000000000000000⟩ :=
      ⟨hvalue 10 (by norm_num), hvalue 100000000000000000000 (by norm_num)⟩
    have hdefault : o.defaultSize.Within (2 ^ 67) :=
      ⟨hvalue 280 (by norm_num), hvalue 56 (by norm_num)⟩
    rw [hresolve]
    simp only [List.forall_mem_cons]
    exact ⟨hsmall, hdefault, hdefault, htall, by simp⟩
  have hnumber : ∀ e ∈ s.placements, e.2.center.IsNumber := by
    refine isNumber_of_within (k := 67) (n := 24) le_rfl (by norm_num) ?_ hdistance ?_ hs
    · simp [SizedGraph.nodes_of_build hg, nodes]
    · intro v hv
      rw [SizedGraph.nodes_of_build hg] at hv
      obtain ⟨m, hm, rfl⟩ := List.mem_map.1 hv
      exact hsizes _ (List.mem_map_of_mem hm)
  exact ⟨ho, hd, g, hg, s, hs, hnumber, h hnumber⟩

/-- The default size is taken as it is: if it is negative, three nodes on their own stand in the
opposite order, far from any overflow. -/
theorem solve_out_of_order :
    let o : Options Float32 := Options.default
    let nodes : List (Node Float32 Unit) :=
      [⟨"a", (), ⟨0, 0⟩, none⟩, ⟨"b", (), ⟨0, 0⟩, none⟩, ⟨"c", (), ⟨0, 0⟩, none⟩]
    o.check = .ok () ∧ ∃ g, SizedGraph.build nodes [] none ⟨-100, -100⟩ = .ok g ∧
      ∃ s, solve o g = .ok s ∧
        s.placements.map (fun e => (e.2.rank, e.2.order, e.2.center)) =
          [(0, 0, ⟨110, 40⟩), (0, 1, ⟨50, 40⟩), (0, 2, ⟨-10, 40⟩)] ∧
        ¬ ∀ a ∈ s.placements, ∀ b ∈ s.placements, o.direction.InOrder a.2 b.2 := by
  intro o nodes
  have ho : o.check = .ok () := by decide +kernel
  have hplaced : (solveRanked o (trio ⟨-100, -100⟩) #[0, 0, 0]).placements.map
      (fun e => (e.2.rank, e.2.order, e.2.center)) =
        [(0, 0, ⟨110, 40⟩), (0, 1, ⟨50, 40⟩), (0, 2, ⟨-10, 40⟩)] := by
    simp only [placements_solveRanked, placementOf, drawnTurn, drawnFrame, drawnLayers_trio]
    decide +kernel
  refine ⟨ho, trio ⟨-100, -100⟩, rfl, _, solve_trio o _, hplaced, fun h => ?_⟩
  obtain ⟨a, ha, hplace⟩ := List.mem_map.1 (hplaced ▸ List.mem_cons_self)
  obtain ⟨b, hb, hplace'⟩ := List.mem_map.1 (hplaced ▸ List.mem_cons_of_mem _ List.mem_cons_self)
  simp only [Prod.mk.injEq] at hplace hplace'
  have hle : o.direction.crossCoordinate a.2.center ≤ o.direction.crossCoordinate b.2.center :=
    (h a ha b hb).beside (hplace.1.trans hplace'.1.symm) (by omega)
  rw [hplace.2.2, hplace'.2.2] at hle
  exact absurd hle (by decide +kernel)

end LayeredDrawing
