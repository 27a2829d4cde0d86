import LayeredDrawing.Proofs.Coordinates.Magnitude
import LayeredDrawing.Proofs.Layout

/-!
# Layouts without overflow

Sizes and distances are checked one by one, and a drawing is a sum of many of them: options that
can be used and sizes that can be laid out do not keep a coordinate from overflowing
(`Layout.compute_overflow`). With sizes and distances of at most `2 ^ k` and at most `2 ^ n` nodes,
where `24 ≤ n` and `k + n ≤ 102`, no step of the layout leaves the range of the format, whatever
the edges and the numbers of passes (`Layout.within_compute`).
-/

namespace LayeredDrawing

open Single

/-! ## Points and boxes -/

/-- A point with bounded coordinates. -/
structure Point.Within (b : ℚ) (p : Point Float32) : Prop where
  x : LayeredDrawing.Within b p.x
  y : LayeredDrawing.Within b p.y

/-- A size with bounded extents. -/
structure Size.Within (b : ℚ) (s : Size Float32) : Prop where
  width : LayeredDrawing.Within b s.width
  height : LayeredDrawing.Within b s.height

/-- A box with bounded sides. -/
structure Box.Within (b : ℚ) (c : Box Float32) : Prop where
  minX : LayeredDrawing.Within b c.minX
  minY : LayeredDrawing.Within b c.minY
  maxX : LayeredDrawing.Within b c.maxX
  maxY : LayeredDrawing.Within b c.maxY

section Boxes

variable {m j : ℕ}

/-- The box of a small node is not further out than its center can be. -/
theorem Box.within_ofCenter (hm : m ≤ 127) (hj : j + 24 ≤ m) {c : Point Float32}
    {s : Size Float32} (hc : c.Within (2 ^ m)) (hs : s.Within (2 ^ j)) :
    (Box.ofCenter c s).Within (2 ^ m) := by
  have hw : LayeredDrawing.Within (2 ^ j) (Scalar.half s.width) :=
    Within.half (by omega) (hs.width.two_pow_mono (Nat.le_succ j))
  have hh : LayeredDrawing.Within (2 ^ j) (Scalar.half s.height) :=
    Within.half (by omega) (hs.height.two_pow_mono (Nat.le_succ j))
  exact ⟨hc.x.sub_small hm hj hw, hc.y.sub_small hm hj hh, hc.x.add_small hm hj hw,
    hc.y.add_small hm hj hh⟩

theorem Box.Within.merge {b : ℚ} {c d : Box Float32} (hc : c.Within b) (hd : d.Within b) :
    (c.merge d).Within b :=
  ⟨hc.minX.smaller hd.minX, hc.minY.smaller hd.minY, hc.maxX.larger hd.maxX,
    hc.maxY.larger hd.maxY⟩

theorem Box.within_enclosing? {b : ℚ} {cs : List (Box Float32)} (h : ∀ c ∈ cs, c.Within b)
    {c : Box Float32} (hc : enclosing? cs = some c) : c.Within b := by
  cases cs with
  | nil => cases hc
  | cons d cs =>
    obtain ⟨hd, h⟩ := List.forall_mem_cons.1 h
    obtain rfl := Option.some.inj hc
    exact List.foldlRecOn cs _ hd fun _ hx y hy => hx.merge (h y hy)

end Boxes

/-! ## Solutions -/

section Solutions

variable {o : Options Float32} {g : SizedGraph Float32} {ranks : Array ℕ} {k n : ℕ}

theorem Direction.within_extents {b : ℚ} (d : Direction) {s : Size Float32} (hs : s.Within b) :
    (d.extents s).Within b := by
  rw [Direction.extents]
  split
  · exact hs
  · exact ⟨hs.height, hs.width⟩

theorem length_le_of_mem_drawnLayers (hs : ranks.size = g.nodes.length) {layer : List ℕ}
    (hl : layer ∈ drawnLayers o g ranks) : layer.length ≤ g.nodes.length := by
  obtain ⟨r, hr⟩ := List.mem_iff_getElem?.1 hl
  rw [((isOrdering_drawnLayers hs).perm_layer hr).length_eq]
  exact (List.length_filter_le _ _).trans_eq List.length_range

variable (hn : 24 ≤ n) (hkn : k + n ≤ 102) (hlen : g.nodes.length ≤ 2 ^ n)
  (ho : ∀ d, Within (2 ^ k) (o.distance d)) (hsizes : ∀ v ∈ g.nodes, v.size.Within (2 ^ k))
  (hs : ranks.size = g.nodes.length)

include hsizes in
theorem within_extent (v : ℕ) : Within (2 ^ k) (Coordinates.widthOf (frameExtents o g) v) ∧
    Within (2 ^ k) (Coordinates.heightOf (frameExtents o g) v) := by
  have hz : Within (2 ^ k) (Scalar.zero : Float32) := within_zero (pow_pos two_pos k).le
  have hextents : ∀ s ∈ frameExtents o g, s.Within (2 ^ k) := by
    intro s h
    obtain ⟨m, hm, rfl⟩ := List.mem_map.1 (List.mem_toArray.1 h)
    exact o.direction.within_extents (hsizes m hm)
  exact ⟨Coordinates.forall_widthOf hz (fun s h => (hextents s h).width) v,
    Coordinates.forall_heightOf hz (fun s h => (hextents s h).height) v⟩

include ho in
theorem within_spacing : Coordinates.SpacingWithin (2 ^ k) o.spacing := by
  refine ⟨ho .nodeSep, ho .rankSep, ?_, ?_⟩
  · rw [Options.spacing]
    split
    · exact ho .marginX
    · exact ho .marginY
  · rw [Options.spacing]
    split
    · exact ho .marginY
    · exact ho .marginX

include hn hkn hlen ho hsizes hs

theorem within_placementOf (m : SizedNode Float32) (v : ℕ) :
    (placementOf o g ranks m v).center.Within (2 ^ (k + n + 2)) := by
  have hspacing := within_spacing ho
  have hw := fun v => (within_extent (o := o) hsizes v).1
  have hh := fun v => (within_extent (o := o) hsizes v).2
  have hlayer : ∀ layer ∈ drawnLayers o g ranks, layer.length ≤ 2 ^ n :=
    fun layer hl => (length_le_of_mem_drawnLayers hs hl).trans hlen
  obtain ⟨hx, hy⟩ :=
    Coordinates.within_centers_assign hn hkn hspacing hw hh hlayer g.graph.acyclic v
  have hspan : Within (2 ^ (k + n + 1)) (drawnFrame o g ranks).rankSpan :=
    (Coordinates.within_stack hn hkn hspacing hh g.graph.acyclic).2
  have hmargin : Within (2 ^ (1 + k)) (Scalar.ofNat 2 * o.spacing.rankMargin) :=
    Within.mul (by omega) (within_ofNat (by omega) (by norm_num)) hspacing.rankMargin
  have hturn : Within (2 ^ (k + n + 1)) (drawnTurn o g ranks) :=
    hmargin.small_add (by omega) (by omega) hspan
  have hturned := hturn.sub (by omega) hy
  have hy' := hy.two_pow_mono (Nat.le_succ _)
  rw [placementOf]
  cases o.direction with
  | topToBottom => exact ⟨hx, hy'⟩
  | bottomToTop => exact ⟨hx, hturned⟩
  | leftToRight => exact ⟨hy', hx⟩
  | rightToLeft => exact ⟨hturned, hx⟩

/-- **Every placement of a solution is bounded**, with its box. -/
theorem within_solveRanked : ∀ e ∈ (solveRanked o g ranks).placements,
    e.2.center.Within (2 ^ (k + n + 2)) ∧ e.2.box.Within (2 ^ (k + n + 2)) := by
  intro e he
  obtain ⟨v, m, hm, rfl⟩ := exists_node_of_mem_placements he
  have hcenter := within_placementOf hn hkn hlen ho hsizes hs m v
  exact ⟨hcenter, Box.within_ofCenter (by omega) (by omega) hcenter
    (hsizes m (List.mem_of_getElem? hm))⟩

end Solutions

/-! ## Layouts -/

section Layouts

variable {δ : Type} {o : Options Float32} {nodes : List (Node Float32 δ)} {edges : List Edge}
  {sizes : Option (SizeMap Float32)} {l : Layout δ}

/-- A node that has been placed is at the top-left corner of its box. -/
theorem exists_placement_of_placeNodes {s : Solution Float32} {placed : List (Node Float32 δ)}
    (h : placeNodes s nodes = .ok placed) :
    ∀ m ∈ placed, ∃ e ∈ s.placements, m.position = e.2.topLeft := by
  induction nodes generalizing placed with
  | nil =>
    obtain rfl : [] = placed := by simpa [placeNodes] using h
    simp
  | cons node rest ih =>
    rw [placeNodes] at h
    split at h
    · cases h
    rename_i p hp
    split at h
    · cases h
    rename_i placed' hrest
    obtain rfl := Except.ok.inj h
    have hmem : (node.id, p) ∈ s.placements := by
      obtain ⟨before, after, hsplit, -⟩ := List.lookup_eq_some_iff.1 hp
      simp [hsplit]
    exact List.forall_mem_cons.2 ⟨⟨_, hmem, rfl⟩, ih hrest⟩

variable {k n : ℕ} (hn : 24 ≤ n) (hkn : k + n ≤ 102)

include hn hkn

/-- The solution of a graph with bounded sizes is bounded. -/
theorem within_solve {g : SizedGraph Float32} {s : Solution Float32}
    (hlen : g.nodes.length ≤ 2 ^ n) (ho : ∀ d, Within (2 ^ k) (o.distance d))
    (hsizes : ∀ v ∈ g.nodes, v.size.Within (2 ^ k)) (h : solve o g = .ok s) :
    ∀ e ∈ s.placements,
      e.2.center.Within (2 ^ (k + n + 2)) ∧ e.2.box.Within (2 ^ (k + n + 2)) := by
  by_cases hne : g.nodes = []
  · rw [solve, if_pos (by simpa using hne)] at h
    obtain rfl := Except.ok.inj h
    simp
  · obtain ⟨ranks, hl, e⟩ := exists_solve_eq_solveRanked o hne
    obtain rfl := Except.ok.inj (e.symm.trans h)
    exact within_solveRanked hn hkn hlen ho hsizes (hl.size.trans g.size_graph)

/-- **A layout of moderate size does not overflow.** If the distances of the options and the
resolved sizes of the nodes are at most `2 ^ k` and there are at most `2 ^ n` nodes, the positions
of the nodes, the centers of their placements and the bounds of the solution are finite. -/
theorem Layout.within_compute (hlen : nodes.length ≤ 2 ^ n)
    (ho : ∀ d, |value (o.distance d)| ≤ 2 ^ k)
    (hsizes : ∀ m ∈ nodes, |value (SizedGraph.resolveSize sizes o.defaultSize m).width| ≤ 2 ^ k ∧
      |value (SizedGraph.resolveSize sizes o.defaultSize m).height| ≤ 2 ^ k)
    (h : compute o nodes edges sizes = .ok l) :
    (∀ m ∈ l.nodes, m.position.Within (2 ^ (k + n + 2))) ∧
      (∀ e ∈ l.solution.placements, e.2.center.Within (2 ^ (k + n + 2))) ∧
      ∀ b, l.solution.bounds? = some b → b.Within (2 ^ (k + n + 2)) := by
  obtain ⟨hcheck, g, hg, hsolve, hplaced, -⟩ := stages_of_compute h
  have hnodes := SizedGraph.nodes_of_build hg
  have hdistance : ∀ d, Within (2 ^ k) (o.distance d) := by
    intro d
    have hfinite := Options.isUsable_distance hcheck d
    rw [Options.isUsable, Bool.and_eq_true] at hfinite
    exact ⟨hfinite.1, ho d⟩
  have hsize : ∀ v ∈ g.nodes, v.size.Within (2 ^ k) := by
    intro v hv
    have hm := SizedGraph.isMeasurable_of_build (Options.isMeasurable_defaultSize hcheck) hg v hv
    simp only [Size.isMeasurable, Bool.and_eq_true] at hm
    rw [hnodes] at hv
    obtain ⟨m, hmem, rfl⟩ := List.mem_map.1 hv
    exact ⟨⟨hm.1.1.1, (hsizes m hmem).1⟩, ⟨hm.1.1.2, (hsizes m hmem).2⟩⟩
  have hbound := within_solve hn hkn (by simpa [hnodes] using hlen) hdistance hsize hsolve
  refine ⟨fun m hm => ?_, fun e he => (hbound e he).1, fun b hb => ?_⟩
  · obtain ⟨e, he, hpos⟩ := exists_placement_of_placeNodes hplaced m hm
    have hbox := (hbound e he).2
    rw [hpos]
    exact ⟨hbox.minX, hbox.minY⟩
  · refine Box.within_enclosing? (fun c hc => ?_) hb
    obtain ⟨e, he, rfl⟩ := List.mem_map.1 hc
    exact (hbound e he).2

end Layouts

/-- A cycle drawn from right to left, with a node that has no size of its own. -/
theorem Layout.within_compute_cycle :
    let o : Options Float32 := { Options.default with direction := .rightToLeft }
    let nodes : List (Node Float32 Unit) := [
      ⟨"a", (), ⟨0, 0⟩, some ⟨10, 20⟩⟩, ⟨"b", (), ⟨0, 0⟩, none⟩]
    let edges : List Edge := [⟨"e", "a", "b"⟩, ⟨"f", "b", "a"⟩, ⟨"g", "b", "b"⟩]
    ∃ l, compute o nodes edges none = .ok l ∧
      (∀ m ∈ l.nodes, m.position.Within (2 ^ 36)) ∧
      (∀ e ∈ l.solution.placements, e.2.center.Within (2 ^ 36)) ∧
      ∀ b, l.solution.bounds? = some b → b.Within (2 ^ 36) := by
  intro o nodes edges
  obtain ⟨l, hl⟩ : ∃ l, compute o nodes edges none = .ok l :=
    exists_compute_iff.2 ⟨by decide +kernel, by decide, by decide⟩
  have hvalue : ∀ n ≤ 280, |value (Float32.ofNat n)| ≤ 2 ^ 10 := by
    intro n hn
    rw [(value_ofNat (hn.trans (by norm_num))).2, Nat.abs_cast]
    exact_mod_cast hn.trans (by norm_num)
  have ho : ∀ d, |value (o.distance d)| ≤ 2 ^ 10 := by
    intro d
    cases d with
    | nodeSep => exact hvalue 40 (by norm_num)
    | rankSep => exact hvalue 80 (by norm_num)
    | marginX => exact hvalue 40 (by norm_num)
    | marginY => exact hvalue 40 (by norm_num)
  have hsizes : ∀ m ∈ nodes,
      |value (SizedGraph.resolveSize none o.defaultSize m).width| ≤ 2 ^ 10 ∧
        |value (SizedGraph.resolveSize none o.defaultSize m).height| ≤ 2 ^ 10 := by
    have ha : SizedGraph.resolveSize none o.defaultSize
        (⟨"a", (), ⟨0, 0⟩, some ⟨10, 20⟩⟩ : Node Float32 Unit) = ⟨10, 20⟩ := by decide +kernel
    refine List.forall_mem_cons.2 ⟨?_, List.forall_mem_cons.2 ⟨?_, by simp⟩⟩
    · rw [ha]
      exact ⟨hvalue 10 (by norm_num), hvalue 20 (by norm_num)⟩
    · exact ⟨hvalue 280 (by norm_num), hvalue 56 (by norm_num)⟩
  exact ⟨l, hl, within_compute (k := 10) (n := 24) le_rfl (by norm_num) (by simp [nodes]) ho
    hsizes hl⟩

/-- One node and one margin, each of them in the range of the format, are placed beyond it. -/
theorem Layout.compute_overflow :
    let o : Options Float32 := { Options.default with marginX := 3e38 }
    let nodes : List (Node Float32 Unit) := [⟨"a", (), ⟨0, 0⟩, some ⟨3e38, 1⟩⟩]
    o.check = .ok () ∧ ∃ l, compute o nodes [] none = .ok l ∧
      (∃ m ∈ l.nodes, m.position.x.isFinite = false) ∧
      (∃ e ∈ l.solution.placements, e.2.center.x.isFinite = false) ∧
      ∃ b, l.solution.bounds? = some b ∧ b.maxX.isFinite = false := by
  intro o nodes
  have ho : o.check = .ok () := by decide +kernel
  obtain ⟨l, hl⟩ : ∃ l, compute o nodes [] none = .ok l :=
    exists_compute_iff.2 ⟨ho, by decide, by simp⟩
  have hrun : (match compute o nodes [] none with
      | .ok l => l.nodes.any (fun m => !m.position.x.isFinite) &&
          l.solution.placements.any (fun e => !e.2.center.x.isFinite) &&
          l.solution.bounds?.any (fun b => !b.maxX.isFinite)
      | .error _ => false) = true := by decide +kernel
  simp only [hl, Bool.and_eq_true, List.any_eq_true, Option.any_eq_true, Bool.not_eq_true'] at hrun
  exact ⟨ho, l, hl, hrun.1.1, hrun.1.2, hrun.2⟩

end LayeredDrawing
