import LayeredDrawing.Proofs.Solution

/-!
# Directions are alike

Ranks, orders and crossings come from the arcs alone: no size, no distance and no direction has a
part in them (`outline_solve`). The direction of a drawing decides which extent of a node lies
along a rank, which margin belongs to which axis, whether the rank axis is turned round, and
whether the axes are exchanged at the end. Exchanging the axes of the options and of the sizes
leaves the frame of the ranks as it is, to the last bit of its rounded numbers, so that only the
last of these steps differs (`solve_transpose`).
-/

namespace LayeredDrawing

variable {α : Type}

/-! ## Exchanging the axes -/

/-- The direction with the axes exchanged. -/
def Direction.transpose : Direction → Direction
  | topToBottom => leftToRight
  | bottomToTop => rightToLeft
  | leftToRight => topToBottom
  | rightToLeft => bottomToTop

/-- The options of the drawing with its axes exchanged. -/
def Options.transpose (o : Options α) : Options α :=
  { o with direction := o.direction.transpose, marginX := o.marginY, marginY := o.marginX }

/-- The placement with the axes exchanged. -/
def Placement.transpose (p : Placement α) : Placement α :=
  { p with center := p.center.transpose, size := p.size.transpose }

/-- The solution with the axes exchanged. -/
def Solution.transpose (s : Solution α) : Solution α :=
  { s with placements := s.placements.map fun e => (e.1, e.2.transpose) }

/-- What a solution says apart from centers and sizes: the rank and the order of each node, and
the number of crossings. -/
def Solution.outline (s : Solution α) : List (String × Nat × Nat) × Nat :=
  (s.placements.map fun e => (e.1, e.2.rank, e.2.order), s.crossings)

namespace SizedGraph

/-- The same graph with other sizes, given by the numbers of the nodes. -/
def resize (g : SizedGraph α) (size : Nat → Size α) : SizedGraph α where
  nodes := g.nodes.mapIdx fun v n => ⟨n.id, size v⟩
  graph := g.graph
  size_graph := by simpa using g.size_graph

/-- The graph with the axes of all sizes exchanged. -/
def transpose (g : SizedGraph α) : SizedGraph α where
  nodes := g.nodes.map fun n => ⟨n.id, n.size.transpose⟩
  graph := g.graph
  size_graph := by simpa using g.size_graph

theorem ids_resize (g : SizedGraph α) (size : Nat → Size α) :
    (g.resize size).nodes.map (·.id) = g.nodes.map (·.id) := by
  refine List.ext_getElem? fun v => ?_
  simp [resize, Function.comp_def]

end SizedGraph

namespace Direction

variable (d : Direction)

@[simp] theorem isVertical_transpose : d.transpose.isVertical = !d.isVertical := by
  cases d <;> rfl

@[simp] theorem isReversed_transpose : d.transpose.isReversed = d.isReversed := by
  cases d <;> rfl

/-- The extents in the frame of the ranks are those of the same box. -/
@[simp] theorem extents_transpose (s : Size α) :
    d.transpose.extents s.transpose = d.extents s := by
  cases d <;> rfl

/-- Only the exchange of the axes at the end differs. -/
@[simp] theorem place_transpose [Scalar α] (turn : α) (p : Point α) :
    d.transpose.place turn p = (d.place turn p).transpose := by
  cases d <;> rfl

end Direction

@[simp] theorem Options.spacing_transpose (o : Options α) : o.transpose.spacing = o.spacing := by
  cases h : o.direction <;> simp [spacing, transpose, h, Direction.transpose, Direction.isVertical]

variable [Scalar α]

/-! ## What does not depend on sizes and distances -/

theorem outline_solveRanked (o : Options α) (g : SizedGraph α) (ranks : Array Nat) :
    (solveRanked o g ranks).outline =
      let best := (Layering.ofRanks ranks g.graph.acyclic).minimizeCrossings o.orderingPasses α
      ((g.nodes.map (·.id)).zipIdx.map fun p => (p.1, ranks.getD p.2 0,
        (best.layers.positions (g.nodes.map (·.id)).length).getD p.2 0), best.crossings) := by
  simp [Solution.outline, solveRanked, List.zipIdx_map, Function.comp_def]

/-- Solutions of one graph agree in ranks, orders and crossings. -/
theorem outline_solve {o o' : Options α} {g g' : SizedGraph α} {s s' : Solution α}
    (e : solve o g = .ok s) (e' : solve o' g' = .ok s')
    (hp : o'.orderingPasses = o.orderingPasses) (hg : g'.graph = g.graph)
    (hids : g'.nodes.map (·.id) = g.nodes.map (·.id)) : s'.outline = s.outline := by
  obtain ⟨ranks, hr, -⟩ := g.graph.exists_leastRanks_acyclic
  have hnil : g'.nodes = [] ↔ g.nodes = [] := by
    rw [← List.map_eq_nil_iff (f := (·.id)), hids, List.map_eq_nil_iff]
  rw [solve_of_ranks o hr] at e
  rw [solve_of_ranks o' (hg ▸ hr)] at e'
  rw [← Except.ok.inj e, ← Except.ok.inj e', if_congr hnil rfl rfl]
  split
  · rfl
  · rw [outline_solveRanked, outline_solveRanked, hp, hg, hids]

/-! ## Drawings with their axes exchanged -/

theorem drawnFrame_transpose (o : Options α) (g : SizedGraph α) (ranks : Array Nat) :
    drawnFrame o.transpose g.transpose ranks = drawnFrame o g ranks := by
  have hextents : frameExtents o.transpose g.transpose = frameExtents o g := by
    simp [frameExtents, SizedGraph.transpose, Options.transpose, Function.comp_def]
  rw [drawnFrame, drawnFrame, hextents, Options.spacing_transpose]
  rfl

theorem placementOf_transpose (o : Options α) (g : SizedGraph α) (ranks : Array Nat)
    (n : SizedNode α) (v : Nat) :
    placementOf o.transpose g.transpose ranks ⟨n.id, n.size.transpose⟩ v =
      (placementOf o g ranks n v).transpose := by
  have hlayers : drawnLayers o.transpose g.transpose ranks = drawnLayers o g ranks := rfl
  have hlength : g.transpose.nodes.length = g.nodes.length := List.length_map _
  have hdirection : o.transpose.direction = o.direction.transpose := rfl
  simp only [placementOf, drawnTurn, drawnFrame_transpose, Options.spacing_transpose, hlayers,
    hlength, hdirection, Direction.place_transpose, Placement.transpose]

theorem solveRanked_transpose (o : Options α) (g : SizedGraph α) (ranks : Array Nat) :
    solveRanked o.transpose g.transpose ranks = (solveRanked o g ranks).transpose := by
  have hplacements : (solveRanked o.transpose g.transpose ranks).placements =
      (solveRanked o g ranks).placements.map fun e => (e.1, e.2.transpose) := by
    rw [placements_solveRanked, placements_solveRanked, List.map_map]
    simp only [SizedGraph.transpose, List.zipIdx_map, List.map_map]
    exact List.map_congr_left fun p _ =>
      congrArg (Prod.mk p.1.id) (placementOf_transpose o g ranks p.1 p.2)
  exact congrArg₂ Solution.mk hplacements rfl

theorem solve_transpose (o : Options α) (g : SizedGraph α) :
    solve o.transpose g.transpose = (solve o g).map Solution.transpose := by
  obtain ⟨ranks, hr, -⟩ := g.graph.exists_leastRanks_acyclic
  have hr' : g.transpose.graph.acyclic.ranks = .ok ranks := hr
  have hnil : g.transpose.nodes = [] ↔ g.nodes = [] := List.map_eq_nil_iff
  rw [solve_of_ranks o hr, solve_of_ranks o.transpose hr', if_congr hnil rfl rfl,
    solveRanked_transpose]
  split <;> rfl

/-- **The directions of a drawing are alike**, over rounded numbers as over exact ones. A graph is
solved with the same ranks, orders and crossings in every direction, with any sizes, distances and
number of alignment rounds. Turning the flow from top to bottom into left to right, or from bottom
to top into right to left, or back, and exchanging the margins and the extents of all nodes gives
the very solution with its axes exchanged. -/
theorem solve_symmetric (o : Options α) (g : SizedGraph α) :
    ∃ s, solve o g = .ok s ∧ solve o.transpose g.transpose = .ok s.transpose ∧
      ∀ (direction : Direction) (nodeSep rankSep marginX marginY : α) (defaultSize : Size α)
        (alignmentPasses : Nat) (size : Nat → Size α),
        ∃ s', solve ⟨direction, nodeSep, rankSep, marginX, marginY, defaultSize,
            o.orderingPasses, alignmentPasses⟩ (g.resize size) = .ok s' ∧
          s'.outline = s.outline := by
  obtain ⟨s, e⟩ := exists_solve o g
  refine ⟨s, e, by rw [solve_transpose, e]; rfl, ?_⟩
  intro direction nodeSep rankSep marginX marginY defaultSize alignmentPasses size
  obtain ⟨s', e'⟩ := exists_solve ⟨direction, nodeSep, rankSep, marginX, marginY, defaultSize,
    o.orderingPasses, alignmentPasses⟩ (g.resize size)
  exact ⟨s', e', outline_solve e e' rfl rfl (g.ids_resize size)⟩

end LayeredDrawing
