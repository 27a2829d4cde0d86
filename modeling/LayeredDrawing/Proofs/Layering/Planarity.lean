import LayeredDrawing.Proofs.Layering.Segments
import LayeredDrawing.Proofs.Layering.Steps
import Mathlib.Algebra.BigOperators.Group.List.Basic
import Mathlib.Algebra.Order.BigOperators.Group.List
import Mathlib.Algebra.BigOperators.Ring.List
import Mathlib.Algebra.Order.Field.Rat
import Mathlib.Data.List.Pairwise

/-!
# Steps without crossings

Between a layer and a fixed one next to it nothing crosses if and only if, of two vertices of the
layer, all neighbours of the first one come before those of the second or are the same
(`crossingsBelow_set_eq_zero_iff`). If some order of the layer is like that, so is every order by
the mean positions of the neighbours: of two vertices that stand the other way round, the means can
only be equal, and then all these neighbours are one (`le_of_mul_length_le`). Vertices without
neighbours stand anywhere.

* `crossingsBelow_reorder`: **a step of a sweep leaves no crossing that it can avoid**, as long as
  the rounded means compare like the means.
-/

namespace LayeredDrawing

/-! ## Strands that do not cross -/

namespace Strand

variable {s t : Strand}

theorem crosses_eq_true_iff :
    s.crosses t = true ↔ (s.1 < t.1 ∧ t.2 < s.2) ∨ (t.1 < s.1 ∧ s.2 < t.2) := by
  simp [crosses]

theorem countCrossings_eq_zero_iff {strands : List Strand} :
    countCrossings strands = 0 ↔ ∀ s ∈ strands, ∀ t ∈ strands, s.1 < t.1 → s.2 ≤ t.2 := by
  induction strands with
  | nil => simp [countCrossings]
  | cons s rest ih =>
    rw [countCrossings, Nat.add_eq_zero_iff, List.countP_eq_zero, ih]
    simp only [crosses_eq_true_iff, List.forall_mem_cons, not_or, not_and, Nat.not_lt,
      Nat.lt_irrefl, false_imp_iff, true_and]
    constructor
    · rintro ⟨hs, hrest⟩
      exact ⟨fun t ht => (hs t ht).1, fun t ht => ⟨(hs t ht).2, hrest t ht⟩⟩
    · rintro ⟨hs, hrest⟩
      exact ⟨fun t ht => ⟨hs t ht, (hrest t ht).1⟩, fun t ht => (hrest t ht).2⟩

end Strand

/-! ## Means of ordered lists -/

/-- If the members of the second list are not above those of the first, and its mean is not below,
then all members are one. -/
theorem le_of_mul_length_le {xs ys : List Nat}
    (hmean : xs.sum * ys.length ≤ ys.sum * xs.length)
    (hle : ∀ y ∈ ys, ∀ x ∈ xs, y ≤ x) : ∀ x ∈ xs, ∀ y ∈ ys, x ≤ y := by
  intro x hx y hy
  by_contra hlt
  -- Each member of `xs` is at least the mean of `ys`, and `x` is above it.
  have hsum : ∀ x' ∈ xs, ys.sum ≤ ys.length * x' := fun x' hx' => by
    simpa using List.sum_le_card_nsmul ys x' fun y' hy' => hle y' hy' x' hx'
  have hstrict : ys.sum < ys.length * x := by
    have := List.sum_lt_sum (l := ys) id (fun _ => x) (fun y' hy' => hle y' hy' x hx)
      ⟨y, hy, Nat.lt_of_not_le hlt⟩
    simpa using this
  have hall := List.sum_lt_sum (l := xs) (fun _ => ys.sum) (ys.length * ·) hsum ⟨x, hx, hstrict⟩
  rw [List.map_const', List.sum_replicate, List.sum_map_mul_left, List.map_id', nsmul_eq_mul,
    Nat.cast_id, Nat.mul_comm xs.length, Nat.mul_comm ys.length] at hall
  exact absurd hmean (Nat.not_le.2 hall)

namespace Layering

/-- Exact sort keys of vertices with neighbours compare like the means do. -/
theorem totalLE_barycenter_iff {xs ys : List Nat} (hx : xs ≠ []) (hy : ys ≠ []) (i j : Nat) :
    Scalar.totalLE (barycenter ℚ i xs) (barycenter ℚ j ys) = true ↔
      xs.sum * ys.length ≤ ys.sum * xs.length := by
  have hmean : ∀ {zs : List Nat}, zs ≠ [] → ∀ k, barycenter ℚ k zs = (zs.sum : ℚ) / zs.length := by
    intro zs hz k
    rw [barycenter, if_neg (by simpa using hz)]
    rfl
  have hpos : ∀ {zs : List Nat}, zs ≠ [] → (0 : ℚ) < zs.length := fun hz =>
    Nat.cast_pos.2 (List.length_pos_iff.2 hz)
  rw [hmean hx, hmean hy]
  simp only [Scalar.totalLE, decide_eq_true_eq]
  rw [div_le_div_iff₀ (hpos hx) (hpos hy)]
  exact_mod_cast Iff.rfl

/-! ## Crossings between two layers -/

/-- The number of crossings between the layers of a rank and of the next one. -/
def crossingsBelow (l : Layering) (layers : Layers) (r : Nat) : Nat :=
  Strand.countCrossings
    (strands l.segments.successorTable.at (layers.positions l.vertexCount) (layers.getD r []))

/-- The crossings of an ordering are those between any two layers next to each other. -/
theorem crossings_eq_sum (l : Layering) (layers : Layers) :
    l.crossings layers = ((List.range (layers.length - 1)).map (l.crossingsBelow layers)).sum := by
  rw [crossings, crossingsAlong]
  refine congrArg List.sum (List.ext_getElem (by simp) fun r hr hr' => ?_)
  simp only [List.length_map, List.length_dropLast] at hr
  have hlt : r < layers.length := by omega
  simp [crossingsBelow, hlt]

variable {l : Layering} {layers : Layers} {downward : Bool} {r : Nat} {a : Arc}

/-- The position of a vertex in an ordering. -/
def position (l : Layering) (layers : Layers) (v : Nat) : Nat :=
  (layers.positions l.vertexCount).getD v 0

theorem crossingsBelow_eq_zero_iff :
    l.crossingsBelow layers r = 0 ↔
      ∀ a ∈ l.segments.arcs, ∀ b ∈ l.segments.arcs, a.source ∈ layers.getD r [] →
        b.source ∈ layers.getD r [] → l.position layers a.source < l.position layers b.source →
          l.position layers a.target ≤ l.position layers b.target := by
  have hmem : ∀ s, s ∈ strands l.segments.successorTable.at (layers.positions l.vertexCount)
      (layers.getD r []) ↔ ∃ a ∈ l.segments.arcs, a.source ∈ layers.getD r [] ∧
        (l.position layers a.source, l.position layers a.target) = s := by
    intro s
    simp only [strands, List.mem_flatMap, List.mem_map, Digraph.at_successorTable,
      Digraph.mem_successors]
    constructor
    · rintro ⟨u, hu, w, ha, rfl⟩
      exact ⟨⟨u, w⟩, ha, hu, rfl⟩
    · rintro ⟨⟨u, w⟩, ha, hu, rfl⟩
      exact ⟨u, hu, w, ha, rfl⟩
  rw [crossingsBelow, Strand.countCrossings_eq_zero_iff]
  constructor
  · intro h a ha b hb hau hbu
    exact h _ ((hmem _).2 ⟨a, ha, hau, rfl⟩) _ ((hmem _).2 ⟨b, hb, hbu, rfl⟩)
  · intro h s hs t ht
    obtain ⟨a, ha, hau, rfl⟩ := (hmem s).1 hs
    obtain ⟨b, hb, hbu, rfl⟩ := (hmem t).1 ht
    exact h a ha b hb hau hbu

/-! ## The ends of segments in a step -/

/-- The rank that a step sorts of the given one and the next. -/
def sortedRank (downward : Bool) (r : Nat) : Nat := if downward then r + 1 else r

theorem sortedRank_lt (downward : Bool) {r n : Nat} (h : r + 1 < n) :
    sortedRank downward r < n := by
  unfold sortedRank
  split <;> omega

/-- The end of a segment in the layer that a step sorts. -/
def sortedEnd (downward : Bool) (a : Arc) : Nat := if downward then a.target else a.source

/-- The end of a segment in the layer that a step sorts by. -/
def fixedEnd (downward : Bool) (a : Arc) : Nat := if downward then a.source else a.target

theorem mem_sweepNeighbours {v w : Nat} : w ∈ l.sweepNeighbours downward v ↔
    ∃ a ∈ l.segments.arcs, sortedEnd downward a = v ∧ fixedEnd downward a = w := by
  cases downward with
  | true =>
    rw [show l.sweepNeighbours true v = l.segments.predecessorTable.at v from rfl,
      Digraph.at_predecessorTable, Digraph.mem_predecessors]
    constructor
    · exact fun h => ⟨_, h, rfl, rfl⟩
    · rintro ⟨a, ha, rfl, rfl⟩
      exact ha
  | false =>
    rw [show l.sweepNeighbours false v = l.segments.successorTable.at v from rfl,
      Digraph.at_successorTable, Digraph.mem_successors]
    constructor
    · exact fun h => ⟨_, h, rfl, rfl⟩
    · rintro ⟨a, ha, rfl, rfl⟩
      exact ha

theorem sortedEnd_lt (ha : a ∈ l.segments.arcs) : sortedEnd downward a < l.vertexCount := by
  obtain ⟨hs, ht⟩ := l.segments.inRange a ha
  cases downward with
  | true => exact ht
  | false => exact hs

theorem fixedEnd_lt (ha : a ∈ l.segments.arcs) : fixedEnd downward a < l.vertexCount := by
  obtain ⟨hs, ht⟩ := l.segments.inRange a ha
  cases downward with
  | true => exact hs
  | false => exact ht

theorem rankOf_sortedEnd_iff (hp : l.IsProper) (ha : a ∈ l.segments.arcs) :
    l.rankOf (sortedEnd downward a) = sortedRank downward r ↔ l.rankOf a.source = r := by
  cases downward with
  | true => simp [sortedEnd, sortedRank, hp a ha]
  | false => simp [sortedEnd, sortedRank]

theorem rankOf_fixedEnd_ne (hp : l.IsProper) (ha : a ∈ l.segments.arcs) :
    l.rankOf (fixedEnd downward a) ≠ l.rankOf (sortedEnd downward a) := by
  cases downward with
  | true => simp [sortedEnd, fixedEnd, hp a ha]
  | false => simp [sortedEnd, fixedEnd, hp a ha]

theorem getD_mem (hr : r < layers.length) : layers.getD r [] ∈ layers := by
  rw [List.getD_eq_getElem?_getD, List.getElem?_eq_getElem hr]
  exact List.getElem_mem hr

namespace IsFullOrdering

variable (h : l.IsFullOrdering layers)

include h

theorem exists_layer {v : Nat} (hv : v < l.vertexCount) :
    ∃ layer, layers[l.rankOf v]? = some layer ∧ v ∈ layer := by
  obtain ⟨layer, hl, hm⟩ := List.mem_flatten.1 (h.listed.mem_iff.2 (List.mem_range.2 hv))
  obtain ⟨r, hr⟩ := List.mem_iff_getElem?.1 hl
  exact ⟨layer, h.rank_eq r layer hr v hm ▸ hr, hm⟩

theorem mem_getD_iff (hr : r < layers.length) {v : Nat} :
    v ∈ layers.getD r [] ↔ v < l.vertexCount ∧ l.rankOf v = r := by
  constructor
  · intro hv
    obtain ⟨i, hi⟩ := List.mem_iff_getElem?.1 hv
    exact ⟨Layers.lt_of_getElem? h.listed (getD_mem hr) hi,
      h.rank_eq r _ (by simp [hr]) v hv⟩
  · rintro ⟨hv, rfl⟩
    obtain ⟨layer, hl, hm⟩ := h.exists_layer hv
    rw [List.getD_eq_getElem?_getD, hl]
    exact hm

theorem position_eq {i v : Nat} (hi : (layers.getD r [])[i]? = some v) :
    l.position layers v = i := by
  have hr : r < layers.length := by
    by_contra hge
    simp [List.getElem?_eq_none (Nat.not_lt.1 hge)] at hi
  exact Layers.getD_positions_of_perm h.listed (getD_mem hr) hi

/-- The position of a vertex depends on the layer of its rank only. -/
theorem position_congr {layers' : Layers} (h' : l.IsFullOrdering layers') {v : Nat}
    (hv : v < l.vertexCount)
    (e : layers'.getD (l.rankOf v) [] = layers.getD (l.rankOf v) []) :
    l.position layers' v = l.position layers v := by
  obtain ⟨layer, hl, hm⟩ := h.exists_layer hv
  obtain ⟨i, hi⟩ := List.mem_iff_getElem?.1 hm
  have hi : (layers.getD (l.rankOf v) [])[i]? = some v := by
    rwa [List.getD_eq_getElem?_getD, hl]
  rw [h.position_eq hi, h'.position_eq (e ▸ hi)]

end IsFullOrdering

/-- Nothing crosses if the ends in the layer that is fixed are in the order of those in the layer
that is sorted. -/
theorem crossingsBelow_eq_zero_iff_sortedEnd (downward : Bool) (h : l.IsFullOrdering layers)
    (hr : r < layers.length) :
    l.crossingsBelow layers r = 0 ↔
      ∀ a ∈ l.segments.arcs, ∀ b ∈ l.segments.arcs, l.rankOf a.source = r →
        l.rankOf b.source = r →
          l.position layers (sortedEnd downward a) < l.position layers (sortedEnd downward b) →
            l.position layers (fixedEnd downward a) ≤ l.position layers (fixedEnd downward b) := by
  have hsource : ∀ a ∈ l.segments.arcs, a.source ∈ layers.getD r [] ↔ l.rankOf a.source = r := by
    intro a ha
    exact (h.mem_getD_iff hr).trans (and_iff_right (l.segments.inRange a ha).1)
  rw [crossingsBelow_eq_zero_iff]
  cases downward with
  | true =>
    -- The sorted ends are the lower ones, so each side is read from the other end.
    constructor
    · intro hz a ha b hb har hbr hlt
      have := mt (hz b hb a ha ((hsource b hb).2 hbr) ((hsource a ha).2 har)) (Nat.not_le.2 hlt)
      exact Nat.not_lt.1 this
    · intro hz a ha b hb har hbr hlt
      have := mt (hz b hb a ha ((hsource b hb).1 hbr) ((hsource a ha).1 har)) (Nat.not_le.2 hlt)
      exact Nat.not_lt.1 this
  | false =>
    constructor
    · intro hz a ha b hb har hbr
      exact hz a ha b hb ((hsource a ha).2 har) ((hsource b hb).2 hbr)
    · intro hz a ha b hb har hbr
      exact hz a ha b hb ((hsource a ha).1 har) ((hsource b hb).1 hbr)

/-! ## Orders of a layer -/

/-- The positions of the neighbours that a vertex is sorted by. -/
def neighbourPositions (l : Layering) (downward : Bool) (layers : Layers) (v : Nat) : List Nat :=
  (l.sweepNeighbours downward v).map (l.position layers)

/-- None of the neighbours of the first vertex comes after one of the second vertex. -/
def Precedes (l : Layering) (downward : Bool) (layers : Layers) (u v : Nat) : Prop :=
  ∀ p ∈ l.neighbourPositions downward layers u, ∀ q ∈ l.neighbourPositions downward layers v, p ≤ q

theorem precedes_iff {u v : Nat} : l.Precedes downward layers u v ↔
    ∀ a ∈ l.segments.arcs, ∀ b ∈ l.segments.arcs, sortedEnd downward a = u →
      sortedEnd downward b = v →
        l.position layers (fixedEnd downward a) ≤ l.position layers (fixedEnd downward b) := by
  simp only [Precedes, neighbourPositions, List.forall_mem_map, mem_sweepNeighbours]
  constructor
  · intro h a ha b hb hu hv
    exact h _ ⟨a, ha, hu, rfl⟩ _ ⟨b, hb, hv, rfl⟩
  · rintro h _ ⟨a, ha, hu, rfl⟩ _ ⟨b, hb, hv, rfl⟩
    exact h a ha b hb hu hv

/-- What holds of the vertices of a list in their order holds of those with ascending positions. -/
theorem pairwise_iff_of_position {order : List Nat} {pos : Nat → Nat}
    (hpos : ∀ i v, order[i]? = some v → pos v = i) {R : Nat → Nat → Prop} :
    order.Pairwise R ↔ ∀ u ∈ order, ∀ v ∈ order, pos u < pos v → R u v := by
  rw [List.pairwise_iff_getElem]
  constructor
  · intro h u hu v hv hlt
    obtain ⟨i, hi, rfl⟩ := List.getElem_of_mem hu
    obtain ⟨j, hj, rfl⟩ := List.getElem_of_mem hv
    rw [hpos i _ (List.getElem?_eq_getElem hi), hpos j _ (List.getElem?_eq_getElem hj)] at hlt
    exact h i j hi hj hlt
  · intro h i j hi hj hlt
    refine h _ (List.getElem_mem hi) _ (List.getElem_mem hj) ?_
    rwa [hpos i _ (List.getElem?_eq_getElem hi), hpos j _ (List.getElem?_eq_getElem hj)]

theorem rearranges_set {k : Nat} {order : List Nat} (ho : order.Perm (layers.getD k [])) :
    Layers.Rearranges (layers.set k order) layers := by
  refine List.forall₂_iff_get.2 ⟨List.length_set .., fun i hi hi' => ?_⟩
  simp only [List.get_eq_getElem, List.getElem_set]
  split
  · rename_i hik
    subst hik
    rwa [List.getD_eq_getElem?_getD, List.getElem?_eq_getElem hi'] at ho
  · exact .refl _

theorem getD_set_self {k : Nat} (hk : k < layers.length) (order : List Nat) :
    (layers.set k order).getD k [] = order := by
  simp [hk]

theorem getD_set_ne {i k : Nat} (hne : i ≠ k) (order : List Nat) :
    (layers.set k order).getD i [] = layers.getD i [] := by
  simp [hne.symm]

/-- **The orders of a layer without crossings**: all neighbours of a vertex come before those of the
vertices after it or are the same. -/
theorem crossingsBelow_set_eq_zero_iff (hp : l.IsProper) (h : l.IsFullOrdering layers)
    (hr : r + 1 < layers.length) {order : List Nat}
    (ho : order.Perm (layers.getD (sortedRank downward r) [])) :
    l.crossingsBelow (layers.set (sortedRank downward r) order) r = 0 ↔
      order.Pairwise (l.Precedes downward layers) := by
  have hk := sortedRank_lt downward hr
  have h' := h.rearrange (rearranges_set ho)
  have hindex : ∀ i v, order[i]? = some v →
      l.position (layers.set (sortedRank downward r) order) v = i :=
    fun i v hi => h'.position_eq ((getD_set_self hk order).symm ▸ hi)
  have hmem : ∀ a ∈ l.segments.arcs, sortedEnd downward a ∈ order ↔ l.rankOf a.source = r := by
    intro a ha
    rw [ho.mem_iff, h.mem_getD_iff hk, and_iff_right (sortedEnd_lt ha),
      rankOf_sortedEnd_iff hp ha]
  have hfixed : ∀ a ∈ l.segments.arcs, l.rankOf a.source = r →
      l.position (layers.set (sortedRank downward r) order) (fixedEnd downward a) =
        l.position layers (fixedEnd downward a) := by
    intro a ha har
    have hne : l.rankOf (fixedEnd downward a) ≠ sortedRank downward r :=
      (rankOf_sortedEnd_iff hp ha).2 har ▸ rankOf_fixedEnd_ne hp ha
    exact h.position_congr h' (fixedEnd_lt ha) (getD_set_ne hne order)
  have hlength : r < (layers.set (sortedRank downward r) order).length := by
    rw [List.length_set]
    omega
  rw [crossingsBelow_eq_zero_iff_sortedEnd downward h' hlength, pairwise_iff_of_position hindex]
  simp only [precedes_iff]
  constructor
  · rintro hz _ hu _ hv hlt a ha b hb rfl rfl
    have har := (hmem a ha).1 hu
    have hbr := (hmem b hb).1 hv
    have hle := hz a ha b hb har hbr hlt
    rwa [hfixed a ha har, hfixed b hb hbr] at hle
  · intro hw a ha b hb har hbr hlt
    rw [hfixed a ha har, hfixed b hb hbr]
    exact hw _ ((hmem a ha).2 har) _ ((hmem b hb).2 hbr) hlt a ha b hb rfl rfl

/-! ## Orders by means -/

/-- The key that a step sorts a vertex by, given with its index in the layer. -/
def sortKey (α : Type) [Scalar α] (l : Layering) (downward : Bool) (layers : Layers)
    (p : Nat × Nat) : α :=
  barycenter α p.2 (l.neighbourPositions downward layers p.1)

/-- The rounded keys of the vertices of a layer with neighbours compare like the exact ones. -/
def KeysAgree (l : Layering) (downward : Bool) (layers : Layers) (layer : List Nat) : Prop :=
  ∀ p ∈ layer.zipIdx, ∀ q ∈ layer.zipIdx, l.sweepNeighbours downward p.1 ≠ [] →
    l.sweepNeighbours downward q.1 ≠ [] →
      Scalar.totalLE (l.sortKey Float32 downward layers p) (l.sortKey Float32 downward layers q) =
        Scalar.totalLE (l.sortKey ℚ downward layers p) (l.sortKey ℚ downward layers q)

instance {layer : List Nat} : Decidable (l.KeysAgree downward layers layer) :=
  inferInstanceAs (Decidable (∀ p ∈ layer.zipIdx, ∀ q ∈ layer.zipIdx, _ → _ → _ = _))

/-- The vertices of a sorted layer that have neighbours are in the order of their means. -/
theorem pairwise_arrange {layer : List Nat} (hkeys : l.KeysAgree downward layers layer) :
    (arrange Float32 (l.sweepNeighbours downward) (layers.positions l.vertexCount) layer).Pairwise
      fun u v => l.sweepNeighbours downward u ≠ [] → l.sweepNeighbours downward v ≠ [] →
        (l.neighbourPositions downward layers u).sum *
            (l.neighbourPositions downward layers v).length ≤
          (l.neighbourPositions downward layers v).sum *
            (l.neighbourPositions downward layers u).length := by
  have hsorted := @List.pairwise_mergeSort (Nat × Float32) (fun a b => Scalar.totalLE a.2 b.2)
    (fun _ _ _ => Single.totalLE_trans) (fun _ _ => Single.totalLE_total _ _)
    (layer.zipIdx.map fun p => (p.1, l.sortKey Float32 downward layers p))
  refine List.pairwise_map.2 (hsorted.imp_of_mem fun hmp hmq hle hu hv => ?_)
  obtain ⟨p, hp, rfl⟩ := List.mem_map.1 (List.mem_mergeSort.1 hmp)
  obtain ⟨q, hq, rfl⟩ := List.mem_map.1 (List.mem_mergeSort.1 hmq)
  have hexact := (hkeys p hp q hq hu hv).symm.trans hle
  have hne : ∀ {w}, l.sweepNeighbours downward w ≠ [] →
      l.neighbourPositions downward layers w ≠ [] := fun h => mt List.map_eq_nil_iff.1 h
  exact (totalLE_barycenter_iff (hne hu) (hne hv) p.2 q.2).1 hexact

/-- If some order of a layer has no crossings, the order by means has none. -/
theorem pairwise_precedes_arrange {layer order : List Nat} (hn : layer.Nodup)
    (hkeys : l.KeysAgree downward layers layer) (ho : order.Perm layer)
    (horder : order.Pairwise (l.Precedes downward layers)) :
    (arrange Float32 (l.sweepNeighbours downward) (layers.positions l.vertexCount) layer).Pairwise
      (l.Precedes downward layers) := by
  have hperm : (arrange Float32 (l.sweepNeighbours downward) (layers.positions l.vertexCount)
    layer).Perm layer := arrange_perm layer
  have : Std.Symm fun u v => l.Precedes downward layers u v ∨ l.Precedes downward layers v u :=
    ⟨fun _ _ => Or.symm⟩
  have hcomparable := (horder.imp Or.inl : order.Pairwise fun u v =>
    l.Precedes downward layers u v ∨ l.Precedes downward layers v u).forall
  have hnodup := hperm.nodup_iff.2 hn
  refine ((pairwise_arrange hkeys).and hnodup).imp_of_mem fun {u v} hu hv h => ?_
  obtain ⟨hmean, hne⟩ := h
  rcases hcomparable (ho.mem_iff.2 (hperm.mem_iff.1 hu)) (ho.mem_iff.2 (hperm.mem_iff.1 hv)) hne
    with huv | hvu
  · exact huv
  · -- The other way round in `order`, so the means are equal and all these neighbours are one.
    intro p hpu q hqv
    have hu : l.sweepNeighbours downward u ≠ [] := fun e => by simp [neighbourPositions, e] at hpu
    have hv : l.sweepNeighbours downward v ≠ [] := fun e => by simp [neighbourPositions, e] at hqv
    exact le_of_mul_length_le (hmean hu hv) hvu p hpu q hqv

theorem reorder_eq_set {k : Nat} (hk : k < layers.length) :
    l.reorder Float32 downward layers k =
      layers.set k (arrange Float32 (l.sweepNeighbours downward)
        (layers.positions l.vertexCount) (layers.getD k [])) := by
  rw [reorder, List.modify_eq_set_get _ hk, List.getD_eq_getElem?_getD,
    List.getElem?_eq_getElem hk]
  rfl

/-- If nothing crosses between two layers under some order of the one that a step sorts, nothing
does after the step. -/
theorem IsProper.crossingsBelow_eq_zero (hp : l.IsProper) (h : l.IsFullOrdering layers)
    (hr : r + 1 < layers.length)
    (hkeys : l.KeysAgree downward layers (layers.getD (sortedRank downward r) []))
    (hexists : ∃ order, order.Perm (layers.getD (sortedRank downward r) []) ∧
      l.crossingsBelow (layers.set (sortedRank downward r) order) r = 0) :
    l.crossingsBelow (l.reorder Float32 downward layers (sortedRank downward r)) r = 0 := by
  obtain ⟨order, ho, hz⟩ := hexists
  have hk : sortedRank downward r < layers.length := sortedRank_lt downward hr
  have hn : (layers.getD (sortedRank downward r) []).Nodup :=
    (List.nodup_flatten.1 (h.listed.nodup_iff.2 List.nodup_range)).1 _ (getD_mem hk)
  rw [reorder_eq_set hk, crossingsBelow_set_eq_zero_iff hp h hr (arrange_perm _)]
  exact pairwise_precedes_arrange hn hkeys ho
    ((crossingsBelow_set_eq_zero_iff hp h hr ho).1 hz)

/-- **A step of a sweep leaves no crossing that it can avoid.** Take a layering of a ranked graph,
an ordering of it and two adjacent ranks, of which one keeps its order and the other one is sorted
by the mean positions of the neighbours in the first. If nothing crosses between them under some
order of the other rank, nothing does after the step, as long as the rounded means compare like the
means. -/
theorem crossingsBelow_reorder {ranks : Array Nat} {g : Digraph} (hs : ranks.size = g.size)
    (hr : g.IsRanking (ranks.getD · 0)) {layers : Layers}
    (hl : (ofRanks ranks g).IsFullOrdering layers) {r : Nat} (hlt : r + 1 < layers.length)
    (downward : Bool)
    (hkeys : (ofRanks ranks g).KeysAgree downward layers
      (layers.getD (sortedRank downward r) []))
    (hexists : ∃ order, order.Perm (layers.getD (sortedRank downward r) []) ∧
      (ofRanks ranks g).crossingsBelow (layers.set (sortedRank downward r) order) r = 0) :
    (ofRanks ranks g).crossingsBelow
      ((ofRanks ranks g).reorder Float32 downward layers (sortedRank downward r)) r = 0 :=
  (isProper_ofRanks hs hr).crossingsBelow_eq_zero hl hlt hkeys hexists

/-- Two ranks with crossing arcs, two of them parallel, and a node that no arc leads to. -/
theorem crossingsBelow_reorder_crossed :
    let ranks : Array Nat := #[0, 0, 1, 1, 1]
    let g : Digraph := .ofArcs 5 [⟨0, 3⟩, ⟨1, 2⟩, ⟨0, 3⟩]
    let layers : Layers := [[0, 1], [2, 4, 3]]
    (ofRanks ranks g).crossingsBelow layers 0 = 2 ∧
      (ofRanks ranks g).crossingsBelow ((ofRanks ranks g).reorder Float32 true layers 1) 0 = 0 := by
  intro ranks g layers
  have hr : g.IsRanking (ranks.getD · 0) := by
    have harcs : ∀ a ∈ g.arcs, ranks.getD a.source 0 < ranks.getD a.target 0 := by decide
    exact fun u v ha => harcs ⟨u, v⟩ ha
  have hl : (ofRanks ranks g).IsFullOrdering layers := by
    refine ⟨by decide, by decide, fun r layer hlayer v hv => ?_⟩
    have hranks : ∀ e ∈ layers.zipIdx, ∀ v ∈ e.1, (ofRanks ranks g).rankOf v = e.2 := by decide
    exact hranks (layer, r) (List.mem_zipIdx_iff_getElem?.2 hlayer) v hv
  refine ⟨by decide, crossingsBelow_reorder rfl hr hl (by decide) true ?_ ?_⟩
  · decide +kernel
  · exact ⟨[3, 2, 4], by decide, by decide⟩

end Layering

end LayeredDrawing
