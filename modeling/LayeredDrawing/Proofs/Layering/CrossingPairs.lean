import LayeredDrawing.Proofs.KeyedList
import LayeredDrawing.Proofs.Layering.SweepOrder
import Mathlib.Algebra.BigOperators.Fin
import Mathlib.Combinatorics.SimpleGraph.DegreeSum

/-!
# The pairs of segments that cross

The number of crossings of an ordering is found layer by layer, from the positions at the ends of
the segments that leave each vertex, with the segments of a vertex in the order of its neighbours.
It is the number of unordered pairs of segments that cross: a crossing is met from both of its
strands (`sum_countP_crosses`), so that twice the number for a list of strands is a sum over all its
members, which does not depend on their order, and each segment is a strand of one layer
(`strands_perm`). The segments that cross are the edges of a graph (`crossingGraph`), and twice their
number is the sum of its degrees.

* `two_mul_crossings`: twice the number of crossings, segment by segment.
* `crossings_eq_card_edgeFinset`: **the crossings are the pairs of segments that cross**, in
  whatever order the segments were added, and as many if all layers are reversed.
-/

namespace LayeredDrawing

/-! ## Strands that cross -/

theorem sum_map_ite_eq_countP {β : Type} (p : β → Bool) (l : List β) :
    (l.map fun b => if p b then 1 else 0).sum = l.countP p := by
  induction l with
  | nil => rfl
  | cons b l ih => rw [List.map_cons, List.sum_cons, ih, List.countP_cons, Nat.add_comm]

namespace Strand

variable {s t : Strand} {strands strands' : List Strand}

theorem crosses_comm (s t : Strand) : s.crosses t = t.crosses s := Bool.or_comm ..

theorem crosses_self (s : Strand) : s.crosses s = false := by simp [crosses]

/-- Every crossing is met from both of its strands. -/
theorem sum_countP_crosses (strands : List Strand) :
    (strands.map fun s => strands.countP s.crosses).sum = 2 * countCrossings strands := by
  induction strands with
  | nil => rfl
  | cons s rest ih =>
    -- The strands that `s` crosses count it in turn.
    have hrest : (rest.map fun t => (s :: rest).countP t.crosses).sum =
        2 * countCrossings rest + rest.countP s.crosses := by
      simp only [List.countP_cons, List.sum_map_add, ih, crosses_comm _ s, sum_map_ite_eq_countP]
    rw [List.map_cons, List.sum_cons, hrest, List.countP_cons_of_neg (by simp [crosses_self]),
      countCrossings]
    omega

/-- The number of crossings does not depend on the order of the strands. -/
theorem countCrossings_perm (h : strands.Perm strands') :
    countCrossings strands = countCrossings strands' := by
  have hsum : (strands.map fun s => strands.countP s.crosses).sum =
      (strands'.map fun s => strands'.countP s.crosses).sum := by
    simp only [h.countP_eq]
    exact (h.map _).sum_eq
  rw [sum_countP_crosses, sum_countP_crosses] at hsum
  omega

end Strand

namespace Layering

variable {l : Layering} {layers : Layers} {r : Nat} {a b : Arc}

/-! ## Segments that cross -/

/-- The index of a vertex in the layer of its rank. -/
def indexIn (l : Layering) (layers : Layers) (v : Nat) : Nat :=
  (layers.getD (l.rankOf v) []).idxOf v

/-- Two segments cross in an ordering: they are between the same two adjacent ranks, and their upper
ends and their lower ends are in strictly opposite order. -/
structure Crosses (l : Layering) (layers : Layers) (a b : Arc) : Prop where
  rank_source : l.rankOf a.source = l.rankOf b.source
  rank_target : l.rankOf a.target = l.rankOf b.target
  adjacent : l.rankOf a.target = l.rankOf a.source + 1
  opposite :
    l.indexIn layers a.source < l.indexIn layers b.source ∧
        l.indexIn layers b.target < l.indexIn layers a.target ∨
      l.indexIn layers b.source < l.indexIn layers a.source ∧
        l.indexIn layers a.target < l.indexIn layers b.target

instance : Decidable (l.Crosses layers a b) :=
  decidable_of_iff (_ ∧ _ ∧ _ ∧ _)
    ⟨fun h => ⟨h.1, h.2.1, h.2.2.1, h.2.2.2⟩, fun h => ⟨h.1, h.2, h.3, h.4⟩⟩

theorem Crosses.symm (h : l.Crosses layers a b) : l.Crosses layers b a where
  rank_source := h.rank_source.symm
  rank_target := h.rank_target.symm
  adjacent := by rw [← h.rank_target, ← h.rank_source, h.adjacent]
  opposite := h.opposite.symm

theorem Crosses.irrefl : ¬ l.Crosses layers a a := by
  intro h
  have := h.opposite
  omega

/-- The graph on the segments in which those that cross are adjacent. Parallel segments are
vertices of their own. -/
def crossingGraph (l : Layering) (layers : Layers) :
    SimpleGraph (Fin l.segments.arcs.length) where
  Adj i j := l.Crosses layers l.segments.arcs[i] l.segments.arcs[j]
  symm := ⟨fun _ _ => Crosses.symm⟩
  loopless := ⟨fun _ => Crosses.irrefl⟩

instance : DecidableRel (l.crossingGraph layers).Adj := fun i j =>
  inferInstanceAs (Decidable (l.Crosses layers l.segments.arcs[i] l.segments.arcs[j]))

theorem degree_crossingGraph (i : Fin l.segments.arcs.length) :
    (l.crossingGraph layers).degree i =
      l.segments.arcs.countP (l.Crosses layers l.segments.arcs[i] ·) := by
  rw [← SimpleGraph.card_neighborFinset_eq_degree, SimpleGraph.neighborFinset_eq_filter,
    Finset.card_filter, ← sum_map_ite_eq_countP, ← Fin.sum_univ_fun_getElem]
  refine Finset.sum_congr rfl fun j _ => ?_
  simp only [decide_eq_true_eq]
  rfl

/-- The segments that each segment crosses are twice the pairs of segments that cross. -/
theorem sum_countP_crosses (l : Layering) (layers : Layers) :
    (l.segments.arcs.map fun a => l.segments.arcs.countP (l.Crosses layers a ·)).sum =
      2 * (l.crossingGraph layers).edgeFinset.card := by
  rw [← SimpleGraph.sum_degrees_eq_twice_card_edges, ← Fin.sum_univ_fun_getElem]
  exact Finset.sum_congr rfl fun i _ => (degree_crossingGraph i).symm

/-! ## Strands of segments -/

/-- A segment by the positions of its ends. -/
def strand (l : Layering) (layers : Layers) (a : Arc) : Strand :=
  (l.position layers a.source, l.position layers a.target)

/-- The strands of a layer are those of the segments that leave its vertices. -/
theorem strands_perm {layer : List Nat} (hn : layer.Nodup) :
    (strands l.segments.successorTable.at (layers.positions l.vertexCount) layer).Perm
      ((l.segments.arcs.filter (·.source ∈ layer)).map (l.strand layers)) := by
  have hvertex : ∀ u ∈ layer, ((l.segments.successorTable.at u).map fun w =>
      (l.position layers u, l.position layers w)).Perm
        ((l.segments.arcs.filter (·.source == u)).map (l.strand layers)) := by
    intro u _
    rw [Digraph.at_successorTable, Digraph.successors, List.map_reverse, List.map_map]
    refine (List.reverse_perm _).trans (.of_eq (List.map_congr_left fun a ha => ?_))
    obtain rfl : a.source = u := by simpa using (List.mem_filter.1 ha).2
    rfl
  refine (List.Perm.flatMap_left layer hvertex).trans ?_
  rw [← List.map_flatMap]
  exact (flatMap_filter_mem_perm l.segments.arcs Arc.source hn).map _

section Orderings

variable (hp : l.IsProper) (h : l.IsFullOrdering layers)

include h

theorem IsFullOrdering.strands_perm (hr : r < layers.length) :
    (strands l.segments.successorTable.at (layers.positions l.vertexCount)
        (layers.getD r [])).Perm
      ((l.segments.arcs.filter (l.rankOf ·.source == r)).map (l.strand layers)) := by
  have hfilter : l.segments.arcs.filter (·.source ∈ layers.getD r []) =
      l.segments.arcs.filter (l.rankOf ·.source == r) := by
    refine List.filter_congr fun a ha => ?_
    have hsource := (l.segments.inRange a ha).1
    simp only [h.mem_getD_iff hr, and_iff_right (show a.source < l.vertexCount from hsource)]
    rfl
  exact hfilter ▸ Layering.strands_perm (h.nodup_getD r)

include hp

/-- Segments from one rank cross if their strands do. -/
theorem IsFullOrdering.crosses_iff (ha : a ∈ l.segments.arcs) (hb : b ∈ l.segments.arcs) :
    l.Crosses layers a b ↔
      (l.strand layers a).crosses (l.strand layers b) = true ∧
        l.rankOf b.source = l.rankOf a.source := by
  have hindex : ∀ v < l.vertexCount, l.indexIn layers v = l.position layers v :=
    fun v hv => (h.position_eq_idxOf hv).symm
  have hsa := hindex _ (l.segments.inRange a ha).1
  have hta := hindex _ (l.segments.inRange a ha).2
  have hsb := hindex _ (l.segments.inRange b hb).1
  have htb := hindex _ (l.segments.inRange b hb).2
  rw [Strand.crosses_eq_true_iff]
  constructor
  · intro hc
    have hopposite := hc.opposite
    rw [hsa, hta, hsb, htb] at hopposite
    exact ⟨hopposite, hc.rank_source.symm⟩
  · rintro ⟨hopposite, hrank⟩
    refine ⟨hrank.symm, by rw [hp a ha, hp b hb, hrank], hp a ha, ?_⟩
    rw [hsa, hta, hsb, htb]
    exact hopposite

/-- Twice the number of crossings below a layer, segment by segment. -/
theorem IsFullOrdering.two_mul_crossingsBelow (hr : r < layers.length) :
    2 * l.crossingsBelow layers r =
      ((l.segments.arcs.filter (l.rankOf ·.source == r)).map fun a =>
        l.segments.arcs.countP (l.Crosses layers a ·)).sum := by
  rw [crossingsBelow, Strand.countCrossings_perm (h.strands_perm hr), ← Strand.sum_countP_crosses,
    List.map_map]
  refine congrArg List.sum (List.map_congr_left fun a ha => ?_)
  obtain ⟨hmem, hrank⟩ := List.mem_filter.1 ha
  obtain rfl : l.rankOf a.source = r := by simpa using hrank
  rw [Function.comp_apply, List.countP_map, List.countP_filter]
  refine List.countP_congr fun b hb => ?_
  simp [h.crosses_iff hp hmem hb]

theorem IsFullOrdering.rankOf_source_lt (ha : a ∈ l.segments.arcs) :
    l.rankOf a.source < layers.length - 1 := by
  obtain ⟨layer, hlayer, -⟩ := h.exists_layer (l.segments.inRange a ha).2
  obtain ⟨hlt, -⟩ := List.getElem?_eq_some_iff.1 hlayer
  have := hp a ha
  omega

/-- Twice the number of crossings, segment by segment. -/
theorem IsFullOrdering.two_mul_crossings :
    2 * l.crossings layers =
      (l.segments.arcs.map fun a => l.segments.arcs.countP (l.Crosses layers a ·)).sum := by
  -- No segment leaves the last layer, so those of the others are all segments.
  have hall : l.segments.arcs.filter (l.rankOf ·.source < layers.length - 1) = l.segments.arcs :=
    List.filter_eq_self.2 fun a ha => by simpa using h.rankOf_source_lt hp ha
  have hclasses := flatMap_filter_key_perm l.segments.arcs (l.rankOf ·.source) (layers.length - 1)
  rw [hall] at hclasses
  rw [crossings_eq_sum, ← List.sum_map_mul_left, ← (hclasses.map _).sum_eq, List.map_flatMap,
    List.flatMap_def, List.sum_flatten, List.map_map]
  refine congrArg List.sum (List.map_congr_left fun r hr => ?_)
  have hr : r < layers.length := by
    have := List.mem_range.1 hr
    omega
  exact h.two_mul_crossingsBelow hp hr

/-- **Every crossing is a pair of segments that cross**, and the other way round. -/
theorem IsFullOrdering.crossings_eq_card :
    l.crossings layers = (l.crossingGraph layers).edgeFinset.card := by
  have hsum := h.two_mul_crossings hp
  rw [sum_countP_crosses] at hsum
  omega

end Orderings

/-! ## Other orders -/

/-- The crossings do not depend on the order in which segments were added. -/
theorem crossings_congr {l' : Layering} (hv : l'.vertexCount = l.vertexCount)
    (ha : l'.segments.arcs.Perm l.segments.arcs) (hn : layers.flatten.Nodup) :
    l'.crossings layers = l.crossings layers := by
  rw [crossings_eq_sum, crossings_eq_sum]
  refine congrArg List.sum (List.map_congr_left fun r hr => ?_)
  have hlayer : (layers.getD r []).Nodup := by
    have hr := List.mem_range.1 hr
    exact (List.nodup_flatten.1 hn).1 _ (getD_mem (by omega))
  have hstrand : l'.strand layers = l.strand layers := by
    funext a
    rw [strand, strand, position, position, position, position, hv]
  apply Strand.countCrossings_perm
  refine (strands_perm hlayer).trans (.trans ?_ (strands_perm hlayer).symm)
  rw [hstrand]
  exact (ha.filter _).map _

/-- All layers the other way round. -/
theorem IsFullOrdering.map_reverse (h : l.IsFullOrdering layers) :
    l.IsFullOrdering (layers.map List.reverse) := by
  refine h.rearrange (List.forall₂_map_left_iff.2 (List.forall₂_same.2 fun layer _ => ?_))
  exact layer.reverse_perm

/-- Indices count from the other end if all layers are reversed. -/
theorem IsFullOrdering.indexIn_map_reverse (h : l.IsFullOrdering layers) {v : Nat}
    (hv : v < l.vertexCount) :
    l.indexIn (layers.map List.reverse) v + l.indexIn layers v + 1 =
      (layers.getD (l.rankOf v) []).length := by
  obtain ⟨layer, hlayer, hm⟩ := h.exists_layer hv
  have hgetD : layers.getD (l.rankOf v) [] = layer := by
    rw [List.getD_eq_getElem?_getD, hlayer, Option.getD_some]
  have hreverse : (layers.map List.reverse).getD (l.rankOf v) [] = layer.reverse :=
    (List.getD_map layers [] List.reverse).trans (congrArg List.reverse hgetD)
  have hn : layer.Nodup := hgetD ▸ h.nodup_getD (l.rankOf v)
  obtain ⟨i, hi, rfl⟩ := List.getElem_of_mem hm
  have hother : layer.length - 1 - i < layer.reverse.length := by
    rw [List.length_reverse]
    omega
  have hv : layer.reverse[layer.length - 1 - i] = layer[i] := by
    rw [List.getElem_reverse]
    congr 1
    omega
  rw [indexIn, indexIn, hreverse, hgetD, hn.idxOf_getElem, ← hv,
    (List.nodup_reverse.2 hn).idxOf_getElem]
  omega

/-- Segments that cross go on to cross if all layers are reversed. -/
theorem Crosses.map_reverse (h : l.IsFullOrdering layers) (ha : a ∈ l.segments.arcs)
    (hb : b ∈ l.segments.arcs) (hc : l.Crosses layers a b) :
    l.Crosses (layers.map List.reverse) a b where
  rank_source := hc.rank_source
  rank_target := hc.rank_target
  adjacent := hc.adjacent
  opposite := by
    have hsa := h.indexIn_map_reverse (l.segments.inRange a ha).1
    have hta := h.indexIn_map_reverse (l.segments.inRange a ha).2
    have hsb := h.indexIn_map_reverse (l.segments.inRange b hb).1
    have htb := h.indexIn_map_reverse (l.segments.inRange b hb).2
    rw [← hc.rank_source] at hsb
    rw [← hc.rank_target] at htb
    have := hc.opposite
    omega

theorem IsFullOrdering.crossingGraph_map_reverse (h : l.IsFullOrdering layers) :
    l.crossingGraph (layers.map List.reverse) = l.crossingGraph layers := by
  have hback : (layers.map List.reverse).map List.reverse = layers := by simp
  ext i j
  have hi : l.segments.arcs[i] ∈ l.segments.arcs := List.getElem_mem _
  have hj : l.segments.arcs[j] ∈ l.segments.arcs := List.getElem_mem _
  constructor
  · intro hc
    have hc : l.Crosses ((layers.map List.reverse).map List.reverse) _ _ :=
      hc.map_reverse h.map_reverse hi hj
    rwa [hback] at hc
  · exact Crosses.map_reverse h hi hj

/-- **The crossings are the pairs of segments that cross.** Take a layering in which every segment
leads to the next rank, as those of ranked graphs do (`isProper_ofRanks`), and an ordering that lists
every vertex once, in the layer of its rank. The number of crossings is that of the unordered pairs
of distinct segments, parallel ones told apart, that are between the same two ranks with upper and
lower ends in strictly opposite order. It is the same for the segments added in any other order, and
for all layers reversed. -/
theorem crossings_eq_card_edgeFinset (hp : l.IsProper) (h : l.IsFullOrdering layers) :
    l.crossings layers = (l.crossingGraph layers).edgeFinset.card ∧
      (∀ l' : Layering, l'.vertexCount = l.vertexCount →
        l'.segments.arcs.Perm l.segments.arcs → l'.crossings layers = l.crossings layers) ∧
      l.crossings (layers.map List.reverse) = l.crossings layers := by
  refine ⟨h.crossings_eq_card hp, fun l' hv ha => ?_, ?_⟩
  · exact crossings_congr hv ha (h.listed.nodup_iff.2 List.nodup_range)
  · rw [h.crossings_eq_card hp, h.map_reverse.crossings_eq_card hp]
    exact congrArg Finset.card (SimpleGraph.edgeFinset_inj.2 h.crossingGraph_map_reverse)

/-- Two parallel arcs cross an arc and the first segment of another one. -/
theorem crossings_eq_card_edgeFinset_parallel :
    let ranks : Array Nat := #[0, 0, 1, 1, 2]
    let g : Digraph := .ofArcs 5 [⟨0, 3⟩, ⟨1, 2⟩, ⟨1, 2⟩, ⟨0, 4⟩, ⟨3, 4⟩]
    let l := ofRanks ranks g
    let layers : Layers := [[0, 1], [2, 3, 5], [4]]
    l.crossings layers = 4 ∧
      l.crossings layers = (l.crossingGraph layers).edgeFinset.card ∧
      (∀ l' : Layering, l'.vertexCount = l.vertexCount →
        l'.segments.arcs.Perm l.segments.arcs → l'.crossings layers = l.crossings layers) ∧
      l.crossings (layers.map List.reverse) = l.crossings layers := by
  intro ranks g l layers
  have hr : g.IsRanking (ranks.getD · 0) := by decide
  have hl : l.IsFullOrdering layers := by decide
  exact ⟨by decide, crossings_eq_card_edgeFinset (isProper_ofRanks rfl hr) hl⟩

end Layering

end LayeredDrawing
