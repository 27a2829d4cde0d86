import LayeredDrawing.Proofs.Distribution
import LayeredDrawing.Proofs.Layering.PlanarSweeps
import LayeredDrawing.Proofs.Number.Words

/-!
# The order after a sweep

A step of a sweep sorts the vertices of a layer by the rounded means of the positions of their
neighbours, and later steps of the sweep change neither that layer nor the one it was sorted by. At
the end of the sweep the vertices of every layer but the one it starts from are therefore in the
order of the means of the positions that their neighbours then have.

A mean of positions is a number of positive sign, so that the total order of the format sorts means
by their values (`hasSign_mean`, `before_or_tied`), and the sort is stable. Vertices without
neighbours are sorted in between by the indices they had, and nothing is said of them here.

* `pairwise_arrange_mean`: what one step does for the layer that it sorts.
* `swept_sweep`: **the ordering after a sweep.**
-/

namespace LayeredDrawing

open Single

/-! ## Means of positions -/

/-- The rounded mean of natural numbers. -/
def mean (positions : List Nat) : Float32 :=
  Float32.ofNat positions.sum / Float32.ofNat positions.length

theorem hasSign_mean (positions : List Nat) :
    Unpacked.HasSign .positive (mean positions).toModel.unpack :=
  hasSign_div (hasSign_ofNat _) (hasSign_ofNat _)

theorem tied_of_eq {a b : Float32} (h : a = b) : Tied a b := by
  subst h
  by_cases h : IsNumber a
  · exact .inl ((beq_iff_level h h).2 rfl)
  · exact .inr ⟨h, h⟩

/-- A mean that is sorted before another one is less or the same. -/
theorem before_or_eq_of_totalLE {xs ys : List Nat} (h : totalLE (mean xs) (mean ys)) :
    Before (mean xs) (mean ys) ∨ mean xs = mean ys := by
  rcases eq_or_lt_of_totalLE (hasSign_mean xs) h with heq | hlt | hnan
  · exact .inr heq
  · exact .inl (.inl hlt)
  · exact .inl (.inr hnan)

namespace Layering

variable {l : Layering} {layers : Layers} {downward : Bool} {r : Nat}

theorem barycenter_eq_mean {positions : List Nat} (h : positions ≠ []) (i : Nat) :
    barycenter Float32 i positions = mean positions := by
  rw [barycenter, if_neg (by simpa using h)]
  rfl

/-! ## Sorted layers -/

/-- One vertex comes before another by the keys of their means, or these tie and it did before. -/
def MeanAhead (key : Nat → Float32) (former : List Nat) (u v : Nat) : Prop :=
  Before (key u) (key v) ∨ Tied (key u) (key v) ∧ former.idxOf u < former.idxOf v

/-- **A layer is sorted by means, in a stable order**, as far as its vertices have neighbours. -/
theorem pairwise_arrange_mean {neighbours : Nat → List Nat} {position : Array Nat}
    {layer : List Nat} (hn : layer.Nodup) :
    ((arrange Float32 neighbours position layer).filter (neighbours · ≠ [])).Pairwise
      (MeanAhead (fun v => mean ((neighbours v).map (position.getD · 0))) layer) := by
  obtain ⟨ranked, hperm, hsorted, hmap⟩ := exists_stable_mergeSort
    (fun a b c : Nat × Float32 => totalLE_trans (a := a.2) (b := b.2) (c := c.2))
    (fun a b : Nat × Float32 => totalLE_total a.2 b.2)
    (layer.zipIdx.map fun p =>
      (p.1, barycenter Float32 p.2 ((neighbours p.1).map (position.getD · 0))))
  have harrange : arrange Float32 neighbours position layer = ranked.map (·.1.1) := by
    have hfirst : ranked.map (·.1.1) = (ranked.map Prod.fst).map (·.1) := List.map_map.symm
    rw [hfirst, hmap]
    rfl
  -- A member is a vertex with its key, next to the index of the vertex in the layer.
  have hmember : ∀ m ∈ ranked, layer.idxOf m.1.1 = m.2 ∧
      (neighbours m.1.1 ≠ [] → m.1.2 = mean ((neighbours m.1.1).map (position.getD · 0))) := by
    rintro ⟨⟨v, key⟩, i⟩ hm
    have hi := List.mem_zipIdx_iff_getElem?.1 (hperm.mem_iff.1 hm)
    rw [List.getElem?_map, List.getElem?_zipIdx, Option.map_map, Option.map_eq_some_iff] at hi
    obtain ⟨w, hw, heq⟩ := hi
    obtain ⟨hlt, hwi⟩ := List.getElem?_eq_some_iff.1 hw
    simp only [Function.comp_apply, Nat.zero_add, Prod.mk.injEq] at heq
    obtain ⟨rfl, rfl⟩ := heq
    refine ⟨hwi ▸ hn.idxOf_getElem i hlt, fun hne => barycenter_eq_mean ?_ i⟩
    exact mt List.map_eq_nil_iff.1 hne
  rw [harrange, List.pairwise_filter, List.pairwise_map]
  refine hsorted.imp_of_mem fun {m n} hm hmn h hne hne' => ?_
  obtain ⟨hidx, hkey⟩ := hmember m hm
  obtain ⟨hidx', hkey'⟩ := hmember n hmn
  rw [hkey (of_decide_eq_true hne), hkey' (of_decide_eq_true hne')] at h
  obtain ⟨hle, htie⟩ := h
  rcases before_or_eq_of_totalLE hle with hbefore | heq
  · exact .inl hbefore
  · rw [heq] at hle htie
    have hlt := htie hle
    rw [← hidx, ← hidx'] at hlt
    exact .inr ⟨tied_of_eq heq, hlt⟩

/-! ## Positions in a layer -/

theorem IsFullOrdering.nodup_getD (h : l.IsFullOrdering layers) (r : Nat) :
    (layers.getD r []).Nodup := by
  rcases lt_or_ge r layers.length with hr | hr
  · exact (List.nodup_flatten.1 (h.listed.nodup_iff.2 List.nodup_range)).1 _ (getD_mem hr)
  · rw [List.getD_eq_default _ _ hr]
    exact List.nodup_nil

theorem IsFullOrdering.position_eq_idxOf (h : l.IsFullOrdering layers) {v : Nat}
    (hv : v < l.vertexCount) :
    l.position layers v = (layers.getD (l.rankOf v) []).idxOf v := by
  obtain ⟨layer, hlayer, hm⟩ := h.exists_layer hv
  refine h.position_eq (List.getElem?_idxOf ?_)
  rwa [List.getD_eq_getElem?_getD, hlayer]

/-- The rounded mean of the positions in a layer of the neighbours that a sweep sorts a vertex by. -/
def meanIn (l : Layering) (downward : Bool) (layer : List Nat) (v : Nat) : Float32 :=
  mean ((l.sweepNeighbours downward v).map layer.idxOf)

/-! ## The ordering after a sweep -/

/-- An ordering has been swept: it lists all vertices in the layers of their ranks, the layer that
the sweep starts from is the one before, and in every other layer the vertices that have neighbours
in the layer swept before it are in the order of the rounded means of the positions of these
neighbours there, and in their former order where these means tie. -/
structure Swept (l : Layering) (downward : Bool) (before after : Layers) : Prop where
  isFullOrdering : l.IsFullOrdering after
  head?_eq : downward = true → after.head? = before.head?
  getLast?_eq : downward = false → after.getLast? = before.getLast?
  sorted : ∀ r, r + 1 < after.length →
    ((after.getD (sortedRank downward r) []).filter (l.sweepNeighbours downward · ≠ [])).Pairwise
      (MeanAhead (l.meanIn downward (after.getD (sortedRank (!downward) r) []))
        (before.getD (sortedRank downward r) []))

theorem head?_sweepFrom {neighbours : Nat → List Nat} {position : Array Nat} :
    (sweepFrom Float32 neighbours position layers).head? = layers.head? := by
  cases layers <;> rfl

theorem head?_sweep : (l.sweep Float32 true layers).head? = layers.head? := head?_sweepFrom

theorem getLast?_sweep : (l.sweep Float32 false layers).getLast? = layers.getLast? := by
  have h : l.sweep Float32 false layers =
      (sweepFrom Float32 l.neighbours.below.at (layers.positions l.vertexCount)
        layers.reverse).reverse := rfl
  rw [h, List.getLast?_reverse, head?_sweepFrom, List.head?_reverse]

/-- The layer that a step has sorted is in the order of means, and is so after later steps. -/
theorem pairwise_after_step (hp : l.IsProper) (h : l.IsFullOrdering layers)
    (hlt : r + 1 < layers.length) {after : List Nat} (hr : r ∉ after) (hnext : r + 1 ∉ after)
    {layers' : Layers} (hafter : after.foldl (l.reorder Float32 downward)
      (l.reorder Float32 downward layers (sortedRank downward r)) = layers') :
    ((layers'.getD (sortedRank downward r) []).filter (l.sweepNeighbours downward · ≠ [])).Pairwise
      (MeanAhead (l.meanIn downward (layers'.getD (sortedRank (!downward) r) []))
        (layers.getD (sortedRank downward r) [])) := by
  have hk := sortedRank_lt downward hlt
  have hsorted : layers'.getD (sortedRank downward r) [] =
      arrange Float32 (l.sweepNeighbours downward) (layers.positions l.vertexCount)
        (layers.getD (sortedRank downward r) []) := by
    rw [getD_after_step hr hnext hafter ((eq_or_eq_next_iff downward).2 (.inl rfl)),
      reorder_eq_set hk, getD_set_self hk]
  -- The step took the positions from the table of the ordering as it then was.
  have hmean : ∀ v ∈ layers.getD (sortedRank downward r) [],
      mean (l.neighbourPositions downward layers v) =
        l.meanIn downward (layers'.getD (sortedRank (!downward) r) []) v := by
    intro v hv
    have hrank := ((h.mem_getD_iff hk).1 hv).2
    refine congrArg mean (List.map_congr_left fun w hw => ?_)
    obtain ⟨hw, hrankw⟩ := rankOf_of_mem_sweepNeighbours hp hrank hw
    rw [h.position_eq_idxOf hw, hrankw, getD_fixed_after_step hr hnext hafter]
  have hperm := perm_sorted_after_step hlt hr hnext hafter
  rw [hsorted] at hperm ⊢
  refine (pairwise_arrange_mean (h.nodup_getD _)).imp_of_mem fun {u v} hu hv huv => ?_
  have hu := hmean u (hperm.mem_iff.1 (List.mem_of_mem_filter hu))
  have hv := hmean v (hperm.mem_iff.1 (List.mem_of_mem_filter hv))
  rw [MeanAhead, ← hu, ← hv]
  exact huv

/-- **The ordering after a sweep.** Take a layering of a ranked graph and an ordering that lists
every vertex once, in the layer of its rank. A sweep gives such an ordering again. It leaves the
layer that it starts from, and in every other layer it sorts the vertices with neighbours in the
layer before by the means of the positions that these have there after the sweep, in a stable
order. -/
theorem swept_sweep {ranks : Array Nat} {g : Digraph} (hs : ranks.size = g.size)
    (hr : g.IsRanking (ranks.getD · 0)) {layers : Layers}
    (hl : (ofRanks ranks g).IsFullOrdering layers) (downward : Bool) :
    (ofRanks ranks g).Swept downward layers ((ofRanks ranks g).sweep Float32 downward layers) where
  isFullOrdering := by
    rw [sweep_eq_foldl_reorder hl]
    exact isFullOrdering_foldl_reorder hl _
  head?_eq := by
    rintro rfl
    exact head?_sweep
  getLast?_eq := by
    rintro rfl
    exact getLast?_sweep
  sorted := by
    intro r hlt
    have hlength : ((ofRanks ranks g).sweep Float32 downward layers).length = layers.length :=
      List.Forall₂.length_eq (rearranges_sweepAlong _ downward layers)
    obtain ⟨start, after, hstart, hlt, hlayer, hr₀, hr₁, hsweep⟩ :=
      exists_step_of_sweep hl (hlength ▸ hlt) downward
    rw [← hlayer]
    exact pairwise_after_step (isProper_ofRanks hs hr) hstart hlt hr₀ hr₁ hsweep

/-- Four ranks with an arc over two of them and three means that tie, in both directions. -/
theorem swept_sweep_tied :
    let ranks : Array Nat := #[0, 0, 1, 1, 1, 2, 3]
    let g : Digraph := .ofArcs 7 [⟨0, 4⟩, ⟨1, 2⟩, ⟨0, 3⟩, ⟨4, 5⟩, ⟨2, 5⟩, ⟨3, 6⟩, ⟨5, 6⟩]
    let layers : Layers := [[1, 0], [4, 2, 3], [7, 5], [6]]
    ∀ downward, (ofRanks ranks g).Swept downward layers
      ((ofRanks ranks g).sweep Float32 downward layers) := by
  intro ranks g layers downward
  have hr : g.IsRanking (ranks.getD · 0) := by
    have harcs : ∀ a ∈ g.arcs, ranks.getD a.source 0 < ranks.getD a.target 0 := by decide
    exact fun u v ha => harcs ⟨u, v⟩ ha
  have hl : (ofRanks ranks g).IsFullOrdering layers := by
    refine ⟨by decide, by decide, fun r layer hlayer v hv => ?_⟩
    have hranks : ∀ e ∈ layers.zipIdx, ∀ v ∈ e.1, (ofRanks ranks g).rankOf v = e.2 := by decide
    exact hranks (layer, r) (List.mem_zipIdx_iff_getElem?.2 hlayer) v hv
  exact swept_sweep rfl hr hl downward

end Layering

end LayeredDrawing
