import LayeredDrawing.Proofs.Layering.Planarity

/-!
# Sweeps without crossings

A step changes one layer, and later steps of a sweep come back neither to it nor to the layer it
was sorted by (`exists_sweepRanks_eq`). The crossings between the two are therefore the same at the
end of the sweep as after the step (`crossingsBelow_congr`), and what a step does for two layers
holds of the whole sweep.

* `crossingsBelow_sweep`: **a sweep leaves no crossing that one of its steps can avoid.**
* `crossings_sweep`: if that is all crossings, the ordering has none.
-/

namespace LayeredDrawing.Layering

variable {l : Layering} {layers layers' : Layers} {downward : Bool} {r : Nat}

/-! ## What a step leaves as it is -/

theorem getD_reorder_of_ne {i k : Nat} (hne : i ≠ k) :
    (l.reorder Float32 downward layers k).getD i [] = layers.getD i [] := by
  simp [reorder, hne.symm]

/-- Steps leave the layers of other ranks. -/
theorem getD_foldl_reorder {i : Nat} {ranks : List Nat} (hi : i ∉ ranks) :
    (ranks.foldl (l.reorder Float32 downward) layers).getD i [] = layers.getD i [] := by
  induction ranks generalizing layers with
  | nil => rfl
  | cons k ranks ih =>
    obtain ⟨hk, hi⟩ := not_or.1 (mt List.mem_cons.2 hi)
    rw [List.foldl_cons, ih hi, getD_reorder_of_ne hk]

theorem isFullOrdering_foldl_reorder (h : l.IsFullOrdering layers) (ranks : List Nat) :
    l.IsFullOrdering (ranks.foldl (l.reorder Float32 downward) layers) := by
  induction ranks generalizing layers with
  | nil => exact h
  | cons k ranks ih => exact ih (isFullOrdering_reorder h k)

/-- The crossings between two layers depend on these layers only. -/
theorem crossingsBelow_congr (hp : l.IsProper) (h : l.IsFullOrdering layers)
    (h' : l.IsFullOrdering layers') (hlt : r < layers.length)
    (hr : layers'.getD r [] = layers.getD r [])
    (hnext : layers'.getD (r + 1) [] = layers.getD (r + 1) []) :
    l.crossingsBelow layers' r = l.crossingsBelow layers r := by
  have hstrands : ∀ u ∈ layers.getD r [],
      (l.segments.successorTable.at u).map (fun w =>
          (l.position layers' u, l.position layers' w)) =
        (l.segments.successorTable.at u).map fun w =>
          (l.position layers u, l.position layers w) := by
    intro u hu
    obtain ⟨hsize, rfl⟩ := (h.mem_getD_iff hlt).1 hu
    refine List.map_congr_left fun w hw => ?_
    rw [Digraph.at_successorTable, Digraph.mem_successors] at hw
    have hw' : layers'.getD (l.rankOf w) [] = layers.getD (l.rankOf w) [] :=
      (hp _ hw).symm ▸ hnext
    rw [h.position_congr h' hsize hr, h.position_congr h' (l.segments.inRange _ hw).2 hw']
  rw [crossingsBelow, crossingsBelow, hr]
  exact congrArg Strand.countCrossings (List.flatMap_congr hstrands)

theorem fixedEnd_eq (a : Arc) : fixedEnd downward a = sortedEnd (!downward) a := by
  cases downward <;> rfl

/-- The neighbours that a vertex is sorted by are in the layer that its own is sorted by. -/
theorem rankOf_of_mem_sweepNeighbours (hp : l.IsProper) {v w : Nat}
    (hv : l.rankOf v = sortedRank downward r) (hw : w ∈ l.sweepNeighbours downward v) :
    w < l.vertexCount ∧ l.rankOf w = sortedRank (!downward) r := by
  obtain ⟨a, ha, rfl, rfl⟩ := mem_sweepNeighbours.1 hw
  refine ⟨fixedEnd_lt ha, ?_⟩
  rw [fixedEnd_eq, rankOf_sortedEnd_iff hp ha, ← rankOf_sortedEnd_iff hp ha, hv]

/-- The keys of a layer depend on the layer that it is sorted by only. -/
theorem sortKey_congr (hp : l.IsProper) (h : l.IsFullOrdering layers)
    (h' : l.IsFullOrdering layers')
    (hfixed : layers'.getD (sortedRank (!downward) r) [] =
      layers.getD (sortedRank (!downward) r) []) {v : Nat}
    (hv : l.rankOf v = sortedRank downward r) (α : Type) [Scalar α] (i : Nat) :
    l.sortKey α downward layers' (v, i) = l.sortKey α downward layers (v, i) := by
  have hpositions : l.neighbourPositions downward layers' v =
      l.neighbourPositions downward layers v := by
    refine List.map_congr_left fun w hw => ?_
    obtain ⟨hlt, hrank⟩ := rankOf_of_mem_sweepNeighbours hp hv hw
    exact h.position_congr h' hlt (hrank ▸ hfixed)
  rw [sortKey, sortKey, hpositions]

theorem KeysAgree.congr (hp : l.IsProper) (h : l.IsFullOrdering layers)
    (h' : l.IsFullOrdering layers')
    (hfixed : layers'.getD (sortedRank (!downward) r) [] =
      layers.getD (sortedRank (!downward) r) []) {layer : List Nat}
    (hlayer : ∀ v ∈ layer, l.rankOf v = sortedRank downward r)
    (hkeys : l.KeysAgree downward layers' layer) : l.KeysAgree downward layers layer := by
  have hkey : ∀ (α : Type) [Scalar α], ∀ e ∈ layer.zipIdx,
      l.sortKey α downward layers' e = l.sortKey α downward layers e := fun α _ e he =>
    sortKey_congr hp h h' hfixed (hlayer e.1 (List.fst_mem_of_mem_zipIdx he)) α e.2
  intro p hpl q hql hu hv
  rw [← hkey Float32 p hpl, ← hkey Float32 q hql, ← hkey ℚ p hpl, ← hkey ℚ q hql]
  exact hkeys p hpl q hql hu hv

/-! ## Sweeps -/

/-- Before the step at a rank a sweep does not come to that rank, and after the step it comes
neither to it nor to the rank it is sorted by. -/
theorem exists_sweepRanks_eq (downward : Bool) {n : Nat} (hr : r + 1 < n) :
    ∃ before after, sweepRanks downward n = before ++ sortedRank downward r :: after ∧
      sortedRank downward r ∉ before ∧ r ∉ after ∧ r + 1 ∉ after := by
  obtain ⟨k, rfl⟩ : ∃ k, n = r + (k + 1) + 1 := ⟨n - (r + 2), by omega⟩
  cases downward with
  | true =>
    refine ⟨List.range' 1 r, List.range' (1 + r + 1) k, ?_, ?_⟩
    · calc List.range' 1 (r + (k + 1))
          = List.range' 1 r ++ List.range' (1 + r) (k + 1) := List.range'_append_1.symm
        _ = List.range' 1 r ++ (r + 1) :: List.range' (1 + r + 1) k := by
          rw [List.range'_succ, Nat.add_comm 1 r]
    · simp only [sortedRank, if_true, List.mem_range'_1]
      omega
  | false =>
    refine ⟨(List.range' (r + 1) k).reverse, (List.range' 0 r).reverse, ?_, ?_⟩
    · have hsplit : List.range (r + (k + 1)) =
          List.range' 0 r ++ r :: List.range' (r + 1) k := by
        rw [List.range_eq_range', ← List.range'_append_1, Nat.zero_add, List.range'_succ]
      simp [sweepRanks, sortedRank, hsplit]
    · simp only [sortedRank, Bool.false_eq_true, if_false, List.mem_reverse, List.mem_range'_1]
      omega

/-- Of a rank and the next one a step sorts one by the other. -/
theorem eq_or_eq_next_iff (downward : Bool) {i : Nat} :
    i = r ∨ i = r + 1 ↔ i = sortedRank downward r ∨ i = sortedRank (!downward) r := by
  cases downward with
  | true => exact or_comm
  | false => exact Iff.rfl

theorem sortedRank_not_ne (downward : Bool) (r : Nat) :
    sortedRank (!downward) r ≠ sortedRank downward r := by
  cases downward <;> simp [sortedRank]

section AfterStep

variable {after : List Nat} (h : l.IsFullOrdering layers) (hlt : r + 1 < layers.length)
  (hr : r ∉ after) (hnext : r + 1 ∉ after)
  (hafter : after.foldl (l.reorder Float32 downward)
    (l.reorder Float32 downward layers (sortedRank downward r)) = layers')

include hr hnext hafter

theorem getD_after_step {i : Nat} (hi : i = r ∨ i = r + 1) :
    layers'.getD i [] =
      (l.reorder Float32 downward layers (sortedRank downward r)).getD i [] := by
  rcases hi with rfl | rfl
  · exact hafter ▸ getD_foldl_reorder hr
  · exact hafter ▸ getD_foldl_reorder hnext

/-- Later steps leave the layer that a step sorted by. -/
theorem getD_fixed_after_step : layers'.getD (sortedRank (!downward) r) [] =
    layers.getD (sortedRank (!downward) r) [] := by
  rw [getD_after_step hr hnext hafter ((eq_or_eq_next_iff downward).2 (.inr rfl)),
    getD_reorder_of_ne (sortedRank_not_ne downward r)]

include hlt

/-- Later steps only keep the order of the layer that a step sorted. -/
theorem perm_sorted_after_step : (layers'.getD (sortedRank downward r) []).Perm
    (layers.getD (sortedRank downward r) []) := by
  have hk := sortedRank_lt downward hlt
  rw [getD_after_step hr hnext hafter ((eq_or_eq_next_iff downward).2 (.inl rfl)),
    reorder_eq_set hk, getD_set_self hk]
  exact arrange_perm _

include h

omit hlt hr hnext in
theorem isFullOrdering_after_step : l.IsFullOrdering layers' :=
  hafter ▸ isFullOrdering_foldl_reorder (isFullOrdering_reorder h _) after

/-- With another order of the layer that a step sorted, the crossings below are those before the
step and after later ones. -/
theorem crossingsBelow_set_after_step (hp : l.IsProper) {order : List Nat}
    (ho : order.Perm (layers.getD (sortedRank downward r) [])) :
    l.crossingsBelow (layers'.set (sortedRank downward r) order) r =
      l.crossingsBelow (layers.set (sortedRank downward r) order) r := by
  have h' := isFullOrdering_after_step h hafter
  have hlt' : r + 1 < layers'.length := by rwa [h'.length_eq, ← h.length_eq]
  have hsorted := perm_sorted_after_step hlt hr hnext hafter
  have hset : ∀ i, i = r ∨ i = r + 1 → (layers'.set (sortedRank downward r) order).getD i [] =
      (layers.set (sortedRank downward r) order).getD i [] := by
    intro i hi
    rcases (eq_or_eq_next_iff downward).1 hi with rfl | rfl
    · rw [getD_set_self (sortedRank_lt downward hlt'), getD_set_self (sortedRank_lt downward hlt)]
    · have hne := sortedRank_not_ne downward r
      rw [getD_set_ne hne, getD_set_ne hne, getD_fixed_after_step hr hnext hafter]
  refine crossingsBelow_congr hp (h.rearrange (rearranges_set ho))
    (h'.rearrange (rearranges_set (ho.trans hsorted.symm))) ?_ (hset r (.inl rfl))
    (hset (r + 1) (.inr rfl))
  rw [List.length_set]
  exact Nat.lt_of_succ_lt hlt

/-- What a step does for two layers is still so after steps at other ranks. -/
theorem crossingsBelow_after_step (hp : l.IsProper)
    (hkeys : l.KeysAgree downward layers' (layers.getD (sortedRank downward r) []))
    (hexists : ∃ order, order.Perm (layers.getD (sortedRank downward r) []) ∧
      l.crossingsBelow (layers'.set (sortedRank downward r) order) r = 0) :
    l.crossingsBelow layers' r = 0 := by
  obtain ⟨order, ho, hz⟩ := hexists
  have h' := isFullOrdering_after_step h hafter
  have hstep : l.IsFullOrdering (l.reorder Float32 downward layers (sortedRank downward r)) :=
    isFullOrdering_reorder h _
  have hlength : r < (l.reorder Float32 downward layers (sortedRank downward r)).length := by
    rw [hstep.length_eq, ← h.length_eq]
    exact Nat.lt_of_succ_lt hlt
  have hrank : ∀ v ∈ layers.getD (sortedRank downward r) [],
      l.rankOf v = sortedRank downward r := fun v hv =>
    ((h.mem_getD_iff (sortedRank_lt downward hlt)).1 hv).2
  rw [crossingsBelow_congr hp hstep h' hlength (getD_after_step hr hnext hafter (.inl rfl))
    (getD_after_step hr hnext hafter (.inr rfl))]
  refine hp.crossingsBelow_eq_zero h hlt ?_ ⟨order, ho, ?_⟩
  · exact hkeys.congr hp h h' (getD_fixed_after_step hr hnext hafter) hrank
  · rwa [crossingsBelow_set_after_step h hlt hr hnext hafter hp ho] at hz

end AfterStep

/-- The step of a sweep that sorts one layer by another: what comes before it has left the first
layer, and what comes after it leaves both. -/
theorem exists_step_of_sweep (h : l.IsFullOrdering layers) (hr : r + 1 < layers.length)
    (downward : Bool) :
    ∃ (start : Layers) (after : List Nat), l.IsFullOrdering start ∧ r + 1 < start.length ∧
      start.getD (sortedRank downward r) [] = layers.getD (sortedRank downward r) [] ∧
      r ∉ after ∧ r + 1 ∉ after ∧
      after.foldl (l.reorder Float32 downward)
        (l.reorder Float32 downward start (sortedRank downward r)) =
          l.sweep Float32 downward layers := by
  obtain ⟨before, after, hranks, hbefore, hr₀, hr₁⟩ := exists_sweepRanks_eq downward hr
  have hstart : l.IsFullOrdering (before.foldl (l.reorder Float32 downward) layers) :=
    isFullOrdering_foldl_reorder h before
  refine ⟨_, after, hstart, ?_, getD_foldl_reorder hbefore, hr₀, hr₁, ?_⟩
  · rwa [hstart.length_eq, ← h.length_eq]
  · rw [sweep_eq_foldl_reorder h, hranks, List.foldl_append, List.foldl_cons]

/-- **A sweep leaves no crossing that one of its steps can avoid.** If, with the layer that the step
at a rank sorts by as it is after the sweep, nothing crosses under some order of the layer of that
rank, then nothing crosses between the two after the sweep, as long as the rounded means compare
like the means. -/
theorem crossingsBelow_sweep (hp : l.IsProper) (h : l.IsFullOrdering layers)
    (hr : r + 1 < layers.length)
    (hkeys : l.KeysAgree downward (l.sweep Float32 downward layers)
      (layers.getD (sortedRank downward r) []))
    (hexists : ∃ order, order.Perm (layers.getD (sortedRank downward r) []) ∧
      l.crossingsBelow ((l.sweep Float32 downward layers).set (sortedRank downward r) order) r =
        0) :
    l.crossingsBelow (l.sweep Float32 downward layers) r = 0 := by
  obtain ⟨start, after, hstart, hlt, hlayer, hr₀, hr₁, hsweep⟩ := exists_step_of_sweep h hr downward
  rw [← hlayer] at hkeys hexists
  exact crossingsBelow_after_step hstart hlt hr₀ hr₁ hsweep hp hkeys hexists

/-- If every step can avoid all crossings, the ordering after a sweep has none. -/
theorem crossings_sweep (hp : l.IsProper) (h : l.IsFullOrdering layers)
    (hkeys : ∀ r, r + 1 < layers.length → l.KeysAgree downward (l.sweep Float32 downward layers)
      (layers.getD (sortedRank downward r) []))
    (hexists : ∀ r, r + 1 < layers.length → ∃ order,
      order.Perm (layers.getD (sortedRank downward r) []) ∧
        l.crossingsBelow ((l.sweep Float32 downward layers).set (sortedRank downward r) order) r =
          0) :
    l.crossings (l.sweep Float32 downward layers) = 0 := by
  have hlength : (l.sweep Float32 downward layers).length = layers.length :=
    List.Forall₂.length_eq (rearranges_sweepAlong l.neighbours downward layers)
  rw [crossings_eq_sum, List.sum_eq_zero_iff_forall_eq_nat]
  intro n hn
  obtain ⟨r, hr, rfl⟩ := List.mem_map.1 hn
  have hr : r + 1 < layers.length := by
    have := List.mem_range.1 hr
    omega
  exact crossingsBelow_sweep hp h hr (hkeys r hr) (hexists r hr)

end LayeredDrawing.Layering
