import LayeredDrawing.Proofs.Coordinates.Alignment
import Mathlib.Tactic.Ring

/-!
# Nodes are apart in the frame of the ranks

The frame takes the centers along the cross axis from the alignment, all shifted by the same
offset, and those along the rank axis from the stack of the ranks. A node between two others has
no negative extent, so that the gaps between neighbours add up to gaps between any two nodes of a
layer (`beside_assign`) and between the nodes of any two ranks (`ahead_assign`).
-/

namespace LayeredDrawing

/-- A chain whose members pass the relation on is related pairwise. -/
theorem pairwise_of_isChain {α : Type} {R : α → α → Prop} {l : List α} (h : l.IsChain R)
    (ht : ∀ a, ∀ b ∈ l, ∀ c, R a b → R b c → R a c) : l.Pairwise R := by
  induction l with
  | nil => exact .nil
  | cons a l ih =>
    have hl : l.Pairwise R := ih h.tail fun x y hy => ht x y (List.mem_cons_of_mem a hy)
    refine List.pairwise_cons.2 ⟨fun c hc => ?_, hl⟩
    cases l with
    | nil => simp at hc
    | cons b l =>
      have hab : R a b := (List.isChain_cons_cons.1 h).1
      rcases List.mem_cons.1 hc with rfl | hc
      · exact hab
      · exact ht a b (by simp) c hab (List.rel_of_pairwise_cons hl hc)

namespace Coordinates

/-! ## The centers of the frame -/

section Centers

variable {α : Type} [Scalar α]

/-- The extent of a node along the cross axis. -/
def widthOf (extents : Array (Size α)) (v : Nat) : α :=
  (extents[v]?.map Size.width).getD Scalar.zero

/-- The extent of a node along the rank axis. -/
def heightOf (extents : Array (Size α)) (v : Nat) : α :=
  (extents[v]?.map Size.height).getD Scalar.zero

theorem forall_widthOf {P : α → Prop} {extents : Array (Size α)} (hz : P Scalar.zero)
    (he : ∀ s ∈ extents, P s.width) (v : Nat) : P (widthOf extents v) := by
  cases h : extents[v]? with
  | none => simpa [widthOf, h] using hz
  | some s => simpa [widthOf, h] using he s (Array.mem_of_getElem? h)

theorem forall_heightOf {P : α → Prop} {extents : Array (Size α)} (hz : P Scalar.zero)
    (he : ∀ s ∈ extents, P s.height) (v : Nat) : P (heightOf extents v) := by
  cases h : extents[v]? with
  | none => simpa [heightOf, h] using hz
  | some s => simpa [heightOf, h] using he s (Array.mem_of_getElem? h)

/-- The extent of each rank along the rank axis. -/
def thicknesses (extents : Array (Size α)) (layers : Layers) : List α :=
  layers.map fun layer => Scalar.largest (layer.map (heightOf extents))

theorem length_stackBelow (sep cursor : α) (ts : List α) :
    (stackBelow sep cursor ts).1.length = ts.length := by
  induction ts generalizing cursor with
  | nil => rfl
  | cons t ts ih => simp [stackBelow, ih]

theorem length_stackRanks (sep margin : α) (ts : List α) :
    (stackRanks sep margin ts).1.length = ts.length := by
  cases ts with
  | nil => rfl
  | cons t ts => simp [stackRanks, length_stackBelow]

variable (layers : Layers) (extents : Array (Size α)) (g : Digraph) (spacing : Spacing α)

/-- The centers along the cross axis before the last shift. -/
def crossTable : Array α :=
  alignLayers spacing.nodeSep (widthOf extents) g.predecessorTable.at g.successorTable.at layers
    spacing.alignmentPasses (packLayers spacing.nodeSep (widthOf extents) extents.size layers)

/-- The last shift along the cross axis. -/
def offset : α :=
  shift spacing.crossMargin (widthOf extents) layers (crossTable layers extents g spacing)

/-- The centers of the ranks along the rank axis. -/
def rankCenters : List α :=
  (stackRanks spacing.rankSep spacing.rankMargin (thicknesses extents layers)).1

variable {layers} in
theorem exists_rankCenter {r : Nat} {layer : List Nat} (hr : layers[r]? = some layer) :
    ∃ y, (rankCenters layers extents spacing)[r]? = some y := by
  have hlt := (List.getElem?_eq_some_iff.1 hr).1
  refine ⟨_, List.getElem?_eq_getElem ?_⟩
  simpa [rankCenters, length_stackRanks, thicknesses] using hlt

/-- The centers of the frame as they are written. -/
def frameEntries : List (Nat × Point α) :=
  (layers.zip (rankCenters layers extents spacing)).flatMap fun p => p.1.map fun v =>
    (v, ⟨get (crossTable layers extents g spacing) v + offset layers extents g spacing, p.2⟩)

theorem centers_assign :
    (assign layers extents g spacing).centers =
      setAll (Array.replicate extents.size Point.origin)
        (frameEntries layers extents g spacing) := by
  rw [frameEntries, setAll, List.foldl_flatMap]
  simp only [List.foldl_map]
  rfl

theorem map_fst_frameEntries :
    (frameEntries layers extents g spacing).map (·.1) = layers.flatten := by
  have hlen : layers.length ≤ (rankCenters layers extents spacing).length := by
    simp [rankCenters, length_stackRanks, thicknesses]
  conv_rhs => rw [← List.map_fst_zip hlen]
  simp [frameEntries, List.flatMap_def, Function.comp_def]

variable {layers} {extents} in
/-- Each layer has, before the last shift, the centers of one that is packed or aligned. -/
theorem laid_crossTable (hn : layers.flatten.Nodup)
    (hlt : ∀ v ∈ layers.flatten, v < extents.size) :
    Laid spacing.nodeSep (widthOf extents) layers extents.size
      (crossTable layers extents g spacing) :=
  (laid_packLayers hn hlt).alignLayers hn hlt

variable {layers} {extents} in
/-- The center of a node of the rank at an index. -/
theorem getD_centers_assign (hn : layers.flatten.Nodup)
    (hlt : ∀ v ∈ layers.flatten, v < extents.size) {r v : Nat} {layer : List Nat} {y : α}
    (hr : layers[r]? = some layer) (hy : (rankCenters layers extents spacing)[r]? = some y)
    (hv : v ∈ layer) :
    (assign layers extents g spacing).centers.getD v Point.origin =
      ⟨get (crossTable layers extents g spacing) v + offset layers extents g spacing, y⟩ := by
  have hmem : (layer, y) ∈ layers.zip (rankCenters layers extents spacing) := by
    refine List.mem_iff_getElem?.2 ⟨r, ?_⟩
    simp [List.getElem?_zip_eq_some, hr, hy]
  have hflat : v ∈ layers.flatten := List.mem_flatten.2 ⟨layer, List.mem_of_getElem? hr, hv⟩
  rw [centers_assign]
  refine getD_setAll ?_ ?_ (by simpa using hlt v hflat)
  · rwa [map_fst_frameEntries]
  · exact List.mem_flatMap.2 ⟨_, hmem, List.mem_map.2 ⟨v, hv, rfl⟩⟩

variable {layers} {extents} in
/-- All nodes are shifted along the cross axis by the same offset. -/
theorem x_getD_centers_assign (hn : layers.flatten.Nodup)
    (hlt : ∀ v ∈ layers.flatten, v < extents.size) {v : Nat} (hv : v ∈ layers.flatten) :
    ((assign layers extents g spacing).centers.getD v Point.origin).x =
      get (crossTable layers extents g spacing) v + offset layers extents g spacing := by
  obtain ⟨layer, hl, hv⟩ := List.mem_flatten.1 hv
  obtain ⟨r, hr⟩ := List.mem_iff_getElem?.1 hl
  obtain ⟨y, hy⟩ := exists_rankCenter extents spacing hr
  rw [getD_centers_assign g spacing hn hlt hr hy hv]

variable {layers} {extents} in
/-- The nodes of one rank have the same place along the rank axis. -/
theorem y_getD_centers_assign (hn : layers.flatten.Nodup)
    (hlt : ∀ v ∈ layers.flatten, v < extents.size) {u v : Nat} {layer : List Nat}
    (hl : layer ∈ layers) (hu : u ∈ layer) (hv : v ∈ layer) :
    ((assign layers extents g spacing).centers.getD u Point.origin).y =
      ((assign layers extents g spacing).centers.getD v Point.origin).y := by
  obtain ⟨r, hr⟩ := List.mem_iff_getElem?.1 hl
  obtain ⟨y, hy⟩ := exists_rankCenter extents spacing hr
  rw [getD_centers_assign g spacing hn hlt hr hy hu, getD_centers_assign g spacing hn hlt hr hy hv]

end Centers

/-! ## The stack of the ranks -/

/-- Each rank starts at the given distance from the end of the rank before. -/
theorem isChain_stackBelow (sep : Rat) {t y cursor : Rat} (hc : cursor = y + t / 2)
    (ts : List Rat) :
    ((t, y) :: ts.zip (stackBelow sep cursor ts).1).IsChain
      fun p q => p.2 + p.1 / 2 + sep = q.2 - q.1 / 2 := by
  induction ts generalizing t y cursor with
  | nil => exact .singleton _
  | cons t' ts ih =>
    refine List.isChain_cons_cons.2 ⟨?_, ih ?_⟩
    · simp only [Scalar.half_rat, hc]
      ring
    · simp only [Scalar.half_rat]
      ring

theorem isChain_stackRanks (sep margin : Rat) (ts : List Rat) :
    (ts.zip (stackRanks sep margin ts).1).IsChain
      fun p q => p.2 + p.1 / 2 + sep = q.2 - q.1 / 2 := by
  cases ts with
  | nil => exact .nil
  | cons t ts =>
    refine isChain_stackBelow sep ?_ ts
    simp only [Scalar.half_rat]
    ring

/-! ## Gaps between any two nodes -/

section Gaps

variable {layers : Layers} {extents : Array (Size Rat)} {g : Digraph} {spacing : Spacing Rat}

theorem widthOf_nonneg (he : ∀ s ∈ extents, 0 ≤ s.width) (v : Nat) : 0 ≤ widthOf extents v :=
  forall_widthOf (by simp) he v

/-- Any two ranks of a stack are apart. -/
theorem stackRanks_apart {sep margin : Rat} {ts : List Rat} (hs : 0 ≤ sep)
    (ht : ∀ t ∈ ts, 0 ≤ t) {i j : Nat} (hij : i < j) {t t' y y' : Rat} (hi : ts[i]? = some t)
    (hj : ts[j]? = some t') (hy : (stackRanks sep margin ts).1[i]? = some y)
    (hy' : (stackRanks sep margin ts).1[j]? = some y') :
    y + t / 2 + sep ≤ y' - t' / 2 := by
  have hpair : (ts.zip (stackRanks sep margin ts).1).Pairwise
      fun p q => p.2 + p.1 / 2 + sep ≤ q.2 - q.1 / 2 := by
    refine pairwise_of_isChain ((isChain_stackRanks sep margin ts).imp fun p q h => h.le) ?_
    rintro p ⟨t, y⟩ hq r h₁ h₂
    have := ht t (List.of_mem_zip hq).1
    simp only at h₁ h₂
    linarith
  obtain ⟨hi, rfl⟩ := List.getElem?_eq_some_iff.1 hi
  obtain ⟨hj, rfl⟩ := List.getElem?_eq_some_iff.1 hj
  obtain ⟨hyi, rfl⟩ := List.getElem?_eq_some_iff.1 hy
  obtain ⟨hyj, rfl⟩ := List.getElem?_eq_some_iff.1 hy'
  have h := List.pairwise_iff_getElem.1 hpair i j (by rw [List.length_zip]; omega)
    (by rw [List.length_zip]; omega) hij
  simpa only [List.getElem_zip] using h

variable (hn : layers.flatten.Nodup) (hlt : ∀ v ∈ layers.flatten, v < extents.size)

include hn hlt

theorem spaced_crossTable :
    Spaced spacing.nodeSep (widthOf extents) layers extents.size
      (crossTable layers extents g spacing) :=
  (laid_crossTable g spacing hn hlt).spaced

/-- **Two nodes of one rank are apart along the cross axis.** -/
theorem beside_assign (hs : 0 ≤ spacing.nodeSep) (he : ∀ s ∈ extents, 0 ≤ s.width)
    {layer : List Nat} (hl : layer ∈ layers) :
    layer.Pairwise fun u v =>
      ((assign layers extents g spacing).centers.getD u Point.origin).x +
          widthOf extents u / 2 + spacing.nodeSep ≤
        ((assign layers extents g spacing).centers.getD v Point.origin).x -
          widthOf extents v / 2 := by
  obtain ⟨r, hr⟩ := List.mem_iff_getElem?.1 hl
  obtain ⟨y, hy⟩ := exists_rankCenter extents spacing hr
  have hspaced : Spaced spacing.nodeSep (widthOf extents) layers extents.size
      (crossTable layers extents g spacing) := spaced_crossTable hn hlt
  have hpair := pairwise_of_isChain (hspaced.keepsGaps layer hl) fun u v _ w h₁ h₂ => by
    have := widthOf_nonneg he v
    simp only [Follows] at h₁ h₂ ⊢
    linarith
  refine hpair.imp_of_mem fun {u v} hu hv h => ?_
  rw [getD_centers_assign g spacing hn hlt hr hy hu,
    getD_centers_assign g spacing hn hlt hr hy hv]
  simp only [Follows] at h ⊢
  linarith

/-- **Nodes of two ranks are apart along the rank axis.** -/
theorem ahead_assign (hs : 0 ≤ spacing.rankSep) {i j u v : Nat} (hij : i < j)
    {layer layer' : List Nat} (hi : layers[i]? = some layer) (hj : layers[j]? = some layer')
    (hu : u ∈ layer) (hv : v ∈ layer') :
    ((assign layers extents g spacing).centers.getD u Point.origin).y +
        heightOf extents u / 2 + spacing.rankSep ≤
      ((assign layers extents g spacing).centers.getD v Point.origin).y -
        heightOf extents v / 2 := by
  obtain ⟨y, hy⟩ := exists_rankCenter extents spacing hi
  obtain ⟨y', hy'⟩ := exists_rankCenter extents spacing hj
  have hranks : y + Scalar.largest (layer.map (heightOf extents)) / 2 + spacing.rankSep ≤
      y' - Scalar.largest (layer'.map (heightOf extents)) / 2 := by
    have hts : ∀ t ∈ thicknesses extents layers, 0 ≤ t := by
      rintro t ht
      obtain ⟨layer, -, rfl⟩ := List.mem_map.1 ht
      exact Scalar.largest_nonneg _
    exact stackRanks_apart hs hts hij (by simp [thicknesses, hi]) (by simp [thicknesses, hj]) hy hy'
  have hu' := Scalar.le_largest (List.mem_map_of_mem hu (f := heightOf extents))
  have hv' := Scalar.le_largest (List.mem_map_of_mem hv (f := heightOf extents))
  rw [getD_centers_assign g spacing hn hlt hi hy hu,
    getD_centers_assign g spacing hn hlt hj hy' hv]
  simp only
  linarith

end Gaps

end Coordinates

end LayeredDrawing
