import LayeredDrawing.Proofs.Coordinates.Frame
import LayeredDrawing.Proofs.Hull
import Mathlib.Algebra.Order.BigOperators.Group.List

/-!
# How far a drawing reaches in the frame of its ranks

Every rank starts where the thicknesses of the ranks before it and the gaps after them have added
up to (`getElem?_stackRanks`). The thickest nodes of the first and of the last rank reach to the
ends of their ranks, and the last shift puts a node on the margin of the cross axis; on three
sides a drawing therefore reaches as far as it is said to, and no further.

* `isLeast_minX_frameBox`: the cross axis starts on its margin.
* `isLeast_minY_frameBox`, `isGreatest_maxY_frameBox`: **the rank axis starts on its margin and
  ends after the thicknesses of all ranks and the gaps between them.**
-/

namespace LayeredDrawing

namespace Scalar

theorem isLeast_foldl_smaller (xs : List Rat) (m : Rat) :
    IsLeast {x | x ∈ m :: xs} (xs.foldl smaller m) := by
  induction xs generalizing m with
  | nil => simp
  | cons y xs ih =>
    obtain ⟨hmem, hle⟩ := ih (min m y)
    rw [List.foldl_cons, smaller_rat]
    refine ⟨?_, ?_⟩
    · rcases List.mem_cons.1 hmem with h | h
      · rcases min_choice m y with e | e
        · exact List.mem_cons.2 (.inl (h.trans e))
        · exact List.mem_cons_of_mem _ (List.mem_cons.2 (.inl (h.trans e)))
      · exact List.mem_cons_of_mem _ (List.mem_cons_of_mem _ h)
    · have hmin : xs.foldl smaller (min m y) ≤ min m y := hle List.mem_cons_self
      intro x hx
      rcases List.mem_cons.1 hx with rfl | hx
      · exact hmin.trans (min_le_left _ _)
      · rcases List.mem_cons.1 hx with rfl | hx
        · exact hmin.trans (min_le_right _ _)
        · exact hle (List.mem_cons_of_mem _ hx)

theorem foldl_larger_mem (xs : List Rat) (m : Rat) : xs.foldl larger m ∈ m :: xs := by
  induction xs generalizing m with
  | nil => simp
  | cons y xs ih =>
    rw [List.foldl_cons, larger_rat]
    rcases List.mem_cons.1 (ih (max m y)) with h | h
    · rw [h]
      rcases max_choice m y with e | e <;> simp [e]
    · simp [h]

/-- Of numbers that are not negative, the greatest is one of them. -/
theorem isGreatest_largest {xs : List Rat} (hne : xs ≠ []) (h : ∀ x ∈ xs, 0 ≤ x) :
    IsGreatest {x | x ∈ xs} (largest xs) := by
  refine ⟨?_, fun x hx => le_largest hx⟩
  rcases List.mem_cons.1 (foldl_larger_mem xs zero) with e | hmem
  · obtain ⟨x, hx⟩ := List.exists_mem_of_ne_nil xs hne
    have hx0 : x = largest xs := by
      rw [largest, e]
      exact le_antisymm (e ▸ le_largest hx) (h x hx)
    exact hx0 ▸ hx
  · exact hmem

end Scalar

namespace Coordinates

/-! ## Where the ranks lie -/

theorem getElem?_stackBelow (sep : Rat) {ts : List Rat} {r : Nat} {t : Rat}
    (h : ts[r]? = some t) (cursor : Rat) :
    (stackBelow sep cursor ts).1[r]? =
      some (cursor + (ts.take r).sum + sep * (r + 1) + t / 2) := by
  induction ts generalizing r cursor with
  | nil => simp at h
  | cons t' ts ih =>
    cases r with
    | zero =>
      obtain rfl : t' = t := by simpa using h
      simp [stackBelow]
    | succ r =>
      rw [stackBelow, List.getElem?_cons_succ, ih (by simpa using h)]
      simp only [List.take_succ_cons, List.sum_cons, Nat.cast_add, Nat.cast_one]
      congr 1
      ring

/-- The center of a rank: after the ranks before it and a gap after each of them. -/
theorem getElem?_stackRanks (sep margin : Rat) {ts : List Rat} {r : Nat} {t : Rat}
    (h : ts[r]? = some t) :
    (stackRanks sep margin ts).1[r]? = some (margin + (ts.take r).sum + sep * r + t / 2) := by
  cases ts with
  | nil => simp at h
  | cons t' ts =>
    cases r with
    | zero =>
      obtain rfl : t' = t := by simpa using h
      simp [stackRanks]
    | succ r =>
      rw [stackRanks, List.getElem?_cons_succ, getElem?_stackBelow sep (by simpa using h)]
      simp only [List.take_succ_cons, List.sum_cons, Nat.cast_add, Nat.cast_one]
      congr 1
      ring

theorem snd_stackBelow (sep cursor : Rat) (ts : List Rat) :
    (stackBelow sep cursor ts).2 = cursor + ts.sum + sep * ts.length := by
  induction ts generalizing cursor with
  | nil => simp [stackBelow]
  | cons t ts ih =>
    rw [stackBelow, ih]
    simp only [List.sum_cons, List.length_cons, Nat.cast_add, Nat.cast_one]
    ring

/-- The end of the last rank. -/
theorem snd_stackRanks (sep margin : Rat) {ts : List Rat} (h : ts ≠ []) :
    (stackRanks sep margin ts).2 = margin + ts.sum + sep * (ts.length - 1) := by
  cases ts with
  | nil => exact absurd rfl h
  | cons t ts =>
    rw [stackRanks, snd_stackBelow]
    simp only [List.sum_cons, List.length_cons, Nat.cast_add, Nat.cast_one]
    ring

/-! ## The outermost boxes of the frame -/

section Boxes

variable {layers : Layers} {extents : Array (Size Rat)} {g : Digraph} {spacing : Spacing Rat}

/-- The box of a node in the frame of the ranks. -/
def frameBox (layers : Layers) (extents : Array (Size Rat)) (g : Digraph) (spacing : Spacing Rat)
    (v : Nat) : Box Rat :=
  .ofCenter ((assign layers extents g spacing).centers.getD v Point.origin)
    ⟨widthOf extents v, heightOf extents v⟩

theorem heightOf_nonneg (he : ∀ s ∈ extents, 0 ≤ s.height) (v : Nat) :
    0 ≤ heightOf extents v :=
  forall_heightOf (by simp) he v

theorem sum_take_le {ts : List Rat} (h : ∀ t ∈ ts, 0 ≤ t) (n : Nat) :
    (ts.take n).sum ≤ ts.sum :=
  (List.take_sublist n ts).sum_le_sum h

theorem thicknesses_nonneg (extents : Array (Size Rat)) (layers : Layers) :
    ∀ t ∈ thicknesses extents layers, 0 ≤ t := by
  intro t ht
  obtain ⟨layer, -, rfl⟩ := List.mem_map.1 ht
  exact Scalar.largest_nonneg _

/-- The thickness of a rank is the extent of one of its nodes. -/
theorem isGreatest_thickness (he : ∀ s ∈ extents, 0 ≤ s.height) {layer : List Nat}
    (hne : layer ≠ []) :
    IsGreatest {h | h ∈ layer.map (heightOf extents)}
      (Scalar.largest (layer.map (heightOf extents))) :=
  Scalar.isGreatest_largest (by simpa using hne) fun x hx => by
    obtain ⟨v, -, rfl⟩ := List.mem_map.1 hx
    exact heightOf_nonneg he v

theorem sum_take_add_thickness (extents : Array (Size Rat)) {r : Nat} {layer : List Nat}
    (hr : layers[r]? = some layer) :
    ((thicknesses extents layers).take r).sum + Scalar.largest (layer.map (heightOf extents)) =
      ((thicknesses extents layers).take (r + 1)).sum := by
  obtain ⟨hlt, rfl⟩ := List.getElem?_eq_some_iff.1 hr
  rw [List.sum_take_succ _ r (by simpa [thicknesses] using hlt)]
  simp [thicknesses]

variable (extents g spacing) in
/-- The last shift is measured from the least edge of a box. -/
theorem exists_offset_eq (hne : layers.flatten ≠ []) :
    ∃ edge, offset layers extents g spacing = spacing.crossMargin - edge ∧
      IsLeast {x | x ∈ layers.flatten.map fun v =>
        get (crossTable layers extents g spacing) v - widthOf extents v / 2} edge := by
  rw [offset, shift]
  cases h : layers.flatten with
  | nil => exact absurd h hne
  | cons v vs => exact ⟨_, by simp [Scalar.least?], Scalar.isLeast_foldl_smaller _ _⟩

variable (hn : layers.flatten.Nodup) (hlt : ∀ v ∈ layers.flatten, v < extents.size)

include hn hlt

theorem minX_frameBox {v : Nat} (hv : v ∈ layers.flatten) :
    (frameBox layers extents g spacing v).minX =
      get (crossTable layers extents g spacing) v - widthOf extents v / 2 +
        offset layers extents g spacing := by
  simp only [frameBox, Box.ofCenter, Scalar.half_rat, x_getD_centers_assign g spacing hn hlt hv]
  ring

theorem maxX_frameBox {v : Nat} (hv : v ∈ layers.flatten) :
    (frameBox layers extents g spacing v).maxX =
      get (crossTable layers extents g spacing) v + widthOf extents v / 2 +
        offset layers extents g spacing := by
  simp only [frameBox, Box.ofCenter, Scalar.half_rat, x_getD_centers_assign g spacing hn hlt hv]
  ring

/-- The cross axis starts on its margin. -/
theorem isLeast_minX_frameBox (hne : layers.flatten ≠ []) :
    IsLeast (Box.minX '' (frameBox layers extents g spacing '' {v | v ∈ layers.flatten}))
      spacing.crossMargin := by
  obtain ⟨edge, hedge, hleast⟩ := exists_offset_eq extents g spacing hne
  obtain ⟨hmem, hle⟩ := hleast
  refine ⟨?_, ?_⟩
  · obtain ⟨v, hv, e⟩ := List.mem_map.1 hmem
    refine ⟨_, ⟨v, hv, rfl⟩, ?_⟩
    rw [minX_frameBox hn hlt hv, hedge, e]
    ring
  · rintro _ ⟨_, ⟨v, hv, rfl⟩, rfl⟩
    have := hle (List.mem_map_of_mem hv)
    rw [minX_frameBox hn hlt hv, hedge]
    linarith

/-- The center of a node lies in the middle of its rank. -/
theorem y_frameBox {r v : Nat} {layer : List Nat} (hr : layers[r]? = some layer) (hv : v ∈ layer) :
    ((assign layers extents g spacing).centers.getD v Point.origin).y =
      spacing.rankMargin + ((thicknesses extents layers).take r).sum + spacing.rankSep * r +
        Scalar.largest (layer.map (heightOf extents)) / 2 := by
  have ht : (thicknesses extents layers)[r]? =
      some (Scalar.largest (layer.map (heightOf extents))) := by simp [thicknesses, hr]
  have hy : (rankCenters layers extents spacing)[r]? = some _ :=
    getElem?_stackRanks spacing.rankSep spacing.rankMargin ht
  rw [getD_centers_assign g spacing hn hlt hr hy hv]

variable (he : ∀ s ∈ extents, 0 ≤ s.height) (hs : 0 ≤ spacing.rankSep)
  (hne : ∀ layer ∈ layers, layer ≠ []) (hpos : layers ≠ [])

include he hs hne hpos

/-- The rank axis starts on its margin. -/
theorem isLeast_minY_frameBox :
    IsLeast (Box.minY '' (frameBox layers extents g spacing '' {v | v ∈ layers.flatten}))
      spacing.rankMargin := by
  refine ⟨?_, ?_⟩
  · obtain ⟨first, rest, rfl⟩ := List.exists_cons_of_ne_nil hpos
    obtain ⟨hmem, -⟩ := isGreatest_thickness he (hne first List.mem_cons_self)
    obtain ⟨v, hv, e⟩ := List.mem_map.1 hmem
    refine ⟨_, ⟨v, List.mem_flatten.2 ⟨first, List.mem_cons_self, hv⟩, rfl⟩, ?_⟩
    simp only [frameBox, Box.ofCenter, Scalar.half_rat,
      y_frameBox hn hlt (List.getElem?_cons_zero ..) hv, e]
    simp
  · rintro _ ⟨_, ⟨v, hv, rfl⟩, rfl⟩
    obtain ⟨layer, hl, hv⟩ := List.mem_flatten.1 hv
    obtain ⟨r, hr⟩ := List.mem_iff_getElem?.1 hl
    have hthick := (isGreatest_thickness he (hne layer hl)).2 (List.mem_map_of_mem hv)
    have hsum : 0 ≤ ((thicknesses extents layers).take r).sum :=
      List.sum_nonneg fun t ht => thicknesses_nonneg extents layers t (List.mem_of_mem_take ht)
    have hgaps : 0 ≤ spacing.rankSep * r := mul_nonneg hs (Nat.cast_nonneg r)
    simp only [frameBox, Box.ofCenter, Scalar.half_rat, y_frameBox hn hlt hr hv]
    linarith

/-- The rank axis ends after the thicknesses of all ranks and the gaps between them. -/
theorem isGreatest_maxY_frameBox :
    IsGreatest (Box.maxY '' (frameBox layers extents g spacing '' {v | v ∈ layers.flatten}))
      (spacing.rankMargin + (thicknesses extents layers).sum +
        spacing.rankSep * (layers.length - 1)) := by
  refine ⟨?_, ?_⟩
  · obtain ⟨r, hlen⟩ : ∃ r, layers.length = r + 1 :=
      Nat.exists_eq_succ_of_ne_zero (mt List.length_eq_zero_iff.1 hpos)
    obtain ⟨layer, hr⟩ : ∃ layer, layers[r]? = some layer :=
      ⟨_, List.getElem?_eq_getElem (by omega)⟩
    have hl := List.mem_of_getElem? hr
    obtain ⟨v, hv, e⟩ := List.mem_map.1 (isGreatest_thickness he (hne layer hl)).1
    refine ⟨_, ⟨v, List.mem_flatten.2 ⟨layer, hl, hv⟩, rfl⟩, ?_⟩
    have hall : (thicknesses extents layers).take (r + 1) = thicknesses extents layers :=
      List.take_of_length_le (by simp [thicknesses, hlen])
    have hsum := hall ▸ sum_take_add_thickness extents hr
    simp only [frameBox, Box.ofCenter, Scalar.half_rat, y_frameBox hn hlt hr hv, e, hlen,
      Nat.cast_add, Nat.cast_one, add_sub_cancel_right]
    linarith
  · rintro _ ⟨_, ⟨v, hv, rfl⟩, rfl⟩
    obtain ⟨layer, hl, hv⟩ := List.mem_flatten.1 hv
    obtain ⟨r, hr⟩ := List.mem_iff_getElem?.1 hl
    have hthick := (isGreatest_thickness he (hne layer hl)).2 (List.mem_map_of_mem hv)
    have hsum := sum_take_add_thickness extents hr
    have htake := sum_take_le (thicknesses_nonneg extents layers) (r + 1)
    have hgaps : spacing.rankSep * r ≤ spacing.rankSep * (layers.length - 1) := by
      have hlt : r + 1 ≤ layers.length := (List.getElem?_eq_some_iff.1 hr).1
      have hcast : (r : Rat) + 1 ≤ layers.length := by exact_mod_cast hlt
      exact mul_le_mul_of_nonneg_left (by linarith) hs
    simp only [frameBox, Box.ofCenter, Scalar.half_rat, y_frameBox hn hlt hr hv]
    linarith

end Boxes

end Coordinates

end LayeredDrawing
