import LayeredDrawing.Proofs.Coordinates.Chain
import LayeredDrawing.Proofs.Coordinates.Reflection
import Mathlib.Data.List.Forall2
import Mathlib.Order.Bounds.Basic

/-!
# How a layer that is aligned resolves its conflicts

The nodes of a layer would each like to be at the mean of their neighbours (`desired`), where they
may be too close together. Pushed right, they get the least centers that keep the gaps (`Feasible`)
with no node left of where it would like to be; pushed left, they get the greatest with no node right
of it. Every node goes to the middle between the two. If all gaps are kept where the nodes would like
to be, they are pushed neither way.

* `pushRight_le`, `le_pushLeft`: no centers that keep the gaps are closer to the wishes.
* `isLeast_pushedRight`, `isGreatest_pushedLeft`: the same of a node in its layer.
* `resolves_alignLayer`: **what aligning a layer does to the table of centers.**
-/

namespace LayeredDrawing.Coordinates

/-! ## Rows of wishes -/

section Rows

variable {sep : Rat} {u : Wish Rat} {wishes : List (Wish Rat)} {center : Rat} {centers : List Rat}

theorem center_le_pushRightOf (u : Wish Rat) (center : Rat) (wishes : List (Wish Rat)) :
    (wishes.map Wish.center).Forall₂ (· ≤ ·) (pushRightOf sep u center wishes) := by
  induction wishes generalizing u center with
  | nil => exact .nil
  | cons v wishes ih =>
    refine .cons ?_ (ih v _)
    rw [Scalar.larger_rat]
    exact le_max_left _ _

/-- Nothing that is pushed right goes left. -/
theorem center_le_pushRight (wishes : List (Wish Rat)) :
    (wishes.map Wish.center).Forall₂ (· ≤ ·) (pushRight sep wishes) := by
  cases wishes with
  | nil => exact .nil
  | cons u wishes => exact .cons le_rfl (center_le_pushRightOf u u.center wishes)

theorem apart_cons_cons {v : Wish Rat} {x y : Rat} :
    Apart sep (u :: v :: wishes) (x :: y :: centers) ↔
      x + gap sep u v ≤ y ∧ Apart sep (v :: wishes) (y :: centers) :=
  List.isChain_cons_cons

/-- A node that is not too far right does not push the others too far. -/
theorem pushRightOf_le {x : Rat} (hx : center ≤ x) (ha : Apart sep (u :: wishes) (x :: centers))
    (hle : (wishes.map Wish.center).Forall₂ (· ≤ ·) centers) :
    (pushRightOf sep u center wishes).Forall₂ (· ≤ ·) centers := by
  induction wishes generalizing u center x centers with
  | nil =>
    rw [List.forall₂_nil_left_iff.1 hle]
    exact .nil
  | cons v wishes ih =>
    obtain ⟨y, centers, hv, hrest, rfl⟩ := List.forall₂_cons_left_iff.1 hle
    obtain ⟨hgap, ha⟩ := apart_cons_cons.1 ha
    have hpushed : Scalar.larger v.center (center + gap sep u v) ≤ y := by
      rw [Scalar.larger_rat]
      refine max_le hv ?_
      linarith
    exact .cons hpushed (ih hpushed ha hrest)

/-- **No centers further left** keep the gaps with no node left of where it would like to be. -/
theorem pushRight_le (ha : Apart sep wishes centers)
    (hle : (wishes.map Wish.center).Forall₂ (· ≤ ·) centers) :
    (pushRight sep wishes).Forall₂ (· ≤ ·) centers := by
  cases wishes with
  | nil =>
    rw [List.forall₂_nil_left_iff.1 hle]
    exact .nil
  | cons u wishes =>
    obtain ⟨x, centers, hu, hrest, rfl⟩ := List.forall₂_cons_left_iff.1 hle
    exact .cons hu (pushRightOf_le hu ha hrest)

/-- Nothing that is pushed left goes right. -/
theorem pushLeft_le_center (wishes : List (Wish Rat)) :
    (pushLeft sep wishes).Forall₂ (· ≤ ·) (wishes.map Wish.center) := by
  induction wishes with
  | nil => exact .nil
  | cons u wishes ih =>
    cases wishes with
    | nil => exact .cons le_rfl .nil
    | cons v wishes =>
      obtain ⟨center, centers, e, -⟩ := exists_pushLeft sep v wishes
      rw [e] at ih
      rw [pushLeft_cons_cons e, Scalar.smaller_rat]
      exact .cons (min_le_left _ _) ih

/-- **No centers further right** keep the gaps with no node right of where it would like to be. -/
theorem le_pushLeft (ha : Apart sep wishes centers)
    (hle : centers.Forall₂ (· ≤ ·) (wishes.map Wish.center)) :
    centers.Forall₂ (· ≤ ·) (pushLeft sep wishes) := by
  induction wishes generalizing centers with
  | nil => exact hle
  | cons u wishes ih =>
    cases wishes with
    | nil => exact hle
    | cons v wishes =>
      obtain ⟨x, rest, hu, hrest, rfl⟩ := List.forall₂_cons_right_iff.1 hle
      obtain ⟨y, tail, -, -, rfl⟩ := List.forall₂_cons_right_iff.1 hrest
      obtain ⟨hgap, ha⟩ := apart_cons_cons.1 ha
      obtain ⟨center, centers, e, -⟩ := exists_pushLeft sep v wishes
      have hpushed := ih ha hrest
      rw [e] at hpushed
      -- The second node is pushed no further left than it is here, which leaves room for the first.
      have hcenter : y ≤ center := (List.forall₂_cons.1 hpushed).1
      rw [pushLeft_cons_cons e, Scalar.smaller_rat]
      refine .cons (le_min hu ?_) hpushed
      linarith

end Rows

/-! ## Nodes of a layer -/

section Nodes

variable {sep : Rat} {extent want : Nat → Rat} {layer : List Nat} {v : Nat}

/-- The centers of nodes keep the gaps of a layer; `KeepsGaps` says this of the centers in a
table. -/
def Feasible (sep : Rat) (extent : Nat → Rat) (layer : List Nat) (center : Nat → Rat) : Prop :=
  layer.IsChain fun u v => Follows sep extent (u, center u) (v, center v)

/-- The nodes of a layer with the centers that they would like to have. -/
def wishesFor (extent want : Nat → Rat) (layer : List Nat) : List (Wish Rat) :=
  layer.map fun v => ⟨extent v, want v⟩

/-- The center of a node when its layer is pushed right. -/
def pushedRight (sep : Rat) (extent want : Nat → Rat) (layer : List Nat) (v : Nat) : Rat :=
  (pushRight sep (wishesFor extent want layer)).getD (layer.idxOf v) 0

/-- The center of a node when its layer is pushed left. -/
def pushedLeft (sep : Rat) (extent want : Nat → Rat) (layer : List Nat) (v : Nat) : Rat :=
  (pushLeft sep (wishesFor extent want layer)).getD (layer.idxOf v) 0

theorem apart_iff_feasible (want center : Nat → Rat) :
    Apart sep (wishesFor extent want layer) (layer.map center) ↔
      Feasible sep extent layer center := by
  rw [Apart, wishesFor, List.zip_map', List.isChain_map]
  exact Iff.rfl

theorem map_center_wishesFor : (wishesFor extent want layer).map Wish.center = layer.map want := by
  rw [wishesFor, List.map_map]
  rfl

theorem forall₂_map_iff {f g : Nat → Rat} :
    (layer.map f).Forall₂ (· ≤ ·) (layer.map g) ↔ ∀ v ∈ layer, f v ≤ g v := by
  rw [List.forall₂_map_left_iff, List.forall₂_map_right_iff, List.forall₂_same]

theorem map_getD_idxOf (hn : layer.Nodup) {xs : List Rat} (hlen : xs.length = layer.length) :
    (layer.map fun v => xs.getD (layer.idxOf v) 0) = xs := by
  refine List.ext_getElem (by simp [hlen]) fun i hi hi' => ?_
  rw [List.getElem_map, hn.idxOf_getElem, List.getD_eq_getElem _ _ hi']

theorem map_pushedRight (hn : layer.Nodup) :
    layer.map (pushedRight sep extent want layer) = pushRight sep (wishesFor extent want layer) :=
  map_getD_idxOf hn (by simp [wishesFor])

theorem map_pushedLeft (hn : layer.Nodup) :
    layer.map (pushedLeft sep extent want layer) = pushLeft sep (wishesFor extent want layer) :=
  map_getD_idxOf hn (by simp [wishesFor])

/-- The places of a node in centers that keep the gaps of its layer, with no node of the layer left
of where it would like to be. -/
def rightPlaces (sep : Rat) (extent want : Nat → Rat) (layer : List Nat) (v : Nat) : Set Rat :=
  {x | ∃ center, Feasible sep extent layer center ∧ (∀ u ∈ layer, want u ≤ center u) ∧
    center v = x}

/-- The places of a node in centers that keep the gaps of its layer, with no node of the layer right
of where it would like to be. -/
def leftPlaces (sep : Rat) (extent want : Nat → Rat) (layer : List Nat) (v : Nat) : Set Rat :=
  {x | ∃ center, Feasible sep extent layer center ∧ (∀ u ∈ layer, center u ≤ want u) ∧
    center v = x}

theorem isLeast_pushedRight (hn : layer.Nodup) (hv : v ∈ layer) :
    IsLeast (rightPlaces sep extent want layer v) (pushedRight sep extent want layer v) := by
  constructor
  · refine ⟨pushedRight sep extent want layer, ?_, ?_, rfl⟩
    · rw [← apart_iff_feasible want, map_pushedRight hn]
      exact apart_pushRight _
    · rw [← forall₂_map_iff, map_pushedRight hn, ← map_center_wishesFor]
      exact center_le_pushRight _
  · rintro _ ⟨center, hf, hle, rfl⟩
    have hright : ((wishesFor extent want layer).map Wish.center).Forall₂ (· ≤ ·)
        (layer.map center) := by
      rw [map_center_wishesFor]
      exact forall₂_map_iff.2 hle
    have hpushed := pushRight_le ((apart_iff_feasible want center).2 hf) hright
    rw [← map_pushedRight hn, forall₂_map_iff] at hpushed
    exact hpushed v hv

theorem isGreatest_pushedLeft (hn : layer.Nodup) (hv : v ∈ layer) :
    IsGreatest (leftPlaces sep extent want layer v) (pushedLeft sep extent want layer v) := by
  constructor
  · refine ⟨pushedLeft sep extent want layer, ?_, ?_, rfl⟩
    · rw [← apart_iff_feasible want, map_pushedLeft hn]
      exact apart_pushLeft _
    · rw [← forall₂_map_iff, map_pushedLeft hn, ← map_center_wishesFor]
      exact pushLeft_le_center _
  · rintro _ ⟨center, hf, hle, rfl⟩
    have hleft : (layer.map center).Forall₂ (· ≤ ·)
        ((wishesFor extent want layer).map Wish.center) := by
      rw [map_center_wishesFor]
      exact forall₂_map_iff.2 hle
    have hpushed := le_pushLeft ((apart_iff_feasible want center).2 hf) hleft
    rw [← map_pushedLeft hn, forall₂_map_iff] at hpushed
    exact hpushed v hv

theorem le_pushedRight (hn : layer.Nodup) (hv : v ∈ layer) :
    want v ≤ pushedRight sep extent want layer v := by
  obtain ⟨center, -, hle, hcenter⟩ := (isLeast_pushedRight hn hv).1
  exact hcenter ▸ hle v hv

theorem pushedLeft_le (hn : layer.Nodup) (hv : v ∈ layer) :
    pushedLeft sep extent want layer v ≤ want v := by
  obtain ⟨center, -, hle, hcenter⟩ := (isGreatest_pushedLeft hn hv).1
  exact hcenter ▸ hle v hv

/-- Nodes that are far enough apart are pushed neither way. -/
theorem pushed_eq_of_feasible (hn : layer.Nodup) (hf : Feasible sep extent layer want)
    (hv : v ∈ layer) :
    pushedRight sep extent want layer v = want v ∧ pushedLeft sep extent want layer v = want v := by
  constructor
  · apply le_antisymm _ (le_pushedRight hn hv)
    exact (isLeast_pushedRight hn hv).2 ⟨want, hf, fun _ _ => le_rfl, rfl⟩
  · apply le_antisymm (pushedLeft_le hn hv)
    exact (isGreatest_pushedLeft hn hv).2 ⟨want, hf, fun _ _ => le_rfl, rfl⟩

end Nodes

/-! ## The table of centers -/

section Table

variable {sep : Rat} {extent want : Nat → Rat} {neighbours : Nat → List Nat} {cross : Array Rat}
  {layer : List Nat} {v : Nat}

/-- The center that a node would like to have, over the exact numbers: the mean of the centers of
its neighbours, or its own if it has none. -/
def desired (neighbours : Nat → List Nat) (cross : Array Rat) (v : Nat) : Rat :=
  if neighbours v = [] then get cross v
  else ((neighbours v).map (get cross)).sum / (neighbours v).length

theorem wish_eq_desired : wish neighbours cross v = desired neighbours cross v := by
  unfold wish desired
  cases neighbours v with
  | nil => rfl
  | cons u us =>
    rw [if_neg (List.cons_ne_nil u us), List.map_cons, Scalar.mean?_cons, Option.getD_some,
      List.length_cons, List.length_cons, List.length_map]

theorem map_get_alignLayer {a : Alignment Rat} (hn : layer.Nodup)
    (hlt : ∀ v ∈ layer, v < a.cross.size) :
    layer.map (get (alignLayer sep extent neighbours a layer).cross) =
      resolve sep (wishesFor extent (desired neighbours a.cross) layer) := by
  have hcenters : centersIn (alignLayer sep extent neighbours a layer).cross layer = _ :=
    centersIn_alignLayer hn hlt
  have hsecond := congrArg (List.map (·.2)) hcenters
  rw [map_snd_aligned, centersIn, List.map_map] at hsecond
  simp only [wish_eq_desired] at hsecond
  exact hsecond

/-- What the alignment of a layer makes of the centers that its nodes would like to have. -/
structure Resolves (sep : Rat) (extent want : Nat → Rat) (layer : List Nat) (center : Nat → Rat) :
    Prop where
  /-- All nodes keep the gaps of the layer. -/
  feasible : Feasible sep extent layer center
  isGreatest_left : ∀ v ∈ layer,
    IsGreatest (leftPlaces sep extent want layer v) (pushedLeft sep extent want layer v)
  isLeast_right : ∀ v ∈ layer,
    IsLeast (rightPlaces sep extent want layer v) (pushedRight sep extent want layer v)
  center_eq : ∀ v ∈ layer, center v =
    (pushedRight sep extent want layer v + pushedLeft sep extent want layer v) / 2
  /-- The new center of a node is between the two places it is pushed to, as is the one that it
  would like to have. -/
  mem_Icc : ∀ v ∈ layer,
    center v ∈ Set.Icc (pushedLeft sep extent want layer v) (pushedRight sep extent want layer v) ∧
    want v ∈ Set.Icc (pushedLeft sep extent want layer v) (pushedRight sep extent want layer v)
  /-- Without conflicts all nodes get the centers that they would like to have. -/
  eq_of_feasible : Feasible sep extent layer want → ∀ v ∈ layer, center v = want v

theorem resolves_of_map_eq {center : Nat → Rat} (hn : layer.Nodup)
    (h : layer.map center = resolve sep (wishesFor extent want layer)) :
    Resolves sep extent want layer center := by
  have hmiddle : ∀ v ∈ layer, center v =
      (pushedRight sep extent want layer v + pushedLeft sep extent want layer v) / 2 := by
    rw [resolve, ← map_pushedRight hn, ← map_pushedLeft hn, List.zipWith_map, List.zipWith_self]
      at h
    exact List.map_inj_left.1 h
  refine ⟨?_, fun v => isGreatest_pushedLeft hn, fun v => isLeast_pushedRight hn, hmiddle,
    fun v hv => ?_, fun hf v hv => ?_⟩
  · rw [← apart_iff_feasible want, h]
    exact apart_resolve _
  · have hleft : pushedLeft sep extent want layer v ≤ want v := pushedLeft_le hn hv
    have hright : want v ≤ pushedRight sep extent want layer v := le_pushedRight hn hv
    refine ⟨⟨?_, ?_⟩, hleft, hright⟩
    · rw [hmiddle v hv]
      linarith
    · rw [hmiddle v hv]
      linarith
  · obtain ⟨hright, hleft⟩ := pushed_eq_of_feasible hn hf hv
    rw [hmiddle v hv, hright, hleft]
    ring

/-- **Aligning a layer.** Take a layer without repeated nodes, any extents and distance, the
neighbours in either direction of any graph, and any table that has the centers of the layer. Only
nodes of the layer move. They are then as far apart as they have to be, each in the middle between
the places that it is pushed to from the mean of its neighbours, to the right and to the left, and
exactly at the mean if all gaps are kept there. -/
theorem resolves_alignLayer {a : Alignment Rat} (hn : layer.Nodup)
    (hlt : ∀ v ∈ layer, v < a.cross.size) :
    (alignLayer sep extent neighbours a layer).cross.size = a.cross.size ∧
      (∀ v ∉ layer, get (alignLayer sep extent neighbours a layer).cross v = get a.cross v) ∧
      Resolves sep extent (desired neighbours a.cross) layer
        (get (alignLayer sep extent neighbours a layer).cross) :=
  ⟨size_alignLayer, fun _ => get_alignLayer_of_not_mem,
    resolves_of_map_eq hn (map_get_alignLayer hn hlt)⟩

/-- Two children of one node, which are in each other's way, and a node without neighbours. -/
theorem resolves_alignLayer_siblings :
    let g : Digraph := .ofArcs 4 [⟨0, 1⟩, ⟨0, 2⟩]
    let cross : Array Rat := #[10, 0, 0, 50]
    let layer := [1, 2, 3]
    let new := (alignLayer 2 (fun _ => 4) g.predecessorTable.at ⟨cross, false⟩ layer).cross
    new = #[10, 7, 13, 50] ∧ new.size = cross.size ∧ (∀ v ∉ layer, get new v = get cross v) ∧
      Resolves 2 (fun _ => 4) (desired g.predecessorTable.at cross) layer (get new) := by
  intro g cross layer new
  exact ⟨by decide +kernel, resolves_alignLayer (by decide) (by decide)⟩

end Table

end LayeredDrawing.Coordinates
