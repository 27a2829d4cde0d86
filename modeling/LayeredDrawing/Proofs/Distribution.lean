import LayeredDrawing.Arrange
import LayeredDrawing.Proofs.KeyedList
import LayeredDrawing.Proofs.Layout
import LayeredDrawing.Proofs.Number.Products

/-!
# Distribution along an axis

Nodes are sorted by a coordinate, in the order given where coordinates tie, and then put at the
multiples of a distance from the first one. The order of coordinates is total, although numbers do
not compare with what is no number, and the zeros of both signs tie (`coordinateLE_total`,
`coordinateLE_trans`).

* `distributeNodes_stable`: **nodes are spread in a stable order and are only moved.**
* `distributeNodes_distributeNodes`: **a second distribution changes nothing**, since the places at
  multiples of a distance do not decrease, rounded and beyond the range of the format as well.
-/

namespace LayeredDrawing

open Single

/-! ## The order of coordinates -/

section Coordinates

variable {a b c : Float32}

theorem coordinateLE_iff : coordinateLE a b = true ↔ (IsNumber b → a ≤ b) := by
  rw [coordinateLE, Bool.or_eq_true, Bool.and_eq_true, Bool.not_eq_true', decide_eq_true_iff]
  constructor
  · rintro (hb | ⟨-, hle⟩) hn
    · exact absurd hb (Bool.eq_false_iff.1 hn)
    · exact hle
  · intro h
    cases hb : b.isNaN with
    | true => exact .inl rfl
    | false => exact .inr ⟨(isNumber_of_le (h hb)).1, h hb⟩

theorem coordinateLE_total (a b : Float32) : coordinateLE a b || coordinateLE b a := by
  rw [Bool.or_eq_true, coordinateLE_iff, coordinateLE_iff]
  by_cases ha : IsNumber a
  · by_cases hb : IsNumber b
    · exact (le_total (level a) (level b)).imp (fun h _ => (le_iff_level ha hb).2 h)
        fun h _ => (le_iff_level hb ha).2 h
    · exact .inl fun h => absurd h hb
  · exact .inr fun h => absurd h ha

theorem coordinateLE_trans (a b c : Float32) (hab : coordinateLE a b) (hbc : coordinateLE b c) :
    coordinateLE a c := by
  rw [coordinateLE_iff] at *
  intro hc
  have hle := hbc hc
  exact Single.le_trans (hab (isNumber_of_le hle).1) hle

/-- A coordinate is less than another, or it is a number and the other is none. -/
def Before (a b : Float32) : Prop := a < b ∨ IsNumber a ∧ ¬ IsNumber b

/-- Two coordinates are equal, as zeros of both signs are, or neither is a number. -/
def Tied (a b : Float32) : Prop := (a == b) = true ∨ ¬ IsNumber a ∧ ¬ IsNumber b

theorem before_of_not_coordinateLE (h : coordinateLE b a ≠ true) : Before a b := by
  rw [ne_eq, coordinateLE_iff, Classical.not_imp] at h
  obtain ⟨ha, hle⟩ := h
  by_cases hb : IsNumber b
  · rw [le_iff_level hb ha, not_le] at hle
    exact .inl ((lt_iff_level ha hb).2 hle)
  · exact .inr ⟨ha, hb⟩

theorem tied_of_coordinateLE (hab : coordinateLE a b) (hba : coordinateLE b a) : Tied a b := by
  rw [coordinateLE_iff] at hab hba
  by_cases ha : IsNumber a
  · have hle := hba ha
    have hb := (isNumber_of_le hle).1
    exact .inl ((beq_iff_level ha hb).2
      (le_antisymm ((le_iff_level ha hb).1 (hab hb)) ((le_iff_level hb ha).1 hle)))
  · exact .inr ⟨ha, fun hb => ha (isNumber_of_le (hab hb)).1⟩

end Coordinates

/-! ## Points along an axis -/

namespace Point

variable {α : Type} (p : Point α) (axis : Axis) (x y : α)

@[simp] theorem along_setAlong : (p.setAlong axis x).along axis = x := by cases axis <;> rfl

@[simp] theorem along_across_setAlong :
    (p.setAlong axis x).along axis.across = p.along axis.across := by cases axis <;> rfl

@[simp] theorem setAlong_setAlong :
    (p.setAlong axis x).setAlong axis y = p.setAlong axis y := by cases axis <;> rfl

end Point

variable {δ : Type} {axis : Axis} {spacing : Float32}

/-! ## Sorted nodes -/

/-- The order of nodes along an axis. -/
def alongLE (axis : Axis) (m n : Node Float32 δ) : Bool :=
  coordinateLE (m.position.along axis) (n.position.along axis)

/-- A node with its index comes before another: at a coordinate before the other one, or at a tied
one with a lesser index. -/
def Ahead (axis : Axis) (m n : Node Float32 δ × Nat) : Prop :=
  Before (m.1.position.along axis) (n.1.position.along axis) ∨
    Tied (m.1.position.along axis) (n.1.position.along axis) ∧ m.2 < n.2

/-- The nodes sorted along an axis are in a stable order. -/
theorem exists_ranked (axis : Axis) (nodes : List (Node Float32 δ)) :
    ∃ ranked : List (Node Float32 δ × Nat), ranked.Perm nodes.zipIdx ∧
      ranked.Pairwise (Ahead axis) ∧ ranked.map Prod.fst = nodes.mergeSort (alongLE axis) := by
  obtain ⟨ranked, hperm, hsorted, hmap⟩ := exists_stable_mergeSort
    (fun a b c : Node Float32 δ =>
      coordinateLE_trans (a.position.along axis) (b.position.along axis) (c.position.along axis))
    (fun a b : Node Float32 δ =>
      coordinateLE_total (a.position.along axis) (b.position.along axis)) nodes
  refine ⟨ranked, hperm, hsorted.imp fun {m n} h => ?_, hmap⟩
  by_cases hnm : alongLE axis n.1 m.1
  · exact .inr ⟨tied_of_coordinateLE h.1 hnm, h.2 hnm⟩
  · exact .inl (before_of_not_coordinateLE hnm)

/-! ## Nodes spread from a start -/

/-- The nodes at the multiples of a distance from a start. -/
def spreadFrom (axis : Axis) (spacing start : Float32) (nodes : List (Node Float32 δ)) :
    List (Node Float32 δ) :=
  nodes.zipIdx.map fun (n, i) =>
    n.movedTo (n.position.setAlong axis (start + Float32.ofNat i * spacing))

theorem spreadFrom_nil (start : Float32) :
    spreadFrom axis spacing start ([] : List (Node Float32 δ)) = [] := rfl

theorem getElem?_spreadFrom (start : Float32) (nodes : List (Node Float32 δ)) (i : Nat) :
    (spreadFrom axis spacing start nodes)[i]? = nodes[i]?.map fun n =>
      n.movedTo (n.position.setAlong axis (start + Float32.ofNat i * spacing)) := by
  rw [spreadFrom, List.getElem?_map, List.getElem?_zipIdx, Option.map_map, Nat.zero_add]
  rfl

theorem along_of_getElem?_spreadFrom {start : Float32} {nodes : List (Node Float32 δ)} {i : Nat}
    {n : Node Float32 δ} (h : (spreadFrom axis spacing start nodes)[i]? = some n) :
    n.position.along axis = start + Float32.ofNat i * spacing := by
  rw [getElem?_spreadFrom, Option.map_eq_some_iff] at h
  obtain ⟨m, -, rfl⟩ := h
  exact Point.along_setAlong ..

/-- What the coordinate along the axis does not matter for is kept. -/
theorem map_spreadFrom {β : Type} {f : Node Float32 δ → β}
    (h : ∀ n v, f (n.movedTo (n.position.setAlong axis v)) = f n) (start : Float32)
    (nodes : List (Node Float32 δ)) :
    (spreadFrom axis spacing start nodes).map f = nodes.map f := by
  have hfirst : nodes.zipIdx.map Prod.fst = nodes := List.zipIdx_map_fst 0 nodes
  calc (spreadFrom axis spacing start nodes).map f
      = (nodes.zipIdx.map Prod.fst).map f := by
        rw [spreadFrom, List.map_map, List.map_map]
        exact List.map_congr_left fun x _ => h x.1 _
    _ = nodes.map f := by rw [hfirst]

/-- Nodes are distributed by spreading the sorted ones from the first. -/
theorem exists_distributeNodes_eq_spreadFrom (nodes : List (Node Float32 δ)) (axis : Axis)
    (spacing : Float32) :
    ∃ start, (∀ first ∈ (nodes.mergeSort (alongLE axis)).head?,
        first.position.along axis = start) ∧
      distributeNodes nodes axis spacing =
        spreadFrom axis spacing start (nodes.mergeSort (alongLE axis)) := by
  unfold distributeNodes
  dsimp only
  split
  · next h =>
    have hsorted : nodes.mergeSort (alongLE axis) = [] := h
    rw [hsorted]
    exact ⟨0, by simp, rfl⟩
  · next first rest h =>
    have hsorted : nodes.mergeSort (alongLE axis) = first :: rest := h
    exact ⟨first.position.along axis, by simp [hsorted], rfl⟩

/-- The sorted nodes spread out: each is at its multiple of the distance from the first one, and is
the same in all else. -/
structure IsSpread (axis : Axis) (spacing : Float32) (sorted result : List (Node Float32 δ)) :
    Prop where
  kept : result.map (fun n => (n.content, n.position.along axis.across)) =
    sorted.map fun n => (n.content, n.position.along axis.across)
  placed : ∀ first ∈ sorted.head?, ∀ i n, result[i]? = some n →
    n.position.along axis = first.position.along axis + Float32.ofNat i * spacing

/-- **Distributed nodes are in the order of their coordinates**, with numbers before what is no
number and nodes at tied coordinates in the order given, and **spread evenly from the first**, where
in all but the coordinate along the axis they are the nodes given. -/
theorem distributeNodes_stable (nodes : List (Node Float32 δ)) (axis : Axis) (spacing : Float32) :
    ∃ ranked : List (Node Float32 δ × Nat), ranked.Perm nodes.zipIdx ∧
      ranked.Pairwise (Ahead axis) ∧
      IsSpread axis spacing (ranked.map Prod.fst) (distributeNodes nodes axis spacing) := by
  obtain ⟨ranked, hperm, hahead, hsorted⟩ := exists_ranked axis nodes
  obtain ⟨start, hstart, heq⟩ := exists_distributeNodes_eq_spreadFrom nodes axis spacing
  refine ⟨ranked, hperm, hahead, ?_, ?_⟩
  · rw [heq, hsorted]
    refine map_spreadFrom (fun n v => ?_) start _
    exact Prod.ext rfl (Point.along_across_setAlong ..)
  · rw [heq, hsorted]
    intro first hfirst i n hn
    rw [hstart first hfirst]
    exact along_of_getElem?_spreadFrom hn

/-! ## Distributed nodes, distributed again -/

theorem pairwise_spreadFrom (hf : spacing.isFinite = true) (h0 : 0 ≤ spacing) (start : Float32)
    (nodes : List (Node Float32 δ)) :
    (spreadFrom axis spacing start nodes).Pairwise fun m n => alongLE axis m n = true := by
  rw [List.pairwise_iff_getElem]
  intro i j hi hj hij
  rw [alongLE, along_of_getElem?_spreadFrom (List.getElem?_eq_getElem hi),
    along_of_getElem?_spreadFrom (List.getElem?_eq_getElem hj), coordinateLE_iff]
  exact add_multiple_mono h0 hf hij.le

theorem spreadFrom_spreadFrom {start start' : Float32}
    (h : ∀ i, start' + Float32.ofNat i * spacing = start + Float32.ofNat i * spacing)
    (nodes : List (Node Float32 δ)) :
    spreadFrom axis spacing start' (spreadFrom axis spacing start nodes) =
      spreadFrom axis spacing start nodes := by
  refine List.ext_getElem? fun i => ?_
  rw [getElem?_spreadFrom, getElem?_spreadFrom, Option.map_map]
  refine congrFun (congrArg Option.map (funext fun n => ?_)) _
  show n.movedTo _ = n.movedTo _
  rw [h]
  exact congrArg n.movedTo (Point.setAlong_setAlong ..)

/-- **Distributing distributed nodes again changes nothing.** -/
theorem distributeNodes_distributeNodes (hf : spacing.isFinite = true) (h0 : 0 ≤ spacing)
    (nodes : List (Node Float32 δ)) (axis : Axis) :
    distributeNodes (distributeNodes nodes axis spacing) axis spacing =
      distributeNodes nodes axis spacing := by
  obtain ⟨start, -, heq⟩ := exists_distributeNodes_eq_spreadFrom nodes axis spacing
  rw [heq]
  generalize nodes.mergeSort (alongLE axis) = sorted
  obtain ⟨start', hstart', heq'⟩ :=
    exists_distributeNodes_eq_spreadFrom (spreadFrom axis spacing start sorted) axis spacing
  rw [List.mergeSort_of_pairwise (pairwise_spreadFrom hf h0 start sorted)] at hstart' heq'
  rw [heq']
  cases sorted with
  | nil => rw [spreadFrom_nil, spreadFrom_nil]
  | cons first rest =>
    have hstart' : start + Float32.ofNat 0 * spacing = start' :=
      (Point.along_setAlong ..).symm.trans (hstart' _ rfl)
    exact spreadFrom_spreadFrom (hstart' ▸ add_zero_multiple_add start hf) _

/-- A start at the negative zero becomes the positive one, and the last two places are infinite. -/
theorem distributeNodes_distributeNodes_overflow :
    let spacing := Float32.ofBits 0x7f000000
    let nodes : List (Node Float32 Unit) := [
      ⟨"nan", (), ⟨0 / 0, 1⟩, none⟩, ⟨"zero", (), ⟨-0, 2⟩, none⟩, ⟨"far", (), ⟨1 / 0, 3⟩, none⟩,
      ⟨"tied", (), ⟨0, 4⟩, none⟩]
    spacing.isFinite = true ∧ 0 ≤ spacing ∧
      distributeNodes (distributeNodes nodes .horizontal spacing) .horizontal spacing =
        distributeNodes nodes .horizontal spacing := by
  intro spacing nodes
  have hf : spacing.isFinite = true := by decide
  have h0 : 0 ≤ spacing := by decide
  exact ⟨hf, h0, distributeNodes_distributeNodes hf h0 nodes .horizontal⟩

end LayeredDrawing
