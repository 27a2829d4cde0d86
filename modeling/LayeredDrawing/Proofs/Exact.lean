import LayeredDrawing.Options
import Mathlib.Algebra.Order.Field.Rat
import Mathlib.Data.Rat.Defs

/-!
# Exact arithmetic

Over `Rat` the operations of `Scalar` are those of the ordered field, and the checks of options
and sizes are about signs only: everything is finite.
-/

namespace LayeredDrawing

namespace Scalar

variable (x y : Rat)

@[simp] theorem zero_rat : (zero : Rat) = 0 := rfl

@[simp] theorem ofNat_rat (n : Nat) : (Scalar.ofNat n : Rat) = n := rfl

@[simp] theorem half_rat : half x = x / 2 := rfl

@[simp] theorem lt_rat : Scalar.lt x y = decide (x < y) := rfl

@[simp] theorem isFinite_rat : Scalar.isFinite x = true := rfl

@[simp] theorem larger_rat : larger x y = max x y := by
  rw [max_def]
  rfl

@[simp] theorem smaller_rat : smaller x y = min x y := by
  rw [min_comm, min_def]
  rfl

theorem le_foldl_larger (xs : List Rat) (m : Rat) :
    m ≤ xs.foldl larger m ∧ ∀ x ∈ xs, x ≤ xs.foldl larger m := by
  induction xs generalizing m with
  | nil => simp
  | cons y xs ih =>
    obtain ⟨hm, hxs⟩ := ih (larger m y)
    rw [larger_rat] at hm hxs
    rw [List.foldl_cons, larger_rat]
    have hy : y ≤ xs.foldl larger (max m y) := (le_max_right m y).trans hm
    exact ⟨(le_max_left m y).trans hm, List.forall_mem_cons.2 ⟨hy, hxs⟩⟩

theorem le_largest {xs : List Rat} {x : Rat} (h : x ∈ xs) : x ≤ largest xs :=
  (le_foldl_larger xs zero).2 x h

theorem largest_nonneg (xs : List Rat) : 0 ≤ largest xs := (le_foldl_larger xs zero).1

end Scalar

/-- A size over the exact numbers can be laid out if both its extents are positive. -/
theorem Size.isMeasurable_rat {s : Size Rat} :
    s.isMeasurable = true ↔ 0 < s.width ∧ 0 < s.height := by
  simp [isMeasurable]

namespace Options

theorem fault?_of_check {α : Type} [Scalar α] {o : Options α} (h : o.check = .ok ()) :
    o.fault? = none := by
  cases hf : o.fault? with
  | none => rfl
  | some f => simp [check, hf] at h

/-- The distances of options that can be used are finite and not negative. -/
theorem isUsable_distance {α : Type} [Scalar α] {o : Options α} (h : o.check = .ok ())
    (d : Distance) : isUsable (o.distance d) = true := by
  have hf := fault?_of_check h
  simp only [fault?] at hf
  split at hf
  · cases hf
  · rename_i hd
    have hall := List.find?_eq_none.1 hd d (by cases d <;> simp)
    simpa using hall

/-- Options that can be used have no negative distance. -/
theorem distance_nonneg {o : Options Rat} (h : o.check = .ok ()) (d : Distance) :
    0 ≤ o.distance d := by
  simpa [isUsable] using isUsable_distance h d

/-- Options that can be used have a default size that can be laid out. -/
theorem isMeasurable_defaultSize {α : Type} [Scalar α] {o : Options α} (h : o.check = .ok ()) :
    o.defaultSize.isMeasurable = true := by
  have hf := fault?_of_check h
  simp only [fault?] at hf
  split at hf
  · cases hf
  · simpa using hf

end Options

end LayeredDrawing
