import LayeredDrawing.Proofs.Exact
import LayeredDrawing.Solution
import Mathlib.Order.Bounds.Image
import Mathlib.Tactic.Ring

/-!
# The smallest box around others

Over the exact numbers `Box.enclosing?` finds the one box whose every side is the outermost of the
sides of the given boxes (`enclosing?_eq_some_iff`). A drawing turned into its direction takes
smallest boxes to smallest boxes (`Box.IsHull.place`), and a box turned round about its own middle
stays where it is (`Direction.placeBox_self`).
-/

namespace LayeredDrawing

namespace Box

/-- The box is the smallest around the boxes of a set: each of its sides belongs to one of them,
and no side of another lies further out. -/
structure IsHull (b : Box Rat) (s : Set (Box Rat)) : Prop where
  minX : IsLeast (Box.minX '' s) b.minX
  minY : IsLeast (Box.minY '' s) b.minY
  maxX : IsGreatest (Box.maxX '' s) b.maxX
  maxY : IsGreatest (Box.maxY '' s) b.maxY

variable {a b : Box Rat} {s : Set (Box Rat)}

theorem isHull_singleton (b : Box Rat) : b.IsHull {b} where
  minX := by simp
  minY := by simp
  maxX := by simp
  maxY := by simp

theorem IsHull.merge (h : a.IsHull s) (b : Box Rat) : (a.merge b).IsHull (insert b s) where
  minX := by simpa [Set.image_insert_eq, Box.merge, min_comm] using h.minX.insert b.minX
  minY := by simpa [Set.image_insert_eq, Box.merge, min_comm] using h.minY.insert b.minY
  maxX := by simpa [Set.image_insert_eq, Box.merge, max_comm] using h.maxX.insert b.maxX
  maxY := by simpa [Set.image_insert_eq, Box.merge, max_comm] using h.maxY.insert b.maxY

theorem IsHull.unique (ha : a.IsHull s) (hb : b.IsHull s) : a = b := by
  cases a
  cases b
  congr
  · exact ha.minX.unique hb.minX
  · exact ha.minY.unique hb.minY
  · exact ha.maxX.unique hb.maxX
  · exact ha.maxY.unique hb.maxY

theorem isHull_foldl_merge (h : b.IsHull s) (bs : List (Box Rat)) :
    (bs.foldl Box.merge b).IsHull ({c | c ∈ bs} ∪ s) := by
  induction bs generalizing b s with
  | nil => simpa using h
  | cons c bs ih =>
    have hs : {d | d ∈ c :: bs} ∪ s = {d | d ∈ bs} ∪ insert c s := by
      ext d
      simp only [List.mem_cons, Set.mem_union, Set.mem_ofPred_eq, Set.mem_insert_iff]
      tauto
    rw [List.foldl_cons, hs]
    exact ih (h.merge c)

theorem isHull_enclosing? {bs : List (Box Rat)} (h : enclosing? bs = some b) :
    b.IsHull {c | c ∈ bs} := by
  cases bs with
  | nil => cases h
  | cons c bs =>
    obtain rfl := Option.some.inj h
    have hs : {d | d ∈ c :: bs} = {d | d ∈ bs} ∪ {c} := by
      ext d
      simp
    rw [hs]
    exact isHull_foldl_merge (isHull_singleton c) bs

theorem exists_enclosing? {bs : List (Box Rat)} (h : bs ≠ []) :
    ∃ b, enclosing? bs = some b := by
  cases bs with
  | nil => exact absurd rfl h
  | cons c bs => exact ⟨_, rfl⟩

/-- The smallest box around the members of a list. -/
theorem enclosing?_eq_some_iff {bs : List (Box Rat)} :
    enclosing? bs = some b ↔ b.IsHull {c | c ∈ bs} := by
  refine ⟨isHull_enclosing?, fun h => ?_⟩
  have hne : bs ≠ [] := by
    rintro rfl
    obtain ⟨c, hc, -⟩ := h.minX.1
    exact List.not_mem_nil hc
  obtain ⟨c, hc⟩ := exists_enclosing? hne
  rw [hc, (isHull_enclosing? hc).unique h]

/-- The box with the axes exchanged. -/
def transpose (b : Box Rat) : Box Rat := ⟨b.minY, b.minX, b.maxY, b.maxX⟩

end Box

/-! ## Boxes in the direction of a drawing -/

namespace Direction

variable (d : Direction)

/-- The direction of the opposite flow. -/
def reverse : Direction → Direction
  | topToBottom => bottomToTop
  | bottomToTop => topToBottom
  | leftToRight => rightToLeft
  | rightToLeft => leftToRight

@[simp] theorem isVertical_reverse : d.reverse.isVertical = d.isVertical := by
  cases d <;> rfl

/-- The extent of a box in the direction of flow. -/
def extentAlong (b : Box Rat) : Rat := if d.isVertical then b.height else b.width

/-- A box of the frame in the direction of the drawing. -/
def placeBox (turn : Rat) (b : Box Rat) : Box Rat :=
  let b := if d.isReversed then { b with minY := turn - b.maxY, maxY := turn - b.minY } else b
  if d.isVertical then b else b.transpose

theorem ofCenter_place (turn : Rat) (p : Point Rat) (s : Size Rat) :
    Box.ofCenter (d.place turn p) s = d.placeBox turn (Box.ofCenter p (d.extents s)) := by
  cases d with
  | topToBottom => rfl
  | leftToRight => rfl
  | bottomToTop =>
    simp [place, placeBox, extents, Box.ofCenter, isReversed, isVertical, sub_add, sub_sub]
  | rightToLeft =>
    simp [place, placeBox, extents, Box.ofCenter, isReversed, isVertical, sub_add, sub_sub,
      Point.transpose, Size.transpose, Box.transpose]

/-- Turned round about its own middle, a box stays where it is. -/
theorem placeBox_self (b : Box Rat) :
    d.placeBox (b.minY + b.maxY) b = if d.isVertical then b else b.transpose := by
  cases d <;> simp [placeBox, isReversed, isVertical]

end Direction

theorem Box.IsHull.place {b : Box Rat} {s : Set (Box Rat)} (h : b.IsHull s) (d : Direction)
    (turn : Rat) : (d.placeBox turn b).IsHull (d.placeBox turn '' s) := by
  have hanti : Antitone fun y : Rat => turn - y := fun x y hxy => sub_le_sub_left hxy turn
  have hmin : IsLeast ((fun c : Box Rat => turn - c.maxY) '' s) (turn - b.maxY) := by
    simpa [Set.image_image] using hanti.map_isGreatest h.maxY
  have hmax : IsGreatest ((fun c : Box Rat => turn - c.minY) '' s) (turn - b.minY) := by
    simpa [Set.image_image] using hanti.map_isLeast h.minY
  cases d with
  | topToBottom =>
    have hid : Direction.topToBottom.placeBox turn = id := rfl
    simpa [hid] using h
  | bottomToTop => constructor <;> rw [Set.image_image]; exacts [h.minX, hmin, h.maxX, hmax]
  | leftToRight => constructor <;> rw [Set.image_image]; exacts [h.minY, h.minX, h.maxY, h.maxX]
  | rightToLeft => constructor <;> rw [Set.image_image]; exacts [hmin, h.minX, hmax, h.maxX]

end LayeredDrawing
