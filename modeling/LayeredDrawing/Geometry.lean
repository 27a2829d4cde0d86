import LayeredDrawing.Number.Scalar

/-!
# Points, sizes and boxes

The plane has its origin at the top left, x grows to the right and y downwards. A node of a
diagram is positioned by the top-left corner of its box; the layout works on box centers, and
`Box.ofCenter` takes one to the other.
-/

namespace LayeredDrawing

variable {α : Type}

/-! ## Points -/

/-- A position in the plane. -/
structure Point (α : Type) where
  x : α
  y : α
  deriving BEq, DecidableEq, Repr, Inhabited

namespace Point

/-- The point with its coordinates exchanged. -/
def transpose (p : Point α) : Point α := ⟨p.y, p.x⟩

/-- The point `(0, 0)`. -/
def origin [Scalar α] : Point α := ⟨Scalar.zero, Scalar.zero⟩

@[simp] theorem transpose_transpose (p : Point α) : p.transpose.transpose = p := rfl

end Point

/-! ## Sizes -/

/-- The extents of a box. -/
structure Size (α : Type) where
  width : α
  height : α
  deriving BEq, DecidableEq, Repr, Inhabited

namespace Size

/-- The size with width and height exchanged. -/
def transpose (s : Size α) : Size α := ⟨s.height, s.width⟩

/-- A size that can be laid out: both extents are finite and positive. An editor reports a
zero size for a node that it has not drawn yet. -/
def isMeasurable [Scalar α] (s : Size α) : Bool :=
  Scalar.isFinite s.width && Scalar.isFinite s.height &&
    Scalar.lt Scalar.zero s.width && Scalar.lt Scalar.zero s.height

@[simp] theorem transpose_transpose (s : Size α) : s.transpose.transpose = s := rfl

end Size

/-! ## Boxes -/

/-- An axis-parallel rectangle, given by its least and greatest coordinates. -/
structure Box (α : Type) where
  minX : α
  minY : α
  maxX : α
  maxY : α
  deriving BEq, DecidableEq, Repr, Inhabited

namespace Box

variable [Scalar α]

/-- The box of the given size around a center. -/
def ofCenter (center : Point α) (size : Size α) : Box α where
  minX := center.x - Scalar.half size.width
  minY := center.y - Scalar.half size.height
  maxX := center.x + Scalar.half size.width
  maxY := center.y + Scalar.half size.height

/-- The box of the given size below and to the right of a corner. -/
def ofTopLeft (corner : Point α) (size : Size α) : Box α where
  minX := corner.x
  minY := corner.y
  maxX := corner.x + size.width
  maxY := corner.y + size.height

/-- The horizontal extent. -/
def width (b : Box α) : α := b.maxX - b.minX

/-- The vertical extent. -/
def height (b : Box α) : α := b.maxY - b.minY

/-- The top-left corner. -/
def topLeft (b : Box α) : Point α := ⟨b.minX, b.minY⟩

/-- The smallest box around two boxes. -/
def merge (a b : Box α) : Box α where
  minX := Scalar.smaller a.minX b.minX
  minY := Scalar.smaller a.minY b.minY
  maxX := Scalar.larger a.maxX b.maxX
  maxY := Scalar.larger a.maxY b.maxY

/-- The smallest box around the members of a list, if it has any. -/
def enclosing? : List (Box α) → Option (Box α)
  | [] => none
  | b :: bs => some (bs.foldl merge b)

/-- Two boxes share interior points; boxes that only touch do not. -/
def intersects (a b : Box α) : Bool :=
  Scalar.lt a.minX b.maxX && Scalar.lt b.minX a.maxX &&
    Scalar.lt a.minY b.maxY && Scalar.lt b.minY a.maxY

end Box

end LayeredDrawing
