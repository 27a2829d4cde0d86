import LayeredDrawing.Diagram
import LayeredDrawing.Orientation

/-!
# Arranging nodes by hand

`alignNodes` puts nodes on the line of the first one. `distributeNodes` sorts nodes along an
axis and spreads them evenly from the first on; nodes at the same coordinate keep their order,
and a coordinate that is not a number comes last.
-/

namespace LayeredDrawing

variable {α δ : Type}

namespace Point

/-- The coordinate along an axis. -/
def along (p : Point α) : Axis → α
  | .horizontal => p.x
  | .vertical => p.y

/-- The point with another coordinate along an axis. -/
def setAlong (p : Point α) (axis : Axis) (value : α) : Point α :=
  match axis with
  | .horizontal => { p with x := value }
  | .vertical => { p with y := value }

end Point

/-- The axis at a right angle to an axis. -/
def Axis.across : Axis → Axis
  | horizontal => vertical
  | vertical => horizontal

/-- The nodes moved at a right angle to the axis onto the line of the first one. -/
def alignNodes (nodes : List (Node α δ)) (axis : Axis) : List (Node α δ) :=
  match nodes with
  | [] => []
  | anchor :: _ =>
    nodes.map fun n =>
      n.movedTo (n.position.setAlong axis.across (anchor.position.along axis.across))

/-- The order of coordinates for distribution: numbers by size, equal ones and zeros of both
signs tied, and last what is not a number. -/
def coordinateLE (a b : Float32) : Bool :=
  b.isNaN || (!a.isNaN && decide (a ≤ b))

/-- The nodes sorted along the axis and spread evenly from the first on. -/
def distributeNodes (nodes : List (Node Float32 δ)) (axis : Axis) (spacing : Float32) :
    List (Node Float32 δ) :=
  let sorted := nodes.mergeSort fun a b =>
    coordinateLE (a.position.along axis) (b.position.along axis)
  match sorted with
  | [] => []
  | first :: _ =>
    let start := first.position.along axis
    sorted.zipIdx.map fun (n, i) =>
      n.movedTo (n.position.setAlong axis (start + Float32.ofNat i * spacing))

/-- The spacing of a distribution for which none is given. -/
def defaultDistributionSpacing : Float32 := 150

end LayeredDrawing
