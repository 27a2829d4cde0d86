import LayeredDrawing.Geometry
import LayeredDrawing.Number.Text
import LayeredDrawing.Orientation

/-!
# Options of a layout

The options of a layout with their defaults. `Options.check` accepts distances that are finite
and not negative and a default size that can be laid out; otherwise it names the first fault.
-/

namespace LayeredDrawing

variable {α : Type}

/-- The options of a layout. -/
structure Options (α : Type) where
  direction : Direction
  nodeSep : α
  rankSep : α
  marginX : α
  marginY : α
  defaultSize : Size α
  orderingPasses : Nat
  alignmentPasses : Nat
  deriving Repr

/-- The distances among the options. -/
inductive Distance
  | nodeSep
  | rankSep
  | marginX
  | marginY
  deriving DecidableEq, Repr

/-- The name of a distance in a settings file. -/
def Distance.name : Distance → String
  | nodeSep => "node_sep"
  | rankSep => "rank_sep"
  | marginX => "margin_x"
  | marginY => "margin_y"

/-- What is wrong with options. -/
inductive OptionFault (α : Type)
  /-- A distance that is not finite or is negative. -/
  | distance (which : Distance) (value : α)
  /-- A default size that cannot be laid out. -/
  | defaultSize (size : Size α)
  deriving DecidableEq, Repr

namespace OptionFault

/-- The complaint about a fault. -/
def message : OptionFault Float32 → String
  | distance which value =>
    "`" ++ which.name ++ "` must be a finite, non-negative number, got " ++ Single.text value
  | defaultSize size =>
    "default node size must be positive, got " ++ Single.text size.width ++ "x" ++
      Single.text size.height

end OptionFault

namespace Options

/-- The default options. -/
def default [Scalar α] : Options α where
  direction := .topToBottom
  nodeSep := Scalar.ofNat 40
  rankSep := Scalar.ofNat 80
  marginX := Scalar.ofNat 40
  marginY := Scalar.ofNat 40
  defaultSize := ⟨Scalar.ofNat 280, Scalar.ofNat 56⟩
  orderingPasses := 24
  alignmentPasses := 8

/-- A distance by its name. -/
def distance (o : Options α) : Distance → α
  | .nodeSep => o.nodeSep
  | .rankSep => o.rankSep
  | .marginX => o.marginX
  | .marginY => o.marginY

/-- A distance that is finite and not negative. -/
def isUsable [Scalar α] (x : α) : Bool :=
  Scalar.isFinite x && !Scalar.lt x Scalar.zero

/-- The first fault of the options, if there is one. -/
def fault? [Scalar α] (o : Options α) : Option (OptionFault α) :=
  let distances := [Distance.nodeSep, .rankSep, .marginX, .marginY]
  match distances.find? fun d => !isUsable (o.distance d) with
  | some d => some (.distance d (o.distance d))
  | none => if o.defaultSize.isMeasurable then none else some (.defaultSize o.defaultSize)

/-- Accepts options without a fault. -/
def check [Scalar α] (o : Options α) : Except (OptionFault α) Unit :=
  match o.fault? with
  | some f => .error f
  | none => .ok ()

end Options

end LayeredDrawing
