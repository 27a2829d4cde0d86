import LayeredDrawing.Options

/-!
# Options as a record

Options are read from more than one kind of document. In all of them they are a record with
the fields `Options.fieldNames`, and a field that is missing has its default
(`Options.ofFields?`).
-/

namespace LayeredDrawing

variable {τ β : Type}

/-- A part of a record that takes a default if it is missing. -/
def orDefault? (default : β) (read : τ → Option β) : Option τ → Option β
  | none => some default
  | some t => read t

namespace Options

/-- The names of the fields of the options, in their order. -/
def fieldNames : List String :=
  ["direction", "node_sep", "rank_sep", "margin_x", "margin_y", "default_width",
    "default_height", "ordering_passes", "alignment_passes"]

/-- Options from the parts of their record, given how the parts are read. -/
def ofFields? (direction? : τ → Option Direction) (number? : τ → Option Float32)
    (count? : τ → Option Nat) : List (Option τ) → Option (Options Float32)
  | [direction, nodeSep, rankSep, marginX, marginY, width, height, ordering, alignment] =>
    let o : Options Float32 := default
    do
    return {
      direction := ← orDefault? o.direction direction? direction
      nodeSep := ← orDefault? o.nodeSep number? nodeSep
      rankSep := ← orDefault? o.rankSep number? rankSep
      marginX := ← orDefault? o.marginX number? marginX
      marginY := ← orDefault? o.marginY number? marginY
      defaultSize := {
        width := ← orDefault? o.defaultSize.width number? width
        height := ← orDefault? o.defaultSize.height number? height }
      orderingPasses := ← orDefault? o.orderingPasses count? ordering
      alignmentPasses := ← orDefault? o.alignmentPasses count? alignment }
  | _ => none

end Options

end LayeredDrawing
