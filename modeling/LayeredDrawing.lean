import LayeredDrawing.Arrange
import LayeredDrawing.Command.Grammar
import LayeredDrawing.Command.Run
import LayeredDrawing.Document
import LayeredDrawing.Layout
import LayeredDrawing.Main
import LayeredDrawing.Proofs.Layout
import LayeredDrawing.Proofs.Separation
import LayeredDrawing.Settings
import LayeredDrawing.Proofs.KeyedList
import LayeredDrawing.Proofs.Layering.BestOrdering
import LayeredDrawing.Proofs.Ranks
import LayeredDrawing.Proofs.Json.Numbers
import LayeredDrawing.Proofs.Json.Strings
import LayeredDrawing.Proofs.Json.Texts
import LayeredDrawing.Proofs.Json.Values
import LayeredDrawing.Proofs.Document
import LayeredDrawing.Proofs.Disk
import LayeredDrawing.Proofs.Command.Fidelity
import LayeredDrawing.Proofs.Command.Members
import LayeredDrawing.Proofs.Symmetry
import LayeredDrawing.Proofs.Bounds
import LayeredDrawing.Proofs.Overflow
import LayeredDrawing.Proofs.Command.Rereading
import LayeredDrawing.Proofs.Flow
import LayeredDrawing.Proofs.Renaming
import LayeredDrawing.Proofs.Command.Stages
import LayeredDrawing.Proofs.Number.Comparison
import LayeredDrawing.Proofs.Number.Order
import LayeredDrawing.Proofs.Coordinates.Ascent
import LayeredDrawing.Proofs.Progression
import LayeredDrawing.Proofs.Command.Distances
import LayeredDrawing.Proofs.Digraph.Refusal
import LayeredDrawing.Proofs.Parts
import LayeredDrawing.Proofs.Layering.PlanarSweeps
import LayeredDrawing.Proofs.Distribution
import LayeredDrawing.Proofs.Layering.Contraction
import LayeredDrawing.Proofs.Forest
import LayeredDrawing.Proofs.Depiction
import LayeredDrawing.Proofs.Layering.SweepOrder
import LayeredDrawing.Proofs.Coordinates.Reflection
import LayeredDrawing.Proofs.Chain
import LayeredDrawing.Proofs.Coordinates.Resolution
import LayeredDrawing.Proofs.Layering.CrossingPairs
