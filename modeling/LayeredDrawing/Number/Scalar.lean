import LayeredDrawing.Number.Formats

/-!
# The numbers a drawing is measured in

The layout is written once, over any type of numbers with the operations of `Scalar`. It runs
over `Float32`, where every operation rounds; over `Rat` the same definitions are the exact
arithmetic that the rounded ones approximate.

The sum of no rounded numbers is `-0`, since `0` and `-0` add up to `0`.
-/

namespace LayeredDrawing

/-- The operations on coordinates, sizes and distances. -/
class Scalar (α : Type) extends Add α, Sub α, Mul α, Div α where
  /-- The number nearest to a natural number. -/
  ofNat : Nat → α
  /-- The sum of no numbers, which changes no number that is added to it. -/
  emptySum : α
  /-- Strict comparison. -/
  lt : α → α → Bool
  /-- The total order that numbers are sorted by. -/
  totalLE : α → α → Bool
  /-- Neither infinite nor undefined. -/
  isFinite : α → Bool
  /-- The greater of two numbers. -/
  larger : α → α → α
  /-- The lesser of two numbers. -/
  smaller : α → α → α

instance : Scalar Float32 where
  ofNat := Float32.ofNat
  emptySum := -0
  lt a b := decide (a < b)
  totalLE := Single.totalLE
  isFinite := Float32.isFinite
  larger := Single.larger
  smaller := Single.smaller

instance : Scalar Rat where
  ofNat n := n
  emptySum := 0
  lt a b := decide (a < b)
  totalLE a b := decide (a ≤ b)
  isFinite _ := true
  larger a b := if a ≤ b then b else a
  smaller a b := if b ≤ a then b else a

namespace Scalar

variable {α : Type} [Scalar α]

/-- Zero. -/
def zero : α := ofNat 0

/-- Half of a number. -/
def half (x : α) : α := x / ofNat 2

/-- The sum of a list, added from the left. -/
def sum (xs : List α) : α := xs.foldl (· + ·) emptySum

/-- The greatest of zero and the members of a list. -/
def largest (xs : List α) : α := xs.foldl larger zero

/-- The least member of a list, if there is one. -/
def least? : List α → Option α
  | [] => none
  | x :: xs => some (xs.foldl smaller x)

/-- The arithmetic mean of a list, if it has members, which are added to zero from the left. -/
def mean? : List α → Option α
  | [] => none
  | xs => some (xs.foldl (· + ·) zero / ofNat xs.length)

end Scalar

end LayeredDrawing
