import LayeredDrawing.Digraph.Basic
import LayeredDrawing.Digraph.Workload

/-!
# Topological orders

`topologicalOrder` lists the nodes of a graph without cycles so that every arc leads forward.
A first search lists the nodes against the order in which it leaves them, so that each comes
before the nodes it can reach (`leave`). Where there is a cycle some node of the list comes
before one of its predecessors, and `misplaced?` finds the first such pair; a loop is noticed
at once. The error is a node that the search found on a cycle.
-/

namespace LayeredDrawing.Digraph

/-- The state of the first search: the nodes it has not seen, and those it has left, newest
first. -/
structure Departures where
  unseen : List Nat
  left : List Nat

/-- The first search with the nodes of a stack. A node is entered when it comes to the top of
the stack for the first time, and left when it is there again; a node with a loop is refused. -/
def leave (next : Nat → List Nat) (d : Departures) : List Nat → Except Nat Departures
  | [] => .ok d
  | v :: stack =>
    if v ∈ d.unseen then
      if v ∈ next v then .error v
      else
        let unseen := d.unseen.erase v
        leave next { d with unseen := unseen }
          (((next v).filter (· ∈ unseen)).reverse ++ v :: stack)
    else
      leave next { d with left := if v ∈ d.left then d.left else v :: d.left } stack
termination_by stack => workload next d.unseen + stack.length
decreasing_by
  · have h := workload_erase next ‹v ∈ d.unseen›
    have := List.length_filter_le (· ∈ d.unseen.erase v) (next v)
    simp
    omega
  · simp

/-- The first search from every node that it has not seen yet, in the given order. -/
def leaveAll (next : Nat → List Nat) : Departures → List Nat → Except Nat Departures
  | d, [] => .ok d
  | d, v :: vs =>
    match (if v ∈ d.unseen then leave next d [v] else .ok d) with
    | .ok d => leaveAll next d vs
    | .error v => .error v

/-- A predecessor that comes later in a list than the node it precedes, for the first node of
the list that has one: of several, the source of the oldest arc. -/
def misplaced? (previous : Nat → List Nat) : List Nat → Option Nat
  | [] => none
  | v :: later =>
    match ((previous v).filter (· ∈ later)).getLast? with
    | some u => some u
    | none => misplaced? previous later

/-- The nodes in an order in which every arc leads forward, or a node on a cycle. -/
def topologicalOrder (g : Digraph) : Except Nat (List Nat) :=
  let successors := g.successorTable
  let predecessors := g.predecessorTable
  match leaveAll successors.at ⟨g.nodes, []⟩ g.nodes with
  | .error v => .error v
  | .ok d =>
    match misplaced? predecessors.at d.left with
    | some u => .error u
    | none => .ok d.left

end LayeredDrawing.Digraph
