/-!
# Directed multigraphs

A `Digraph` has the nodes `0, …, size - 1` and a list of arcs in the order in which they were
added. Arcs may be parallel and may be loops. The neighbours of a node are listed with the
newest arc first, once for each arc; `Digraph.successors` and `Digraph.predecessors` say so,
and the tables hold the same lists for all nodes at once (`at_successorTable`,
`at_predecessorTable`).
-/

namespace LayeredDrawing

/-- An arc from one node to another. -/
structure Arc where
  source : Nat
  target : Nat
  deriving DecidableEq, Repr

namespace Arc

/-- The arc in the opposite direction. -/
def reverse (a : Arc) : Arc := ⟨a.target, a.source⟩

/-- An arc from a node to itself. -/
def isLoop (a : Arc) : Bool := a.source == a.target

end Arc

/-- A directed multigraph on the nodes `0, …, size - 1`. -/
structure Digraph where
  size : Nat
  arcs : List Arc
  inRange : ∀ a ∈ arcs, a.source < size ∧ a.target < size

namespace Digraph

/-- The graph with those of the given arcs that join two of its nodes. -/
def ofArcs (size : Nat) (arcs : List Arc) : Digraph where
  size := size
  arcs := arcs.filter fun a => a.source < size ∧ a.target < size
  inRange := by simp

theorem arcs_ofArcs {size : Nat} {arcs : List Arc}
    (h : ∀ a ∈ arcs, a.source < size ∧ a.target < size) : (ofArcs size arcs).arcs = arcs := by
  simpa [ofArcs] using h

/-- The nodes. -/
def nodes (g : Digraph) : List Nat := List.range g.size

/-! ## Neighbours -/

/-- The targets of the arcs from a node, newest arc first. -/
def successors (g : Digraph) (v : Nat) : List Nat :=
  ((g.arcs.filter (·.source == v)).map (·.target)).reverse

/-- The sources of the arcs to a node, newest arc first. -/
def predecessors (g : Digraph) (v : Nat) : List Nat :=
  ((g.arcs.filter (·.target == v)).map (·.source)).reverse

/-- The neighbours of every node. -/
abbrev Table := Array (List Nat)

/-- The neighbours of a node. -/
def Table.at (t : Table) (v : Nat) : List Nat := t.getD v []

/-- The lists of the second ends of a list of arcs by their first ends, newest arc first. -/
def tabulate (size : Nat) (first second : Arc → Nat) (arcs : List Arc) : Table :=
  arcs.foldl (fun t a => t.modify (first a) (second a :: ·)) (Array.replicate size [])

/-- The successors of every node. -/
def successorTable (g : Digraph) : Table := tabulate g.size Arc.source Arc.target g.arcs

/-- The predecessors of every node. -/
def predecessorTable (g : Digraph) : Table := tabulate g.size Arc.target Arc.source g.arcs

theorem at_modify {t : Table} {i v : Nat} (h : i < t.size) (x : Nat) :
    Table.at (t.modify i (x :: ·)) v = if i = v then x :: t.at v else t.at v := by
  simp only [Table.at, Array.getD_eq_getD_getElem?, Array.getElem?_modify]
  by_cases hv : i = v
  · subst hv
    simp [h]
  · simp [hv]

theorem at_tabulate {size : Nat} {first second : Arc → Nat} {arcs : List Arc}
    (h : ∀ a ∈ arcs, first a < size) (v : Nat) :
    (tabulate size first second arcs).at v =
      ((arcs.filter (first · == v)).map second).reverse := by
  have main : ∀ (arcs : List Arc) (t : Table), (∀ a ∈ arcs, first a < t.size) →
      Table.at (arcs.foldl (fun t a => t.modify (first a) (second a :: ·)) t) v =
        ((arcs.filter (first · == v)).map second).reverse ++ t.at v := by
    intro arcs
    induction arcs with
    | nil => intro t _; simp
    | cons a arcs ih =>
      intro t ht
      rw [List.foldl_cons, ih _ (by
        intro b hb
        rw [Array.size_modify]
        exact ht b (List.mem_cons_of_mem a hb)), at_modify (ht a List.mem_cons_self)]
      by_cases hv : first a = v <;> simp [hv]
  rw [tabulate, main arcs _ (by simpa using h)]
  have : Table.at (Array.replicate size []) v = [] := by
    simp only [Table.at, Array.getD_eq_getD_getElem?, Array.getElem?_replicate]
    split <;> rfl
  rw [this, List.append_nil]

theorem at_successorTable (g : Digraph) (v : Nat) : g.successorTable.at v = g.successors v :=
  at_tabulate (fun a ha => (g.inRange a ha).1) v

theorem at_predecessorTable (g : Digraph) (v : Nat) :
    g.predecessorTable.at v = g.predecessors v :=
  at_tabulate (fun a ha => (g.inRange a ha).2) v

theorem mem_successors {g : Digraph} {v w : Nat} : w ∈ g.successors v ↔ ⟨v, w⟩ ∈ g.arcs := by
  simp only [successors, List.mem_reverse, List.mem_map, List.mem_filter, beq_iff_eq]
  constructor
  · rintro ⟨⟨_, _⟩, ⟨h, rfl⟩, rfl⟩
    exact h
  · intro h
    exact ⟨_, ⟨h, rfl⟩, rfl⟩

theorem mem_predecessors {g : Digraph} {v w : Nat} :
    w ∈ g.predecessors v ↔ ⟨w, v⟩ ∈ g.arcs := by
  simp only [predecessors, List.mem_reverse, List.mem_map, List.mem_filter, beq_iff_eq]
  constructor
  · rintro ⟨⟨_, _⟩, ⟨h, rfl⟩, rfl⟩
    exact h
  · intro h
    exact ⟨_, ⟨h, rfl⟩, rfl⟩

end Digraph

end LayeredDrawing
