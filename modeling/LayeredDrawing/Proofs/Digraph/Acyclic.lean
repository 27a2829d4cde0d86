import LayeredDrawing.Digraph.Basic
import Mathlib.Data.List.Basic
import Mathlib.Data.List.Nodup
import Mathlib.Logic.Relation

/-!
# Acyclic graphs

A graph is acyclic if no node can be reached from itself along at least one arc. It is enough
to have a topological order, a list of all nodes in which every arc leads forward
(`IsTopological.isAcyclic`). That one node comes before another in a list is said by the sublist
of the two, which a longer list keeps.
-/

namespace LayeredDrawing

open Relation

/-! ## Pairs of members of a list -/

section Pair

variable {α : Type} [BEq α] [LawfulBEq α] {u v : α} {l : List α}

/-- A member of a list without duplicates stands in one place. -/
theorem eq_idxOf_of_getElem? (hl : l.Nodup) {i : Nat} (h : l[i]? = some u) : i = l.idxOf u := by
  obtain ⟨hi, rfl⟩ := List.getElem?_eq_some_iff.1 h
  exact (hl.idxOf_getElem i hi).symm

theorem index_unique (hl : l.Nodup) {i j : Nat} (hi : l[i]? = some u) (hj : l[j]? = some u) :
    i = j :=
  (eq_idxOf_of_getElem? hl hi).trans (eq_idxOf_of_getElem? hl hj).symm

theorem idxOf_lt_of_pair_sublist (h : [u, v].Sublist l) (hl : l.Nodup) :
    l.idxOf u < l.idxOf v := by
  induction l with
  | nil => simp at h
  | cons x l ih =>
    obtain ⟨hx, hl⟩ := List.nodup_cons.1 hl
    cases h with
    | cons _ h =>
      have hu : x ≠ u := fun e => hx (e ▸ h.subset (by simp))
      have hv : x ≠ v := fun e => hx (e ▸ h.subset (by simp))
      rw [List.idxOf_cons_ne _ hu, List.idxOf_cons_ne _ hv]
      exact Nat.succ_lt_succ (ih h hl)
    | cons_cons _ h =>
      have hv : u ≠ v := fun e => hx (e ▸ h.subset (by simp))
      rw [List.idxOf_cons_self, List.idxOf_cons_ne _ hv]
      omega

omit [BEq α] [LawfulBEq α] in
theorem pair_sublist_append {l₁ l₂ : List α} (hu : u ∈ l₁) (hv : v ∈ l₂) :
    [u, v].Sublist (l₁ ++ l₂) :=
  (List.singleton_sublist.2 hu).append (List.singleton_sublist.2 hv)

omit [BEq α] [LawfulBEq α] in
theorem pair_sublist_or (hu : u ∈ l) (hv : v ∈ l) (h : u ≠ v) :
    [u, v].Sublist l ∨ [v, u].Sublist l := by
  obtain ⟨s, t, rfl⟩ := List.append_of_mem hu
  rcases List.mem_append.1 hv with hv | hv
  · exact .inr (pair_sublist_append hv List.mem_cons_self)
  · have hv : v ∈ t := (List.mem_cons.1 hv).resolve_left h.symm
    have : [u, v].Sublist (u :: t) := (List.singleton_sublist.2 hv).cons_cons u
    exact .inl (this.trans (List.sublist_append_right s _))

end Pair

/-! ## Cycles -/

namespace Digraph

/-- There is an arc from one node to the other. -/
def Adj (g : Digraph) (u v : Nat) : Prop := ⟨u, v⟩ ∈ g.arcs

/-- The node can be reached from itself along at least one arc. -/
def OnCycle (g : Digraph) (v : Nat) : Prop := TransGen g.Adj v v

/-- No node is on a cycle. -/
def IsAcyclic (g : Digraph) : Prop := ∀ v, ¬ g.OnCycle v

/-- A list of all nodes in which every arc leads forward. -/
structure IsTopological (g : Digraph) (order : List Nat) : Prop where
  perm : order.Perm g.nodes
  forward : ∀ a ∈ g.arcs, [a.source, a.target].Sublist order

variable {g : Digraph}

theorem mem_nodes {v : Nat} : v ∈ g.nodes ↔ v < g.size := List.mem_range

theorem nodup_nodes (g : Digraph) : g.nodes.Nodup := List.nodup_range

theorem successorTable_at (g : Digraph) : g.successorTable.at = g.successors :=
  funext g.at_successorTable

theorem predecessorTable_at (g : Digraph) : g.predecessorTable.at = g.predecessors :=
  funext g.at_predecessorTable

theorem Adj.lt {u v : Nat} (h : g.Adj u v) : u < g.size ∧ v < g.size := g.inRange _ h

namespace IsTopological

variable {order : List Nat}

theorem nodup (h : g.IsTopological order) : order.Nodup :=
  h.perm.nodup_iff.2 g.nodup_nodes

theorem mem_iff (h : g.IsTopological order) {v : Nat} : v ∈ order ↔ v < g.size :=
  h.perm.mem_iff.trans mem_nodes

/-- A walk leads forward as well. -/
theorem idxOf_lt (h : g.IsTopological order) {u v : Nat} (huv : TransGen g.Adj u v) :
    order.idxOf u < order.idxOf v := by
  induction huv with
  | single h' => exact idxOf_lt_of_pair_sublist (h.forward _ h') h.nodup
  | tail _ h' ih => exact Nat.lt_trans ih (idxOf_lt_of_pair_sublist (h.forward _ h') h.nodup)

/-- **A graph with a topological order has no cycle.** -/
theorem isAcyclic (h : g.IsTopological order) : g.IsAcyclic :=
  fun _ hv => Nat.lt_irrefl _ (h.idxOf_lt hv)

end IsTopological

/-! ## Paths of a search -/

/-- Each node of a path, given with its deepest node first, can be reached from those before
it. -/
def Trail (g : Digraph) (nodes : List Nat) : Prop :=
  nodes.Pairwise fun v u => TransGen g.Adj u v

theorem Trail.cons {nodes : List Nat} {w : Nat} (h : g.Trail nodes)
    (hw : ∀ v ∈ nodes.head?, g.Adj v w) : g.Trail (w :: nodes) := by
  refine List.pairwise_cons.2 ⟨fun u hu => ?_, h⟩
  cases nodes with
  | nil => simp at hu
  | cons v nodes =>
    have hv : g.Adj v w := hw v rfl
    rcases List.mem_cons.1 hu with rfl | hu
    · exact .single hv
    · exact (List.rel_of_pairwise_cons h hu).tail hv

end Digraph

end LayeredDrawing
