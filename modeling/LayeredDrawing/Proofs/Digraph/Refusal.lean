import LayeredDrawing.Error
import LayeredDrawing.Layering.Ordering
import LayeredDrawing.Proofs.Digraph.LongestPath

/-!
# Graphs that are refused

A graph with a cycle has no ranks, and the error names a node. It comes from one of two searches.
The first one refuses a node with a loop. The second one goes against the arcs: from each node that
the first one has left, last one first, it walks over nodes that it has not visited before. In a
graph without cycles all nodes before it have been visited by then, and it goes nowhere
(`secondVisit?`). Wherever it goes first, there is a predecessor that comes too late, and no walk
has to be made to see it (`secondVisit?_eq_misplaced?`).

* `topologicalOrder_eq_secondVisit?`: the order is that of the two searches.
* `ranks_refused`: **a graph is refused for its cycles**, and the error names a node on one.
-/

namespace LayeredDrawing.Digraph

/-! ## The search against the arcs -/

/-- The node that a walk against the arcs visits after the one it starts from, for the first walk
that visits a second node; the walks start from the nodes of a list in turn and share what they
have not visited. -/
def secondVisit? (previous : Nat → List Nat) : (unseen : List Nat) → List Nat → Option Nat
  | _, [] => none
  | unseen, v :: later =>
    match Layering.walk previous unseen [] [v] with
    | _ :: u :: _ => some u
    | visited => secondVisit? previous (unseen.filter (· ∉ visited)) later

variable {previous : Nat → List Nat} {unseen visited stack : List Nat} {v : Nat}

theorem prefix_walk : visited.reverse <+: Layering.walk previous unseen visited stack := by
  fun_induction Layering.walk previous unseen visited stack with
  | case1 => exact List.prefix_rfl
  | case2 unseen visited v stack hv unseen' ih =>
    rw [List.reverse_cons] at ih
    exact (List.prefix_append _ _).trans ih
  | case3 unseen visited v stack hv ih => exact ih

/-- A walk from a node goes on to the last of its predecessors that has not been visited. -/
theorem walk_root (hv : v ∈ unseen) :
    Layering.walk previous unseen [] [v] =
      Layering.walk previous (unseen.erase v) [v]
        ((previous v).filter (· ∈ unseen.erase v)).reverse := by
  rw [Layering.walk, if_pos hv]
  simp only [List.append_nil]

theorem secondVisit?_cons_of_none {later : List Nat} (hv : v ∈ unseen)
    (h : (previous v).filter (· ∈ unseen.erase v) = []) :
    secondVisit? previous unseen (v :: later) =
      secondVisit? previous (unseen.filter (· ∉ [v])) later := by
  rw [secondVisit?, walk_root hv, h, List.reverse_nil, Layering.walk]
  rfl

theorem secondVisit?_cons_of_some {later : List Nat} {u : Nat} (hv : v ∈ unseen)
    (h : ((previous v).filter (· ∈ unseen.erase v)).getLast? = some u) :
    secondVisit? previous unseen (v :: later) = some u := by
  obtain ⟨us, hus⟩ := List.getLast?_eq_some_iff.1 h
  have hu : u ∈ unseen.erase v := by
    have hm : u ∈ (previous v).filter (· ∈ unseen.erase v) := List.mem_of_getLast? h
    simpa using (List.mem_filter.1 hm).2
  rw [secondVisit?, walk_root hv, hus, List.reverse_append, List.reverse_singleton,
    List.singleton_append, Layering.walk, if_pos hu]
  obtain ⟨rest, hrest⟩ : [u, v].reverse <+: Layering.walk previous ((unseen.erase v).erase u) [u, v]
      (((previous u).filter (· ∈ (unseen.erase v).erase u)).reverse ++ us.reverse) := prefix_walk
  rw [← hrest]
  rfl

/-- The walks go to a second node where a predecessor comes later in the list, and to that one. -/
theorem secondVisit?_eq_misplaced? {order : List Nat} (hp : unseen.Perm order)
    (hn : order.Nodup) : secondVisit? previous unseen order = misplaced? previous order := by
  induction order generalizing unseen with
  | nil => rfl
  | cons v later ih =>
    obtain ⟨hv, hn⟩ := List.nodup_cons.1 hn
    have hmem : v ∈ unseen := hp.mem_iff.2 List.mem_cons_self
    have herase : (unseen.erase v).Perm later := by
      simpa using hp.erase v
    have hfilter : (previous v).filter (· ∈ unseen.erase v) =
        (previous v).filter (· ∈ later) :=
      List.filter_congr fun u _ => by simp only [herase.mem_iff]
    rw [misplaced?]
    cases hlast : ((previous v).filter (· ∈ later)).getLast? with
    | some u => exact secondVisit?_cons_of_some hmem (hfilter ▸ hlast)
    | none =>
      rw [List.getLast?_eq_none_iff, ← hfilter] at hlast
      rw [secondVisit?_cons_of_none hmem hlast]
      refine ih ?_ hn
      have hrest : (v :: later).filter (· ∉ [v]) = later := by
        refine (List.filter_cons_of_neg (by simp)).trans (List.filter_eq_self.2 fun u hu => ?_)
        have hne : u ≠ v := fun e => hv (e ▸ hu)
        simpa using hne
      exact (hp.filter _).trans (.of_eq hrest)

/-- A topological order is found by the two searches. -/
theorem topologicalOrder_eq_secondVisit? (g : Digraph) :
    g.topologicalOrder =
      match leaveAll g.successors ⟨g.nodes, []⟩ g.nodes with
      | .error v => .error v
      | .ok d =>
        match secondVisit? g.predecessors g.nodes d.left with
        | some u => .error u
        | none => .ok d.left := by
  rw [topologicalOrder, successorTable_at, predecessorTable_at]
  cases hd : leaveAll g.successors ⟨g.nodes, []⟩ g.nodes with
  | error v => rfl
  | ok d =>
    obtain ⟨-, hp⟩ := leaving_leaveAll hd
    have hsecond : secondVisit? g.predecessors g.nodes d.left =
        misplaced? g.predecessors d.left :=
      secondVisit?_eq_misplaced? hp.symm (hp.nodup_iff.2 g.nodup_nodes)
    cases hm : misplaced? g.predecessors d.left <;> simp only [hsecond, hm]

/-! ## Refused graphs -/

variable {g : Digraph}

theorem onCycle_of_ranks (h : g.ranks = .error v) : g.OnCycle v := by
  rw [ranks] at h
  split at h
  · cases h
  · rename_i u hu
    obtain rfl := Except.error.inj h
    exact onCycle_of_topologicalOrder hu

theorem exists_ranks_eq_error_iff : (∃ v, g.ranks = .error v) ↔ ∃ v, g.OnCycle v := by
  constructor
  · rintro ⟨v, hv⟩
    exact ⟨v, onCycle_of_ranks hv⟩
  · rintro ⟨v, hv⟩
    cases hr : g.ranks with
    | error u => exact ⟨u, rfl⟩
    | ok ranks =>
      rw [Digraph.ranks] at hr
      split at hr
      · rename_i order ho
        exact absurd hv ((isTopological_of_topologicalOrder ho).isAcyclic v)
      · cases hr

/-- **A graph is refused for its cycles.** There are no ranks if and only if some node lies on a
cycle, be it only a loop, and the error is then about the layout and names a node on a cycle. -/
theorem ranks_refused (g : Digraph) :
    ((∃ err, g.ranks.mapError LayoutError.cycleThrough = .error err) ↔ ∃ v, g.OnCycle v) ∧
    ∀ err, g.ranks.mapError LayoutError.cycleThrough = .error err → ∃ v, g.OnCycle v ∧
      err = .layout ("Cycle through node " ++ toString v ++ " left after cycle breaking") := by
  have hmap : ∀ err, g.ranks.mapError LayoutError.cycleThrough = .error err ↔
      ∃ v, g.ranks = .error v ∧ err = .cycleThrough v := by
    intro err
    cases g.ranks with
    | error v => simp [Except.mapError, eq_comm]
    | ok ranks => simp [Except.mapError]
  constructor
  · rw [← exists_ranks_eq_error_iff]
    constructor
    · rintro ⟨err, herr⟩
      obtain ⟨v, hv, -⟩ := (hmap err).1 herr
      exact ⟨v, hv⟩
    · rintro ⟨v, hv⟩
      exact ⟨_, (hmap _).2 ⟨v, hv, rfl⟩⟩
  · intro err herr
    obtain ⟨v, hv, rfl⟩ := (hmap err).1 herr
    exact ⟨v, onCycle_of_ranks hv, rfl⟩

/-- Of two cycles, the graph is refused for the one that the first search leaves last. -/
example : (ofArcs 5 [⟨0, 1⟩, ⟨1, 2⟩, ⟨2, 1⟩, ⟨3, 4⟩, ⟨4, 3⟩]).ranks = .error 4 := by
  cbv

end LayeredDrawing.Digraph
