/-!
# The workload of a search

A search through a graph visits each node once and then looks at its neighbours once each.
`workload next unseen` is the number of these steps that a search which has not seen the nodes
of `unseen` still has before it; it bounds every search of this library. Visiting a node takes
its share off the workload (`workload_erase`) and, in a search that comes back to the nodes of
its path, adds it to their `pathload`.
-/

namespace LayeredDrawing.Digraph

/-- The number of unseen nodes and of their neighbours. -/
def workload (next : Nat → List Nat) : List Nat → Nat
  | [] => 0
  | v :: unseen => (next v).length + 1 + workload next unseen

/-- The number of neighbours that the nodes of a path have still to look at, and of these nodes
themselves. -/
def pathload : List (Nat × List Nat) → Nat
  | [] => 0
  | (_, ws) :: path => ws.length + 1 + pathload path

theorem workload_erase (next : Nat → List Nat) {unseen : List Nat} {v : Nat}
    (h : v ∈ unseen) :
    workload next (unseen.erase v) + ((next v).length + 1) = workload next unseen := by
  induction unseen with
  | nil => simp at h
  | cons u us ih =>
    by_cases hu : u = v
    · subst hu
      rw [List.erase_cons_head, workload]
      omega
    · have hv : v ∈ us := (List.mem_cons.1 h).resolve_left (Ne.symm hu)
      have := ih hv
      rw [List.erase_cons_tail (by simpa using hu)]
      simp only [workload]
      omega

end LayeredDrawing.Digraph
