import LayeredDrawing.Digraph.Topological
import LayeredDrawing.Proofs.Digraph.Acyclic

/-!
# Topological orders are found

The first search keeps one stack for the nodes that it has entered and for those still to be
entered. `Leaving` is its invariant with the stack taken apart into a path (`stackOf`): the
nodes entered and not yet left, each with the nodes that wait to be entered before it is left.
When a node is left, its successors have been left before it, or are on the path below it and
so reach it. Hence every arc between two nodes leads forward in the list of departures or lies
on a cycle (`Leaving.ordered`), whether the graph has cycles or not.

* `isTopological_of_topologicalOrder`: a list that is found is a topological order.
* `onCycle_of_topologicalOrder`: a node that is refused is on a cycle.
* `exists_topologicalOrder`: so an acyclic graph gets its topological order.
-/

namespace LayeredDrawing.Digraph

open Relation

/-! ## The invariant of the first search -/

/-- The stack of a search with the given path. -/
def stackOf (path : List (Nat × List Nat)) : List Nat :=
  path.flatMap fun e => e.2 ++ [e.1]

theorem stackOf_cons (v : Nat) (ws : List Nat) (path : List (Nat × List Nat)) :
    stackOf ((v, ws) :: path) = ws ++ v :: stackOf path := by
  simp [stackOf]

/-- The nodes that wait at a node of a path are targets of its arcs, and none of them is on the
path up to there. -/
def Waiting (g : Digraph) : List (Nat × List Nat) → Prop
  | [] => True
  | (v, ws) :: path =>
    (∀ w ∈ ws, g.Adj v w ∧ w ≠ v ∧ w ∉ path.map (·.1)) ∧ Waiting g path

/-- A first search with the given path. -/
structure Leaving (g : Digraph) (d : Departures) (path : List (Nat × List Nat)) : Prop where
  perm : (d.unseen ++ (path.map (·.1) ++ d.left)).Perm g.nodes
  trail : g.Trail (path.map (·.1))
  waiting : g.Waiting path
  /-- The unseen targets of a node that has been entered wait there. -/
  seen : ∀ v ∈ path.map (·.1) ++ d.left, ∀ w ∈ d.unseen, g.Adj v w →
    ∃ ws, (v, ws) ∈ path ∧ w ∈ ws
  loopless : ∀ v ∈ path.map (·.1) ++ d.left, ¬ g.Adj v v
  /-- A target of a node that has been left was left earlier, or reaches that node. -/
  ordered : ∀ v ∈ d.left, ∀ w, g.Adj v w → [v, w].Sublist d.left ∨ TransGen g.Adj w v

namespace Leaving

variable {g : Digraph} {d : Departures} {path : List (Nat × List Nat)} {v w : Nat}
  {ws : List Nat}

theorem start (g : Digraph) : Leaving g ⟨g.nodes, []⟩ [] where
  perm := by simp
  trail := List.Pairwise.nil
  waiting := trivial
  seen := by simp
  loopless := by simp
  ordered := by simp

theorem nodup (h : Leaving g d path) : (d.unseen ++ (path.map (·.1) ++ d.left)).Nodup :=
  h.perm.nodup_iff.2 g.nodup_nodes

theorem mem_of_not_mem_unseen (h : Leaving g d path) (hv : v < g.size) (hu : v ∉ d.unseen) :
    v ∈ path.map (·.1) ++ d.left :=
  (List.mem_append.1 (h.perm.mem_iff.2 (mem_nodes.2 hv))).resolve_left hu

theorem not_mem_unseen (h : Leaving g d path) (hv : v ∈ path.map (·.1) ++ d.left) :
    v ∉ d.unseen :=
  fun hu => h.nodup.disjoint hu hv

theorem nodup_unseen (h : Leaving g d path) : d.unseen.Nodup := h.nodup.of_append_left

/-! ### The steps of the search -/

/-- An unseen node without a loop is entered, from the end of the path or as a root. -/
theorem enter (h : Leaving g d path) (hw : w ∈ d.unseen)
    (hv : ∀ v ∈ (path.map (·.1)).head?, g.Adj v w) (hl : ¬ g.Adj w w) :
    Leaving g { d with unseen := d.unseen.erase w }
      ((w, ((g.successors w).filter (· ∈ d.unseen.erase w)).reverse) :: path) where
  perm := by
    have hp := (List.perm_cons_erase hw).append_right (path.map (·.1) ++ d.left)
    exact (List.perm_middle.trans hp.symm).trans h.perm
  trail := h.trail.cons hv
  waiting := by
    refine ⟨fun u hu => ?_, h.waiting⟩
    simp only [List.mem_reverse, List.mem_filter, decide_eq_true_eq] at hu
    refine ⟨mem_successors.1 hu.1, fun e => h.nodup_unseen.not_mem_erase (e ▸ hu.2), fun hm => ?_⟩
    exact h.not_mem_unseen (List.mem_append_left _ hm) (List.mem_of_mem_erase hu.2)
  seen := by
    intro v hv u hu ha
    rcases List.mem_cons.1 hv with rfl | hv
    · exact ⟨_, List.mem_cons_self, by simp [mem_successors.2 ha, hu]⟩
    · obtain ⟨us, hm, hu⟩ := h.seen v hv u (List.mem_of_mem_erase hu) ha
      exact ⟨us, List.mem_cons_of_mem _ hm, hu⟩
  loopless := by
    intro v hv
    rcases List.mem_cons.1 hv with rfl | hv
    · exact hl
    · exact h.loopless v hv
  ordered := h.ordered

/-- A waiting node that has been seen does not wait any longer. -/
theorem skip (above : List (Nat × List Nat))
    (h : Leaving g d (above ++ (v, w :: ws) :: path)) (hw : w ∉ d.unseen) :
    Leaving g d (above ++ (v, ws) :: path) := by
  have e : (above ++ (v, ws) :: path).map (·.1) =
      (above ++ (v, w :: ws) :: path).map (·.1) := by simp
  refine ⟨e ▸ h.perm, e ▸ h.trail, ?_, fun x hx u hu ha => ?_, e ▸ h.loopless, h.ordered⟩
  · have hwait := h.waiting
    clear h e
    induction above with
    | nil => exact ⟨fun u hu => hwait.1 u (List.mem_cons_of_mem _ hu), hwait.2⟩
    | cons a above ih =>
      refine ⟨fun u hu => ?_, ih hwait.2⟩
      simpa using hwait.1 u hu
  · obtain ⟨us, hm, hm'⟩ := h.seen x (e ▸ hx) u hu ha
    rcases List.mem_append.1 hm with hm | hm
    · exact ⟨us, List.mem_append_left _ hm, hm'⟩
    · rcases List.mem_cons.1 hm with e | hm
      · obtain ⟨rfl, rfl⟩ := Prod.mk.inj e
        have hu : u ∈ ws := (List.mem_cons.1 hm').resolve_left fun e => hw (e ▸ hu)
        exact ⟨ws, by simp, hu⟩
      · exact ⟨us, by simp [hm], hm'⟩

/-- A node at which none waits is left. -/
theorem depart (h : Leaving g d ((v, []) :: path)) :
    Leaving g { d with left := v :: d.left } path where
  perm := (List.perm_middle.append_left d.unseen).trans h.perm
  trail := (List.pairwise_cons.1 h.trail).2
  waiting := h.waiting.2
  seen := by
    intro x hx u hu ha
    obtain ⟨us, hm, hm'⟩ := h.seen x (List.perm_middle.mem_iff.1 hx) u hu ha
    rcases List.mem_cons.1 hm with e | hm
    · obtain ⟨-, rfl⟩ := Prod.mk.inj e
      simp at hm'
    · exact ⟨us, hm, hm'⟩
  loopless := fun x hx => h.loopless x (List.perm_middle.mem_iff.1 hx)
  ordered := by
    intro x hx w ha
    rcases List.mem_cons.1 hx with rfl | hx
    · have hwv : w ≠ x := fun e => h.loopless x List.mem_cons_self (e ▸ ha)
      -- nothing waits at the node, so its targets have all been seen
      have hw : w ∉ d.unseen := by
        intro hu
        obtain ⟨us, hm, hm'⟩ := h.seen x List.mem_cons_self w hu ha
        rcases List.mem_cons.1 hm with e | hm
        · obtain ⟨-, rfl⟩ := Prod.mk.inj e
          simp at hm'
        · have hn := h.nodup.of_append_right
          exact (List.nodup_cons.1 hn).1 (List.mem_append_left _ (List.mem_map.2 ⟨_, hm, rfl⟩))
      have hm := (List.mem_cons.1 (h.mem_of_not_mem_unseen ha.lt.2 hw)).resolve_left hwv
      rcases List.mem_append.1 hm with hm | hm
      · exact .inr (List.rel_of_pairwise_cons h.trail hm)
      · exact .inl ((List.singleton_sublist.2 hm).cons_cons x)
    · rcases h.ordered x hx w ha with hs | ht
      · exact .inl (hs.cons v)
      · exact .inr ht

end Leaving

/-! ## Whole searches -/

/-- What a first search comes to: all nodes entered are left and no node is unseen again, or a
node with a loop is found. -/
def Departs (g : Digraph) (d : Departures) : Except Nat Departures → Prop
  | .ok d' => Leaving g d' [] ∧ d'.unseen.Sublist d.unseen
  | .error v => g.Adj v v

variable {g : Digraph} {d : Departures} {path : List (Nat × List Nat)}

theorem Departs.mono {d' : Departures} {r : Except Nat Departures} (h : g.Departs d' r)
    (hd : d'.unseen.Sublist d.unseen) : g.Departs d r := by
  cases r with
  | ok d'' => exact ⟨h.1, h.2.trans hd⟩
  | error v => exact h

theorem Leaving.departs (h : Leaving g d path) {stack : List Nat} (hs : stack = stackOf path) :
    g.Departs d (leave g.successors d stack) := by
  fun_induction leave g.successors d stack generalizing path with
  | case1 d =>
    cases path with
    | nil => exact ⟨h, .refl _⟩
    | cons e path => simp [stackOf] at hs
  | case2 d v stack hu hl => exact mem_successors.1 hl
  | case3 d w stack hu hl unseen =>
    rename_i ih
    match path with
    | [] => simp [stackOf] at hs
    | (v, []) :: path =>
      -- the node at the end of the path has been seen
      obtain ⟨rfl, -⟩ := List.cons.inj (hs.trans (stackOf_cons v [] path))
      exact absurd hu (h.not_mem_unseen List.mem_cons_self)
    | (v, u :: ws) :: path =>
      obtain ⟨rfl, rfl⟩ := List.cons.inj (hs.trans (stackOf_cons v (u :: ws) path))
      have ha : g.Adj v w := (h.waiting.1 w List.mem_cons_self).1
      have h' := Leaving.skip [(w, ((g.successors w).filter (· ∈ d.unseen.erase w)).reverse)]
        (h.enter hu (by simpa using ha) fun hl' => hl (mem_successors.2 hl'))
        h.nodup_unseen.not_mem_erase
      exact (ih h' (by simp [stackOf_cons, unseen])).mono List.erase_sublist
  | case4 d w stack hu ih =>
    match path with
    | [] => simp [stackOf] at hs
    | (v, []) :: path =>
      obtain ⟨rfl, rfl⟩ := List.cons.inj (hs.trans (stackOf_cons v [] path))
      have hl : w ∉ d.left := by
        have hn := h.nodup.of_append_right
        exact fun hm => (List.nodup_cons.1 hn).1 (List.mem_append_right _ hm)
      simp only [hl, if_false, dite_false] at ih ⊢
      exact ih h.depart rfl
    | (v, u :: ws) :: path =>
      obtain ⟨rfl, rfl⟩ := List.cons.inj (hs.trans (stackOf_cons v (u :: ws) path))
      obtain ⟨ha, hv, hp⟩ := h.waiting.1 w List.mem_cons_self
      -- a waiting node that has been seen is off the path, so it has been left
      have hl : w ∈ d.left := by
        rcases List.mem_append.1 (h.mem_of_not_mem_unseen ha.lt.2 hu) with hm | hm
        · exact absurd ((List.mem_cons.1 hm).resolve_left hv) hp
        · exact hm
      simp only [hl, if_true, dite_true] at ih ⊢
      exact ih (Leaving.skip [] h hu) (stackOf_cons v ws path).symm

/-- A search from an unseen root. -/
theorem Leaving.departs_root (h : Leaving g d []) {v : Nat} (hv : v ∈ d.unseen) :
    g.Departs { d with unseen := d.unseen.erase v } (leave g.successors d [v]) := by
  rw [leave]
  simp only [hv, if_true]
  split
  · rename_i hl
    exact mem_successors.1 hl
  · rename_i hl
    have h' := h.enter hv (by simp) fun hl' => hl (mem_successors.2 hl')
    exact h'.departs (stackOf_cons v _ []).symm

theorem Leaving.departs_leaveAll (h : Leaving g d []) (vs : List Nat) :
    g.Departs d (leaveAll g.successors d vs) ∧
      ∀ d', leaveAll g.successors d vs = .ok d' → ∀ v ∈ vs, v ∉ d'.unseen := by
  induction vs generalizing d with
  | nil => exact ⟨⟨h, .refl _⟩, by simp⟩
  | cons v vs ih =>
    rw [leaveAll]
    -- either way the search goes on from a state in which the root is seen
    have step : ∀ {d'}, (if v ∈ d.unseen then leave g.successors d [v] else .ok d) = .ok d' →
        Leaving g d' [] ∧ d'.unseen.Sublist d.unseen ∧ v ∉ d'.unseen := by
      intro d' hd'
      split at hd'
      · rename_i hv
        have hr := h.departs_root hv
        rw [hd'] at hr
        exact ⟨hr.1, hr.2.trans List.erase_sublist,
          fun hm => h.nodup_unseen.not_mem_erase (hr.2.subset hm)⟩
      · rename_i hv
        obtain rfl := Except.ok.inj hd'
        exact ⟨h, .refl _, hv⟩
    split
    · rename_i d' hd'
      obtain ⟨h', hs, hv⟩ := step hd'
      obtain ⟨hr, hvs⟩ := ih h'
      refine ⟨hr.mono hs, fun d'' hd'' u hu => ?_⟩
      rcases List.mem_cons.1 hu with rfl | hu
      · rw [hd''] at hr
        exact fun hm => hv (hr.2.subset hm)
      · exact hvs d'' hd'' u hu
    · rename_i u hu
      refine ⟨?_, by simp⟩
      split at hu
      · rename_i hv
        have hr := h.departs_root hv
        rw [hu] at hr
        exact hr
      · simp at hu

/-! ## Misplaced predecessors -/

theorem misplaced?_eq_none {previous : Nat → List Nat} {order : List Nat}
    (h : misplaced? previous order = none) {u v : Nat} (hs : [v, u].Sublist order) :
    u ∉ previous v := by
  induction order with
  | nil => simp at hs
  | cons x order ih =>
    rw [misplaced?] at h
    split at h
    · simp at h
    · rename_i hx
      cases hs with
      | cons _ hs => exact ih h hs
      | cons_cons _ hs =>
        rw [List.getLast?_eq_none_iff, List.filter_eq_nil_iff] at hx
        exact fun hu => hx u hu (by simpa using hs)

theorem misplaced?_eq_some {previous : Nat → List Nat} {order : List Nat} {u : Nat}
    (h : misplaced? previous order = some u) :
    ∃ v, [v, u].Sublist order ∧ u ∈ previous v := by
  induction order with
  | nil => simp [misplaced?] at h
  | cons x order ih =>
    rw [misplaced?] at h
    split at h
    · rename_i w hw
      obtain rfl := Option.some.inj h
      have hm := List.mem_of_getLast? hw
      simp only [List.mem_filter, decide_eq_true_eq] at hm
      exact ⟨x, (List.singleton_sublist.2 hm.2).cons_cons x, hm.1⟩
    · obtain ⟨v, hv, hp⟩ := ih h
      exact ⟨v, hv.cons x, hp⟩

/-! ## Topological orders -/

/-- After all searches every node has been left. -/
theorem leaving_leaveAll (h : leaveAll g.successors ⟨g.nodes, []⟩ g.nodes = .ok d) :
    Leaving g d [] ∧ d.left.Perm g.nodes := by
  obtain ⟨hr, hvs⟩ := (Leaving.start g).departs_leaveAll g.nodes
  rw [h] at hr
  have hu : d.unseen = [] :=
    List.eq_nil_iff_forall_not_mem.2 fun v hv => hvs d h v (hr.2.subset hv) hv
  exact ⟨hr.1, by simpa [hu] using hr.1.perm⟩

/-- A list that is found is a topological order. -/
theorem isTopological_of_topologicalOrder {order : List Nat}
    (h : g.topologicalOrder = .ok order) : g.IsTopological order := by
  rw [topologicalOrder, successorTable_at, predecessorTable_at] at h
  simp only at h
  split at h
  · simp at h
  · rename_i d hd
    obtain ⟨hleft, hp⟩ := leaving_leaveAll hd
    split at h
    · simp at h
    · rename_i hm
      obtain rfl := Except.ok.inj h
      refine ⟨hp, fun a ha => ?_⟩
      have hs : a.source ∈ d.left := hp.mem_iff.2 (mem_nodes.2 (g.inRange a ha).1)
      have ht : a.target ∈ d.left := hp.mem_iff.2 (mem_nodes.2 (g.inRange a ha).2)
      have hne : a.source ≠ a.target := by
        intro e
        have hl : g.Adj a.source a.target := ha
        exact hleft.loopless a.source hs (by rwa [← e] at hl)
      refine (pair_sublist_or hs ht hne).resolve_right fun hback => ?_
      exact misplaced?_eq_none hm hback (mem_predecessors.2 ha)

/-- A node that is refused is on a cycle. -/
theorem onCycle_of_topologicalOrder {v : Nat} (h : g.topologicalOrder = .error v) :
    g.OnCycle v := by
  rw [topologicalOrder, successorTable_at, predecessorTable_at] at h
  simp only at h
  split at h
  · rename_i u hu
    obtain rfl := Except.error.inj h
    have hr := ((Leaving.start g).departs_leaveAll g.nodes).1
    rw [hu] at hr
    exact .single hr
  · rename_i d hd
    obtain ⟨hleft, hp⟩ := leaving_leaveAll hd
    split at h
    · rename_i u hu
      obtain rfl := Except.error.inj h
      obtain ⟨v, hback, hv⟩ := misplaced?_eq_some hu
      have ha : g.Adj u v := mem_predecessors.1 hv
      -- the arc does not lead forward, so it lies on a cycle
      rcases hleft.ordered u (hback.subset (by simp)) v ha with hs | ht
      · have hn : d.left.Nodup := hp.nodup_iff.2 g.nodup_nodes
        have := idxOf_lt_of_pair_sublist hs hn
        have := idxOf_lt_of_pair_sublist hback hn
        omega
      · exact .head ha ht
    · simp at h

theorem exists_topologicalOrder (h : g.IsAcyclic) :
    ∃ order, g.topologicalOrder = .ok order ∧ g.IsTopological order := by
  cases ho : g.topologicalOrder with
  | ok order => exact ⟨order, rfl, isTopological_of_topologicalOrder ho⟩
  | error v => exact absurd (onCycle_of_topologicalOrder ho) (h v)

end LayeredDrawing.Digraph
