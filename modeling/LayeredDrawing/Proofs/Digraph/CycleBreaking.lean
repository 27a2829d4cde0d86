import LayeredDrawing.Digraph.Ranking
import LayeredDrawing.Proofs.Digraph.Acyclic

/-!
# Breaking cycles

A depth-first search leaves the nodes in an order in which every arc leads to a node left
earlier, but for loops and for the back arcs, which lead to a node left later. So a graph
without loops and with its back arcs reversed has a topological order, the nodes by the time
at which the search leaves them, last one first.

The search does not record that order. `Searching` is its invariant with the order as a second
list beside the path: `entered path left` has the nodes of the path from the root on and then
the nodes left so far. Leaving a node does not change this list at all, and entering one inserts
it between the two parts, so what comes before what in it is settled once and for all.

* `exists_isTopological_acyclic`: the graph without loops and with its back arcs reversed has a
  topological order.
* `closed_of_mem_backArcs`: only arcs on cycles are reversed.
* `acyclic_isAcyclic`: **cycles are broken** by dropping loops and reversing arcs, in place.
-/

namespace LayeredDrawing.Digraph

open Relation

/-! ## The invariant -/

/-- The nodes that a search has entered, by the time at which it leaves them, last one first. -/
def entered (path : List (Nat × List Nat)) (left : List Nat) : List Nat :=
  (path.map (·.1)).reverse ++ left

@[simp] theorem entered_nil (left : List Nat) : entered [] left = left := rfl

/-- Leaving a node keeps its place. -/
theorem entered_cons (e : Nat × List Nat) (path : List (Nat × List Nat)) (left : List Nat) :
    entered (e :: path) left = entered path (e.1 :: left) := by
  simp [entered]

/-- Entering a node inserts it. -/
theorem entered_sublist_cons (e : Nat × List Nat) (path : List (Nat × List Nat))
    (left : List Nat) : (entered path left).Sublist (entered (e :: path) left) := by
  rw [entered_cons]
  exact (List.Sublist.refl _).append (List.sublist_cons_self _ _)

theorem perm_entered_cons (e : Nat × List Nat) (path : List (Nat × List Nat))
    (left : List Nat) : (entered (e :: path) left).Perm (e.1 :: entered path left) := by
  rw [entered_cons]
  exact List.perm_middle

/-- A search with the given path, and with the nodes that it has left, last one first. -/
structure Searching (g : Digraph) (s : Search) (path : List (Nat × List Nat))
    (left : List Nat) : Prop where
  perm : (s.unseen ++ entered path left).Perm g.nodes
  trail : g.Trail (path.map (·.1))
  /-- Only targets of arcs are waiting to be looked at. -/
  pending : ∀ e ∈ path, ∀ w ∈ e.2, g.Adj e.1 w
  /-- A back arc closes a cycle. -/
  closed : ∀ a ∈ s.backArcs, g.Adj a.source a.target ∧ ReflTransGen g.Adj a.target a.source
  /-- A back arc leads to a node that is left later. -/
  back : ∀ a ∈ s.backArcs, a.isLoop = false → [a.target, a.source].Sublist (entered path left)
  /-- Every other arc that has been looked at leads to a node that is left earlier. -/
  forward : ∀ a ∈ g.arcs, a.isLoop = false → a ∉ s.backArcs → a.source ∈ entered path left →
    (∃ ws, (a.source, ws) ∈ path ∧ a.target ∈ ws) ∨
      [a.source, a.target].Sublist (entered path left)

namespace Searching

variable {g : Digraph} {s : Search} {path : List (Nat × List Nat)} {left : List Nat}
  {v w : Nat} {ws : List Nat}

theorem start (g : Digraph) : Searching g ⟨g.nodes, []⟩ [] [] where
  perm := by simp
  trail := List.Pairwise.nil
  pending := by simp
  closed := by simp
  back := by simp
  forward := by simp

theorem nodup (h : Searching g s path left) : (s.unseen ++ entered path left).Nodup :=
  h.perm.nodup_iff.2 g.nodup_nodes

theorem mem_entered (h : Searching g s path left) (hv : v < g.size) (hs : v ∉ s.unseen) :
    v ∈ entered path left :=
  (List.mem_append.1 (h.perm.mem_iff.2 (mem_nodes.2 hv))).resolve_left hs

/-! ## The steps of the search -/

/-- A node without more arcs is left. -/
theorem leave (h : Searching g s ((v, []) :: path) left) : Searching g s path (v :: left) where
  perm := by simpa only [entered_cons] using h.perm
  trail := (List.pairwise_cons.1 h.trail).2
  pending := fun e he => h.pending e (List.mem_cons_of_mem _ he)
  closed := h.closed
  back := by simpa only [entered_cons] using h.back
  forward := by
    intro a ha hl hb hs
    rcases h.forward a ha hl hb (by simpa only [entered_cons] using hs) with ⟨ws, hm, hw⟩ | hf
    · rcases List.mem_cons.1 hm with e | hm
      · obtain ⟨-, rfl⟩ := Prod.mk.inj e
        simp at hw
      · exact .inl ⟨ws, hm, hw⟩
    · exact .inr (by simpa only [entered_cons] using hf)

/-- An unseen node is entered, from the end of the path or as a new root. -/
theorem enter (h : Searching g s path left) (hw : w ∈ s.unseen)
    (hv : ∀ v ∈ (path.map (·.1)).head?, g.Adj v w) :
    Searching g { s with unseen := s.unseen.erase w } ((w, g.successors w) :: path) left where
  perm := by
    have h₁ := (perm_entered_cons (w, g.successors w) path left).append_left (s.unseen.erase w)
    have h₂ := (List.perm_cons_erase hw).append_right (entered path left)
    exact (h₁.trans (List.perm_middle.trans h₂.symm)).trans h.perm
  trail := h.trail.cons hv
  pending := by
    intro e he u hu
    rcases List.mem_cons.1 he with rfl | he
    · exact mem_successors.1 hu
    · exact h.pending e he u hu
  closed := h.closed
  back := fun a ha hl => (h.back a ha hl).trans (entered_sublist_cons _ _ _)
  forward := by
    intro a ha hl hb hs
    rcases List.mem_cons.1 ((perm_entered_cons _ _ _).mem_iff.1 hs) with e | hs
    · obtain ⟨u, t⟩ := a
      obtain rfl : u = w := e
      exact .inl ⟨_, List.mem_cons_self, mem_successors.2 ha⟩
    · rcases h.forward a ha hl hb hs with ⟨us, hm, hu⟩ | hf
      · exact .inl ⟨us, List.mem_cons_of_mem _ hm, hu⟩
      · exact .inr (hf.trans (entered_sublist_cons _ _ _))

/-- An arc that leads back to the path is recorded. -/
theorem record (h : Searching g s ((v, w :: ws) :: path) left)
    (hw : w = v ∨ w ∈ path.map (·.1)) :
    Searching g { s with backArcs := ⟨v, w⟩ :: s.backArcs } ((v, w :: ws) :: path) left where
  perm := h.perm
  trail := h.trail
  pending := h.pending
  closed := by
    intro a ha
    rcases List.mem_cons.1 ha with rfl | ha
    · refine ⟨h.pending _ List.mem_cons_self w List.mem_cons_self, ?_⟩
      rcases hw with rfl | hw
      · exact .refl
      · exact (List.rel_of_pairwise_cons h.trail hw).to_reflTransGen
    · exact h.closed a ha
  back := by
    intro a ha hl
    rcases List.mem_cons.1 ha with rfl | ha
    · have hne : v ≠ w := by simpa [Arc.isLoop] using hl
      rw [entered_cons]
      exact pair_sublist_append (List.mem_reverse.2 (hw.resolve_left hne.symm))
        List.mem_cons_self
    · exact h.back a ha hl
  forward := fun a ha hl hb => h.forward a ha hl fun hb' => hb (List.mem_cons_of_mem _ hb')

/-- An arc of a node of the path has been looked at, once its ends are in order. -/
theorem look (above : List (Nat × List Nat))
    (h : Searching g s (above ++ (v, w :: ws) :: path) left)
    (hw : ⟨v, w⟩ ∈ s.backArcs ∨
      [v, w].Sublist (entered (above ++ (v, w :: ws) :: path) left)) :
    Searching g s (above ++ (v, ws) :: path) left := by
  have e : entered (above ++ (v, ws) :: path) left =
      entered (above ++ (v, w :: ws) :: path) left := by simp [entered]
  refine ⟨e ▸ h.perm, by simpa using h.trail, fun e he u hu => ?_, h.closed, e ▸ h.back, ?_⟩
  · rcases List.mem_append.1 he with he | he
    · exact h.pending e (List.mem_append_left _ he) u hu
    · rcases List.mem_cons.1 he with rfl | he
      · exact h.pending (v, w :: ws) (by simp) u (List.mem_cons_of_mem _ hu)
      · exact h.pending e (by simp [he]) u hu
  · intro a ha hl hb hs
    rw [e] at hs ⊢
    rcases h.forward a ha hl hb hs with ⟨us, hm, hu⟩ | hf
    · rcases List.mem_append.1 hm with hm | hm
      · exact .inl ⟨us, List.mem_append_left _ hm, hu⟩
      · rcases List.mem_cons.1 hm with e | hm
        · obtain ⟨rfl, rfl⟩ := Prod.mk.inj e
          rcases List.mem_cons.1 hu with rfl | hu
          · exact .inr (hw.resolve_left hb)
          · exact .inl ⟨ws, by simp, hu⟩
        · exact .inl ⟨us, by simp [hm], hu⟩
    · exact .inr hf

/-! ## A whole search -/

theorem explore (h : Searching g s path left) :
    ∃ left, Searching g (Digraph.explore g.successors s path) [] left := by
  fun_induction Digraph.explore g.successors s path generalizing left with
  | case1 s => exact ⟨left, h⟩
  | case2 s v path ih => exact ih h.leave
  | case3 s v w ws path hw ih =>
    have hv : g.Adj v w := h.pending _ List.mem_cons_self w List.mem_cons_self
    have h' := h.enter hw (by simpa using hv)
    refine ih (look [(w, g.successors w)] h' (.inr ?_))
    rw [List.singleton_append, entered_cons, entered_cons]
    exact (((List.nil_sublist left).cons_cons w).cons_cons v).trans
      (List.sublist_append_right _ _)
  | case4 s v w ws path _ hw ih =>
    exact ih (look [] (h.record hw) (.inl List.mem_cons_self))
  | case5 s v w ws path hs hw ih =>
    obtain ⟨hv, hp⟩ := not_or.1 hw
    have hlt : w < g.size := (h.pending _ List.mem_cons_self w List.mem_cons_self).lt.2
    have hm := h.mem_entered hlt hs
    rw [entered_cons] at hm
    -- a node that is neither unseen nor on the path has been left
    have hl : w ∈ left := by
      rcases List.mem_append.1 hm with hm | hm
      · exact absurd (List.mem_reverse.1 hm) hp
      · exact (List.mem_cons.1 hm).resolve_left hv
    refine ih (look [] h (.inr ?_))
    rw [List.nil_append, entered_cons]
    exact ((List.singleton_sublist.2 hl).cons_cons v).trans (List.sublist_append_right _ _)

end Searching

theorem unseen_explore_sublist (next : Nat → List Nat) (s : Search)
    (path : List (Nat × List Nat)) : (explore next s path).unseen.Sublist s.unseen := by
  fun_induction explore next s path with
  | case1 s => exact .refl _
  | case2 s v path ih => exact ih
  | case3 s v w ws path hw ih => exact ih.trans List.erase_sublist
  | case4 s v w ws path _ _ ih => exact ih
  | case5 s v w ws path _ _ ih => exact ih

theorem unseen_exploreFrom_sublist (next : Nat → List Nat) (s : Search) (root : Nat) :
    (exploreFrom next s root).unseen.Sublist s.unseen := by
  unfold exploreFrom
  split
  · exact (unseen_explore_sublist next _ _).trans List.erase_sublist
  · exact .refl _

namespace Searching

variable {g : Digraph} {s : Search} {left : List Nat}

/-- A root is seen once it has been searched from. -/
theorem exploreFrom (h : Searching g s [] left) (root : Nat) :
    (∃ left, Searching g (Digraph.exploreFrom g.successors s root) [] left) ∧
      root ∉ (Digraph.exploreFrom g.successors s root).unseen := by
  unfold Digraph.exploreFrom
  split
  · rename_i hr
    refine ⟨(h.enter hr (by simp)).explore, fun hr' => ?_⟩
    have hs := (unseen_explore_sublist g.successors _ _).subset hr'
    exact h.nodup.of_append_left.not_mem_erase hs
  · rename_i hr
    exact ⟨⟨left, h⟩, hr⟩

theorem foldl_exploreFrom (h : Searching g s [] left) (roots : List Nat) :
    (∃ left, Searching g (roots.foldl (Digraph.exploreFrom g.successors) s) [] left) ∧
      (roots.foldl (Digraph.exploreFrom g.successors) s).unseen.Sublist s.unseen ∧
      ∀ r ∈ roots, r ∉ (roots.foldl (Digraph.exploreFrom g.successors) s).unseen := by
  induction roots generalizing s left with
  | nil => exact ⟨⟨left, h⟩, .refl _, by simp⟩
  | cons r roots ih =>
    obtain ⟨⟨left', h'⟩, hr⟩ := h.exploreFrom r
    obtain ⟨hl, hs, hroots⟩ := ih h'
    refine ⟨hl, hs.trans (unseen_exploreFrom_sublist _ s r), fun u hu => ?_⟩
    rcases List.mem_cons.1 hu with rfl | hu
    · exact fun hm => hr (hs.subset hm)
    · exact hroots u hu

end Searching

/-! ## The graph without cycles -/

/-- The search that finds the back arcs sees every node. -/
theorem exists_searching_backArcs (g : Digraph) :
    ∃ left, Searching g ⟨[], g.backArcs⟩ [] left := by
  obtain ⟨⟨left, h⟩, -, hroots⟩ :=
    (Searching.start g).foldl_exploreFrom (g.sources ++ g.nodes)
  have hu : ((g.sources ++ g.nodes).foldl (exploreFrom g.successors) ⟨g.nodes, []⟩).unseen =
      [] := by
    refine List.eq_nil_iff_forall_not_mem.2 fun v hv => ?_
    have hm := h.perm.subset (List.mem_append_left _ hv)
    exact hroots v (List.mem_append_right _ hm) hv
  refine ⟨left, ?_⟩
  rw [backArcs, successorTable_at, ← hu]
  exact h

/-- A back arc lies on a cycle: a walk leads back from its target to its source. -/
theorem closed_of_mem_backArcs {g : Digraph} {a : Arc} (h : a ∈ g.backArcs) :
    ReflTransGen g.Adj a.target a.source := by
  obtain ⟨_, hs⟩ := g.exists_searching_backArcs
  exact (hs.closed a h).2

theorem arcs_acyclic (g : Digraph) :
    g.acyclic.arcs = (g.arcs.filter (!·.isLoop)).map
      fun a => if a ∈ g.backArcs then a.reverse else a := by
  rw [← List.filterMap_eq_map, List.filterMap_filter]
  show g.arcs.filterMap (orient g.backArcs) = _
  congr 1
  funext a
  simp only [orient, Function.comp_apply]
  by_cases hl : a.isLoop
  · simp [hl]
  · by_cases hb : a ∈ g.backArcs <;> simp [hl, hb]

theorem exists_isTopological_acyclic (g : Digraph) :
    ∃ order, g.acyclic.IsTopological order := by
  obtain ⟨order, h⟩ := g.exists_searching_backArcs
  have hp : order.Perm g.nodes := by simpa using h.perm
  refine ⟨order, hp, fun b hb => ?_⟩
  rw [arcs_acyclic] at hb
  obtain ⟨a, ha, rfl⟩ := List.mem_map.1 hb
  obtain ⟨ha, hl⟩ := List.mem_filter.1 ha
  have hl : a.isLoop = false := by simpa using hl
  split
  · rename_i hb
    exact h.back a hb hl
  · rename_i hb
    have hs : a.source ∈ order := hp.mem_iff.2 (mem_nodes.2 (g.inRange a ha).1)
    rcases h.forward a ha hl hb hs with ⟨ws, hm, -⟩ | hf
    · simp at hm
    · exact hf

/-- **Breaking cycles leaves an acyclic graph** on the same nodes, with the arcs of the given
one in their order but for the loops. An arc is reversed if it joins the same nodes as a back
arc and kept otherwise, so parallel arcs are treated alike. -/
theorem acyclic_isAcyclic (g : Digraph) :
    g.acyclic.IsAcyclic ∧ g.acyclic.size = g.size ∧
      g.acyclic.arcs = (g.arcs.filter (!·.isLoop)).map
        fun a => if a ∈ g.backArcs then a.reverse else a := by
  obtain ⟨order, h⟩ := g.exists_isTopological_acyclic
  exact ⟨h.isAcyclic, rfl, g.arcs_acyclic⟩

end LayeredDrawing.Digraph
