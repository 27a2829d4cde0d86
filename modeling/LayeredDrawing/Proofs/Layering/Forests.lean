import LayeredDrawing.Proofs.Layering.Contraction
import LayeredDrawing.Proofs.Layering.Planarity

/-!
# The first ordering of a forest

Where ranks ascend along arcs, the walk lists all children of a vertex before it goes on to another
vertex of its rank: the children are put on top of the stack, and nothing comes to lie on top of
them but vertices of higher ranks (`Walking.waits`). In a forest it comes to a child after its
parent, although the walk starts from every node: a root that is no root of the forest stands
behind its parent on the stack (`Follows`). Both together say that the walk is in preorder, and the
vertices of a rank in preorder have their children in the order of the parents.

* `isPreorder_walk`: the walk down a forest is in preorder.
* `crossings_initialLayers`: **nothing crosses in the first ordering of a forest.**
-/

namespace LayeredDrawing.Layering

/-! ## Preorder -/

section Preorder

variable {next : Nat → List Nat} {rank : Nat → Nat} {unseen visited stack : List Nat} {u v : Nat}

/-- Visited vertices, newest first, in preorder: a vertex comes after each one that leads to it, and
after all that those of its rank or a higher one lead to, if they came before it. -/
structure IsPreorder (next : Nat → List Nat) (rank : Nat → Nat) (visited : List Nat) : Prop where
  parent : ∀ v older, v :: older <:+ visited → ∀ u, v ∈ next u → u ∈ older
  finished : ∀ v older, v :: older <:+ visited →
    ∀ u ∈ older, rank v ≤ rank u → ∀ w ∈ next u, w ∈ older

theorem IsPreorder.cons (h : IsPreorder next rank visited) (hparent : ∀ u, v ∈ next u → u ∈ visited)
    (hfinished : ∀ u ∈ visited, rank v ≤ rank u → ∀ w ∈ next u, w ∈ visited) :
    IsPreorder next rank (v :: visited) where
  parent := by
    intro w older hs
    rcases List.suffix_cons_iff.1 hs with e | hs
    · obtain ⟨rfl, rfl⟩ := List.cons.inj e
      exact hparent
    · exact h.parent w older hs
  finished := by
    intro w older hs
    rcases List.suffix_cons_iff.1 hs with e | hs
    · obtain ⟨rfl, rfl⟩ := List.cons.inj e
      exact hfinished
    · exact h.finished w older hs

/-- The members before one of a list are those with a smaller index. -/
theorem mem_iff_idxOf_lt {before after : List Nat} (hn : (before ++ v :: after).Nodup) :
    u ∈ before ↔ (before ++ v :: after).idxOf u < (before ++ v :: after).idxOf v := by
  have hv : v ∉ before := fun hm => hn.disjoint hm List.mem_cons_self
  rw [List.idxOf_append_of_notMem hv, List.idxOf_cons_self]
  by_cases hu : u ∈ before
  · rw [List.idxOf_append_of_mem hu]
    exact iff_of_true hu (List.idxOf_lt_length_of_mem hu)
  · rw [List.idxOf_append_of_notMem hu]
    exact iff_of_false hu (by omega)

section Order

variable {order : List Nat} (h : IsPreorder next rank order.reverse) (hn : order.Nodup)
  (hv : v ∈ order)

include h hn hv

theorem IsPreorder.idxOf_parent_lt (hnext : v ∈ next u) : order.idxOf u < order.idxOf v := by
  obtain ⟨before, after, rfl⟩ := List.append_of_mem hv
  refine (mem_iff_idxOf_lt hn).1 (List.mem_reverse.1 (h.parent v before.reverse ?_ u hnext))
  exact ⟨after.reverse, by simp⟩

theorem IsPreorder.idxOf_child_lt (hlt : order.idxOf u < order.idxOf v) (hr : rank v ≤ rank u)
    {w : Nat} (hw : w ∈ next u) : order.idxOf w < order.idxOf v := by
  obtain ⟨before, after, rfl⟩ := List.append_of_mem hv
  have hu := List.mem_reverse.2 ((mem_iff_idxOf_lt hn).2 hlt)
  refine (mem_iff_idxOf_lt hn).1 (List.mem_reverse.1 (h.finished v before.reverse ?_ u hu hr w hw))
  exact ⟨after.reverse, by simp⟩

end Order

/-! ## Stacks -/

/-- Each vertex of a stack comes after those that lead to it, which have been seen or stand above
it. -/
def Follows (next : Nat → List Nat) : (seen stack : List Nat) → Prop
  | _, [] => True
  | seen, v :: stack => (∀ u, v ∈ next u → u ∈ seen) ∧ Follows next (v :: seen) stack

theorem Follows.mono {seen seen' : List Nat} (h : Follows next seen stack)
    (hs : ∀ v ∈ seen, v ∈ seen') : Follows next seen' stack := by
  induction stack generalizing seen seen' with
  | nil => trivial
  | cons v stack ih =>
    refine ⟨fun u hu => hs u (h.1 u hu), ih h.2 fun w hw => ?_⟩
    rcases List.mem_cons.1 hw with rfl | hw
    · exact List.mem_cons_self
    · exact List.mem_cons_of_mem _ (hs w hw)

theorem Follows.append {seen pushed : List Nat} (h : Follows next seen stack)
    (hp : ∀ v ∈ pushed, ∀ u, v ∈ next u → u ∈ seen) : Follows next seen (pushed ++ stack) := by
  induction pushed generalizing seen with
  | nil => exact h
  | cons v pushed ih =>
    obtain ⟨hv, hp⟩ := List.forall_mem_cons.1 hp
    refine ⟨hv, ih (h.mono fun w hw => List.mem_cons_of_mem v hw) fun w hw u hu => ?_⟩
    exact List.mem_cons_of_mem v (hp w hw u hu)

/-- What is taken from a stack are its top vertex and what is taken from the others, if the top one
is taken. -/
theorem mem_takeWhile_cons {p : Nat → Bool} {w : Nat} (h : w ∈ (v :: stack).takeWhile p) :
    p v = true ∧ (w = v ∨ w ∈ stack.takeWhile p) := by
  rw [List.takeWhile_cons] at h
  split at h
  · exact ⟨‹_›, List.mem_cons.1 h⟩
  · cases h

section Ranked

variable (hrank : ∀ u, ∀ w ∈ next u, rank u < rank w)

include hrank

/-- In the order of ranks every vertex comes after those that lead to it. -/
theorem follows_of_sorted {seen : List Nat} (hs : stack.Pairwise fun u v => rank u ≤ rank v)
    (h : ∀ v ∈ stack, ∀ u, v ∈ next u → u ∈ seen ∨ u ∈ stack) : Follows next seen stack := by
  induction stack generalizing seen with
  | nil => trivial
  | cons v stack ih =>
    obtain ⟨hv, hs⟩ := List.pairwise_cons.1 hs
    constructor
    · intro u hu
      have hlt := hrank u v hu
      refine (h v List.mem_cons_self u hu).resolve_right fun hm => ?_
      rcases List.mem_cons.1 hm with rfl | hm
      · omega
      · have := hv u hm
        omega
    · refine ih hs fun w hw u hu => ?_
      rcases h w (List.mem_cons_of_mem v hw) u hu with hm | hm
      · exact .inl (List.mem_cons_of_mem v hm)
      · rcases List.mem_cons.1 hm with rfl | hm
        · exact .inl List.mem_cons_self
        · exact .inr hm

/-! ## The walk down a forest -/

/-- What the walk down a forest keeps. -/
structure Walking (next : Nat → List Nat) (rank : Nat → Nat) (unseen visited stack : List Nat) :
    Prop where
  known : ∀ u, ∀ w ∈ next u, w ∈ unseen ∨ w ∈ visited
  stacked : ∀ v ∈ stack, v ∈ unseen ∨ v ∈ visited
  follows : Follows next visited stack
  /-- What a visited vertex leads to stands above all vertices of its rank or a lower one. -/
  waits : ∀ u ∈ visited, ∀ w ∈ next u, w ∈ visited ∨ w ∈ stack.takeWhile (rank u < rank ·)
  preorder : IsPreorder next rank visited

/-- The step to a vertex that has not been seen. -/
theorem Walking.visit (hone : ∀ w u u', w ∈ next u → w ∈ next u' → u = u')
    (h : Walking next rank unseen visited (v :: stack)) :
    Walking next rank (unseen.erase v) (v :: visited)
      (((next v).filter (· ∈ unseen.erase v)).reverse ++ stack) := by
  have hmove : ∀ w, w ∈ unseen ∨ w ∈ visited → w ∈ unseen.erase v ∨ w ∈ v :: visited := by
    intro w hw
    by_cases e : w = v
    · exact .inr (e ▸ List.mem_cons_self)
    · exact hw.imp (List.mem_erase_of_ne e).2 (List.mem_cons_of_mem v)
  have hpushed : ∀ w ∈ ((next v).filter (· ∈ unseen.erase v)).reverse,
      w ∈ next v ∧ w ∈ unseen.erase v := by simp
  constructor
  case known => exact fun u w hw => hmove w (h.known u w hw)
  case stacked =>
    intro w hw
    rcases List.mem_append.1 hw with hw | hw
    · exact .inl (hpushed w hw).2
    · exact hmove w (h.stacked w (List.mem_cons_of_mem v hw))
  case follows =>
    refine h.follows.2.append fun w hw u hu => ?_
    exact hone w u v hu (hpushed w hw).1 ▸ List.mem_cons_self
  case waits =>
    intro u hu w hw
    -- Above what waited for `u` there are now the vertices that `v` leads to.
    have hle : rank u ≤ rank v → (((next v).filter (· ∈ unseen.erase v)).reverse ++ stack).takeWhile
        (rank u < rank ·) = ((next v).filter (· ∈ unseen.erase v)).reverse ++
          stack.takeWhile (rank u < rank ·) := by
      intro hle
      refine List.takeWhile_append_of_pos fun x hx => ?_
      have := hrank v x (hpushed x hx).1
      simp only [decide_eq_true_eq]
      omega
    rcases List.mem_cons.1 hu with rfl | hu
    · rw [hle (Nat.le_refl _)]
      rcases hmove w (h.known u w hw) with hm | hm
      · exact .inr (List.mem_append_left _ (by simp [hw, hm]))
      · exact .inl hm
    · rcases h.waits u hu w hw with hm | hm
      · exact .inl (List.mem_cons_of_mem v hm)
      · obtain ⟨hlt, rfl | hm⟩ := mem_takeWhile_cons hm
        · exact .inl List.mem_cons_self
        · rw [hle (Nat.le_of_lt (of_decide_eq_true hlt))]
          exact .inr (List.mem_append_right _ hm)
  case preorder =>
    refine h.preorder.cons h.follows.1 fun u hu hr w hw => ?_
    refine (h.waits u hu w hw).resolve_right fun hm => ?_
    exact Nat.not_lt.2 hr (of_decide_eq_true (mem_takeWhile_cons hm).1)

omit hrank in
/-- The step over a vertex that has been seen. -/
theorem Walking.skip (h : Walking next rank unseen visited (v :: stack)) (hv : v ∉ unseen) :
    Walking next rank unseen visited stack where
  known := h.known
  stacked := fun w hw => h.stacked w (List.mem_cons_of_mem v hw)
  follows := by
    have hmem : v ∈ visited := (h.stacked v List.mem_cons_self).resolve_left hv
    exact h.follows.2.mono fun w hw => (List.mem_cons.1 hw).elim (fun e => e ▸ hmem) id
  waits := by
    intro u hu w hw
    rcases h.waits u hu w hw with hm | hm
    · exact .inl hm
    · obtain ⟨-, rfl | hm⟩ := mem_takeWhile_cons hm
      · exact .inl ((h.known u w hw).resolve_left hv)
      · exact .inr hm
  preorder := h.preorder

/-- **The walk down a forest is in preorder.** -/
theorem isPreorder_walk (hone : ∀ w u u', w ∈ next u → w ∈ next u' → u = u')
    (h : Walking next rank unseen visited stack) :
    IsPreorder next rank (walk next unseen visited stack).reverse := by
  fun_induction walk next unseen visited stack with
  | case1 unseen visited => exact visited.reverse_reverse.symm ▸ h.preorder
  | case2 unseen visited v stack hv unseen' ih => exact ih (h.visit hrank hone)
  | case3 unseen visited v stack hv ih => exact ih (h.skip hv)

end Ranked

end Preorder

/-! ## Layerings without virtual vertices -/

section Forest

variable {l : Layering}

theorem pairwise_rankOf_roots : l.roots.Pairwise fun u v => l.rankOf u ≤ l.rankOf v :=
  pairwise_mergeSort_key (List.range l.realCount) l.rankOf

/-- Within a rank the positions of vertices are in the order of the list that the layers are taken
from. -/
theorem idxOf_lt_of_position_lt {order : List Nat} (hp : order.Perm (List.range l.vertexCount))
    (hr : ∀ v < l.vertexCount, l.rankOf v < l.rankCount) {u v : Nat} (hu : u < l.vertexCount)
    (hv : v < l.vertexCount) (huv : l.rankOf u = l.rankOf v)
    (hlt : l.position (l.layersOf order) u < l.position (l.layersOf order) v) :
    order.idxOf u < order.idxOf v := by
  have hordering : l.IsOrdering (List.range l.vertexCount) (l.layersOf order) := layersOf_perm hp
  have hfull := hordering.isFullOrdering hr
  have hlayer : (l.layersOf order).getD (l.rankOf v) [] =
      order.filter (l.rankOf · == l.rankOf v) := by
    simp [layersOf, hr v hv]
  have hsorted : order.Pairwise fun u v => order.idxOf u < order.idxOf v :=
    List.pairwise_iff_forall_sublist.2 fun hs =>
      idxOf_lt_of_pair_sublist hs (hp.nodup_iff.2 List.nodup_range)
  have hmem : ∀ w < l.vertexCount, l.rankOf w = l.rankOf v →
      w ∈ (l.layersOf order).getD (l.rankOf v) [] := fun w hw hrw =>
    (hfull.mem_getD_iff (hordering.length_eq ▸ hr v hv)).2 ⟨hw, hrw⟩
  refine (pairwise_iff_of_position (R := fun u v => order.idxOf u < order.idxOf v)
    fun i w hi => hfull.position_eq hi).1 ?_ u (hmem u hu huv) v (hmem v hv rfl) hlt
  rw [hlayer]
  exact hsorted.filter _

variable (hp : l.IsProper) (hreal : l.vertexCount = l.realCount)
  (hone : ∀ a ∈ l.segments.arcs, ∀ b ∈ l.segments.arcs, a.target = b.target → a.source = b.source)

include hp hreal hone

/-- The walk of the first ordering is in preorder. -/
theorem isPreorder_initialWalk :
    IsPreorder l.segments.successors l.rankOf
      (walk l.segments.successors l.segments.nodes [] l.roots).reverse := by
  have hrank : ∀ u, ∀ w ∈ l.segments.successors u, l.rankOf u < l.rankOf w := by
    intro u w hw
    have := hp _ (Digraph.mem_successors.1 hw)
    simp only at this
    omega
  have hroots : ∀ v, v ∈ l.roots ↔ v < l.vertexCount := fun v => hreal ▸ mem_roots
  refine isPreorder_walk hrank (fun w u u' hu hu' => ?_)
    ⟨fun u w hw => ?_, fun v hv => ?_, ?_, ?_, ?_⟩
  · exact hone _ (Digraph.mem_successors.1 hu) _ (Digraph.mem_successors.1 hu') rfl
  · exact .inl (Digraph.mem_nodes.2 (l.segments.inRange _ (Digraph.mem_successors.1 hw)).2)
  · exact .inl (Digraph.mem_nodes.2 ((hroots v).1 hv))
  · refine follows_of_sorted hrank pairwise_rankOf_roots fun v _ u hu => .inr ?_
    exact (hroots u).2 (l.segments.inRange _ (Digraph.mem_successors.1 hu)).1
  · exact fun u hu => absurd hu List.not_mem_nil
  · exact ⟨fun v older hs => by simp at hs, fun v older hs => by simp at hs⟩

omit hreal hone in
/-- Where the layers are in preorder, the segments from a rank lead to the next one in the order of
their sources. -/
theorem position_target_le {order : List Nat} (hperm : order.Perm (List.range l.vertexCount))
    (hr : ∀ v < l.vertexCount, l.rankOf v < l.rankCount)
    (hpre : IsPreorder l.segments.successors l.rankOf order.reverse) {a b : Arc}
    (ha : a ∈ l.segments.arcs) (hb : b ∈ l.segments.arcs)
    (hrank : l.rankOf a.source = l.rankOf b.source)
    (hab : l.position (l.layersOf order) a.source < l.position (l.layersOf order) b.source) :
    l.position (l.layersOf order) a.target ≤ l.position (l.layersOf order) b.target := by
  have hn : order.Nodup := hperm.nodup_iff.2 List.nodup_range
  have hmem : ∀ {v}, v < l.vertexCount → v ∈ order := fun hv =>
    hperm.mem_iff.2 (List.mem_range.2 hv)
  obtain ⟨has, hat⟩ := l.segments.inRange a ha
  obtain ⟨hbs, hbt⟩ := l.segments.inRange b hb
  have hra := hp a ha
  have hrb := hp b hb
  refine Nat.not_lt.1 fun hba => ?_
  -- The walk comes to the children of `a.source`, then to `b.source` and then to its children.
  have h₁ := idxOf_lt_of_position_lt hperm hr has hbs hrank hab
  have h₂ := hpre.idxOf_child_lt hn (hmem hbs) h₁ (Nat.le_of_eq hrank.symm)
    (Digraph.mem_successors.2 ha)
  have h₃ := hpre.idxOf_parent_lt hn (hmem hbt) (Digraph.mem_successors.2 hb)
  have h₄ := idxOf_lt_of_position_lt hperm hr hbt hat (by omega) hba
  omega

/-- **Nothing crosses in the first ordering of a forest.** -/
theorem crossings_initialLayers (hr : ∀ v < l.vertexCount, l.rankOf v < l.rankCount) :
    l.crossings l.initialLayers = 0 := by
  have hangs : l.HangsOn := fun w hw hlt => absurd hlt (by omega)
  have hfull := (isOrdering_initialLayers_all hangs).isFullOrdering hr
  have hpre := isPreorder_initialWalk hp hreal hone
  have hperm := walk_perm_range hangs
  have hlayers : l.initialLayers =
      l.layersOf (walk l.segments.successors l.segments.nodes [] l.roots) := by
    rw [initialLayers, Digraph.successorTable_at]
  rw [Digraph.successorTable_at] at hperm
  rw [crossings_eq_sum, List.sum_eq_zero_iff_forall_eq_nat]
  intro n hmap
  obtain ⟨r, hlt, rfl⟩ := List.mem_map.1 hmap
  have hlt : r < l.initialLayers.length := by
    have := List.mem_range.1 hlt
    omega
  refine crossingsBelow_eq_zero_iff.2 fun a ha b hb hua hub hab => ?_
  have hra := ((hfull.mem_getD_iff hlt).1 hua).2
  have hrb := ((hfull.mem_getD_iff hlt).1 hub).2
  rw [hlayers] at hab ⊢
  exact position_target_le hp hperm hr hpre ha hb (hra.trans hrb.symm) hab

end Forest

/-! ## Ranked forests -/

section OfRanks

variable {ranks : Array Nat} {g : Digraph}

theorem segmentsFrom_of_adjacent {rank : Nat → Nat} (n : Nat) {arcs : List Arc}
    (h : ∀ a ∈ arcs, rank a.target = rank a.source + 1) :
    segmentsFrom rank n arcs = arcs := by
  induction arcs generalizing n with
  | nil => rfl
  | cons a arcs ih =>
    obtain ⟨ha, h⟩ := List.forall_mem_cons.1 h
    have hpassed : passed rank a = 0 := by
      rw [passed, ha]
      omega
    rw [segmentsFrom, hpassed, ih (n + 0) h]
    rfl

/-- A forest ranked by its depths has an ordering without crossings from the first one on. -/
theorem crossings_minimizeCrossings_of_adjacent (α : Type) [Scalar α] (hs : ranks.size = g.size)
    (h : ∀ a ∈ g.arcs, ranks.getD a.target 0 = ranks.getD a.source 0 + 1)
    (hone : ∀ a ∈ g.arcs, ∀ b ∈ g.arcs, a.target = b.target → a.source = b.source) (passes : Nat) :
    ((ofRanks ranks g).minimizeCrossings passes α).crossings = 0 := by
  have hr : g.IsRanking (ranks.getD · 0) := by
    intro u v ha
    have := h _ ha
    simp only at this ⊢
    omega
  have harcs : (ofRanks ranks g).segments.arcs = g.arcs := by
    rw [arcs_segments_ofRanks hs hr, segmentsFrom_of_adjacent g.size h]
  have hreal : (ofRanks ranks g).vertexCount = (ofRanks ranks g).realCount := by
    have hzero : (g.arcs.map (passed (ranks.getD · 0))).sum = 0 := by
      refine List.sum_eq_zero_iff_forall_eq_nat.2 fun n hn => ?_
      obtain ⟨a, ha, rfl⟩ := List.mem_map.1 hn
      rw [passed, h a ha]
      omega
    rw [vertexCount_ofRanks hs, hzero]
    exact hs.symm
  have hzero := crossings_initialLayers (isProper_ofRanks hs hr) hreal (harcs ▸ hone)
    fun _ hv => rankOf_lt_rankCount hs hv
  have hle : ((ofRanks ranks g).minimizeCrossings passes α).crossings ≤
      (ofRanks ranks g).crossings (ofRanks ranks g).initialLayers :=
    (betters_bestOrdering (Nat.zero_le passes)).le
  omega

end OfRanks

end LayeredDrawing.Layering
