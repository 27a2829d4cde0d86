import LayeredDrawing.Digraph.Ranking
import LayeredDrawing.Proofs.Digraph.TopologicalOrder
import LayeredDrawing.Proofs.Table
import Mathlib.Data.List.Induction
import Mathlib.Order.Bounds.Defs

/-!
# Ranks are lengths of longest paths

The ranks of an acyclic graph are computed in one pass over a topological order. A rank that is
read in this pass has been written before, so that the finished table satisfies one equation at
every node: its rank is just above those of its predecessors (`IsRanked`). All else follows
from this equation by induction on ranks.

* `LeastRanks`: the ranks are the pointwise least ones in which arcs ascend, and the lengths of
  longest paths; no rank below another one is empty.
* `exists_leastRanks`: **an acyclic graph has these ranks computed.**
* `ranks_least`: and the order of its arcs plays no part.
-/

namespace LayeredDrawing.Digraph

/-! ## Rankings -/

/-- Every arc goes to a higher rank. -/
def IsRanking (g : Digraph) (rank : Nat → Nat) : Prop :=
  ∀ u v, g.Adj u v → rank u < rank v

theorem isRanking_iff {g : Digraph} {rank : Nat → Nat} :
    g.IsRanking rank ↔ ∀ a ∈ g.arcs, rank a.source < rank a.target :=
  ⟨fun h a ha => h a.source a.target ha, fun h u v ha => h ⟨u, v⟩ ha⟩

instance {g : Digraph} {rank : Nat → Nat} : Decidable (g.IsRanking rank) :=
  decidable_of_iff _ isRanking_iff.symm

/-- A path along `n` arcs that ends in a node. -/
inductive PathTo (g : Digraph) : Nat → Nat → Prop
  | node {v : Nat} (h : v < g.size) : g.PathTo 0 v
  | arc {n u v : Nat} (h : g.PathTo n u) (a : g.Adj u v) : g.PathTo (n + 1) v

/-- Each rank is just above the ranks of the predecessors. -/
def IsRanked (g : Digraph) (rank : Nat → Nat) : Prop :=
  ∀ v < g.size, rank v = rankBelow ((g.predecessors v).map rank)

/-- The ranks of an acyclic graph: the least ones in which every arc ascends. -/
structure LeastRanks (g : Digraph) (ranks : Array Nat) : Prop where
  size : ranks.size = g.size
  ascends : g.IsRanking (ranks.getD · 0)
  least : ∀ f, g.IsRanking f → ∀ v < g.size, ranks.getD v 0 ≤ f v
  longest : ∀ v < g.size, IsGreatest {n | g.PathTo n v} (ranks.getD v 0)
  predecessor : ∀ v < g.size, 0 < ranks.getD v 0 →
    ∃ u, g.Adj u v ∧ ranks.getD u 0 + 1 = ranks.getD v 0
  inhabited : ∀ v < g.size, ∀ r ≤ ranks.getD v 0, ∃ u < g.size, ranks.getD u 0 = r

/-! ## The rank below nodes of given ranks -/

theorem rankBelow_le_iff {ranks : List Nat} {n : Nat} :
    rankBelow ranks ≤ n ↔ ∀ r ∈ ranks, r < n := by
  have main : ∀ (ranks : List Nat) (m : Nat),
      ranks.foldl (fun r s => max r (s + 1)) m ≤ n ↔ m ≤ n ∧ ∀ r ∈ ranks, r < n := by
    intro ranks
    induction ranks with
    | nil => simp
    | cons r ranks ih =>
      intro m
      rw [List.foldl_cons, ih, Nat.max_le, List.forall_mem_cons, and_assoc]
      rfl
  rw [rankBelow, main]
  simp

theorem lt_rankBelow {ranks : List Nat} {r : Nat} (h : r ∈ ranks) : r < rankBelow ranks :=
  rankBelow_le_iff.1 (Nat.le_refl _) r h

theorem exists_of_rankBelow_pos {ranks : List Nat} (h : 0 < rankBelow ranks) :
    ∃ r ∈ ranks, r + 1 = rankBelow ranks := by
  by_contra hne
  have hle : rankBelow ranks ≤ rankBelow ranks - 1 := by
    refine rankBelow_le_iff.2 fun r hr => ?_
    have h₁ := lt_rankBelow hr
    have h₂ : r + 1 ≠ rankBelow ranks := fun e => hne ⟨r, hr, e⟩
    omega
  omega

/-! ## What the equation says -/

namespace IsRanked

variable {g : Digraph} {rank : Nat → Nat}

theorem isRanking (h : g.IsRanked rank) : g.IsRanking rank := by
  intro u v ha
  rw [h v ha.lt.2]
  exact lt_rankBelow (List.mem_map_of_mem (mem_predecessors.2 ha))

theorem exists_predecessor (h : g.IsRanked rank) {v : Nat} (hv : v < g.size)
    (hpos : 0 < rank v) : ∃ u, g.Adj u v ∧ rank u + 1 = rank v := by
  rw [h v hv] at hpos ⊢
  obtain ⟨r, hr, e⟩ := exists_of_rankBelow_pos hpos
  obtain ⟨u, hu, rfl⟩ := List.mem_map.1 hr
  exact ⟨u, mem_predecessors.1 hu, e⟩

theorem le_of_isRanking (h : g.IsRanked rank) {f : Nat → Nat} (hf : g.IsRanking f) {v : Nat}
    (hv : v < g.size) : rank v ≤ f v := by
  induction hr : rank v generalizing v with
  | zero => exact Nat.zero_le _
  | succ r ih =>
    obtain ⟨u, ha, hu⟩ := h.exists_predecessor hv (by omega)
    have := ih ha.lt.1 (by omega)
    have := hf u v ha
    omega

theorem pathTo (h : g.IsRanked rank) {v : Nat} (hv : v < g.size) : g.PathTo (rank v) v := by
  induction hr : rank v generalizing v with
  | zero => exact .node hv
  | succ r ih =>
    obtain ⟨u, ha, hu⟩ := h.exists_predecessor hv (by omega)
    exact .arc (ih ha.lt.1 (by omega)) ha

theorem length_le (h : g.IsRanked rank) {n v : Nat} (hp : g.PathTo n v) : n ≤ rank v := by
  induction hp with
  | node _ => exact Nat.zero_le _
  | arc _ ha ih => exact Nat.lt_of_le_of_lt ih (h.isRanking _ _ ha)

theorem exists_rank_eq (h : g.IsRanked rank) {v : Nat} (hv : v < g.size) {r : Nat}
    (hr : r ≤ rank v) : ∃ u < g.size, rank u = r := by
  induction hk : rank v - r generalizing v with
  | zero => exact ⟨v, hv, by omega⟩
  | succ k ih =>
    obtain ⟨u, ha, hu⟩ := h.exists_predecessor hv (by omega)
    exact ih ha.lt.1 (by omega) (by omega)

theorem leastRanks {ranks : Array Nat} (h : g.IsRanked (ranks.getD · 0))
    (hs : ranks.size = g.size) : g.LeastRanks ranks where
  size := hs
  ascends := h.isRanking
  least := fun _ hf _ hv => h.le_of_isRanking hf hv
  longest := fun _ hv => ⟨h.pathTo hv, fun _ hn => h.length_le hn⟩
  predecessor := fun _ hv => h.exists_predecessor hv
  inhabited := fun _ hv _ hr => h.exists_rank_eq hv hr

end IsRanked

/-! ## The pass over a topological order -/

section Pass

variable {previous : Nat → List Nat} {size : Nat} {order : List Nat}

/-- Each node of a list comes after those previous to it. -/
def Sorted (previous : Nat → List Nat) (order : List Nat) : Prop :=
  ∀ before v after, order = before ++ v :: after → ∀ u ∈ previous v, u ∈ before

@[simp] theorem size_ranksAlong : (ranksAlong previous size order).size = size := by
  induction order using List.reverseRecOn with
  | nil => simp [ranksAlong]
  | append_singleton order v ih =>
    simpa [ranksAlong, List.foldl_append] using ih

theorem ranksAlong_append (v : Nat) :
    ranksAlong previous size (order ++ [v]) =
      (ranksAlong previous size order).setIfInBounds v
        (rankBelow ((previous v).map ((ranksAlong previous size order).getD · 0))) := by
  simp [ranksAlong, List.foldl_append]

theorem getD_ranksAlong (hn : order.Nodup) (hlt : ∀ v ∈ order, v < size)
    (hs : Sorted previous order) {v : Nat} (hv : v ∈ order) :
    (ranksAlong previous size order).getD v 0 =
      rankBelow ((previous v).map ((ranksAlong previous size order).getD · 0)) := by
  induction order using List.reverseRecOn generalizing v with
  | nil => simp at hv
  | append_singleton order w ih =>
    have hw : w ∉ order := fun hm => hn.disjoint hm List.mem_cons_self
    have hs' : Sorted previous order := fun before x after e =>
      hs before x (after ++ [w]) (by simp [e])
    -- what is read at `v` is not the entry written last
    have hread : ∀ u ∈ previous v,
        (ranksAlong previous size (order ++ [w])).getD u 0 =
          (ranksAlong previous size order).getD u 0 := by
      intro u hu
      rw [ranksAlong_append]
      refine getD_setIfInBounds_ne fun e => ?_
      subst e
      obtain ⟨before, after, e⟩ := List.append_of_mem hv
      have hb : w ∈ before := hs before v after e w hu
      rcases List.eq_nil_or_concat after with rfl | ⟨after, x, rfl⟩
      · obtain ⟨rfl, -⟩ := List.append_inj' e rfl
        exact hw hb
      · have e' : order ++ [w] = (before ++ v :: after) ++ [x] := by simpa using e
        obtain ⟨rfl, -⟩ := List.append_inj' e' rfl
        exact hw (List.mem_append_left _ hb)
    rw [List.map_congr_left hread]
    rcases List.mem_append.1 hv with hv | hv
    · have hne : w ≠ v := fun e => hw (e ▸ hv)
      rw [ranksAlong_append, getD_setIfInBounds_ne hne]
      exact ih hn.of_append_left
        (fun x hx => hlt x (List.mem_append_left _ hx)) hs' hv
    · obtain rfl := List.mem_singleton.1 hv
      rw [ranksAlong_append, getD_setIfInBounds_self]
      simpa using hlt v (by simp)

end Pass

variable {g : Digraph}

theorem IsTopological.sorted {order : List Nat} (h : g.IsTopological order) :
    Sorted g.predecessors order := by
  intro before v after e u hu
  have hs : [u, v].Sublist order := h.forward _ (mem_predecessors.1 hu)
  have hlt := idxOf_lt_of_pair_sublist hs h.nodup
  have hn := h.nodup
  rw [e] at hlt hn
  by_contra hub
  have hvb : v ∉ before := fun hm => hn.disjoint hm List.mem_cons_self
  rw [List.idxOf_append_of_notMem hub, List.idxOf_append_of_notMem hvb,
    List.idxOf_cons_self] at hlt
  omega

theorem exists_leastRanks (h : g.IsAcyclic) :
    ∃ ranks, g.ranks = .ok ranks ∧ g.LeastRanks ranks := by
  obtain ⟨order, ho, ht⟩ := exists_topologicalOrder h
  have e : g.ranks = .ok (ranksAlong g.predecessors g.size order) := by
    simp only [ranks, ho, predecessorTable_at]
  refine ⟨_, e, IsRanked.leastRanks (fun v hv => ?_) size_ranksAlong⟩
  exact getD_ranksAlong ht.nodup (fun u hu => ht.mem_iff.1 hu) ht.sorted (ht.mem_iff.2 hv)

/-! ## The order of the arcs -/

theorem IsAcyclic.congr {g' : Digraph} (h : g.IsAcyclic) (ha : g'.Adj = g.Adj) :
    g'.IsAcyclic := by
  intro v hv
  rw [OnCycle, ha] at hv
  exact h v hv

theorem LeastRanks.unique {g' : Digraph} {ranks ranks' : Array Nat} (h : g.LeastRanks ranks)
    (h' : g'.LeastRanks ranks') (hs : g'.size = g.size) (ha : g'.Adj = g.Adj) :
    ranks' = ranks := by
  have hr : g.IsRanking (ranks'.getD · 0) := fun u v huv => h'.ascends u v (ha ▸ huv)
  have hr' : g'.IsRanking (ranks.getD · 0) := fun u v huv => h.ascends u v (ha ▸ huv)
  refine Array.ext (h'.size.trans (hs.trans h.size.symm)) fun v hv' hv => ?_
  have hle := h.least _ hr v (h.size ▸ hv)
  have hge := h'.least _ hr' v (h'.size ▸ hv')
  simpa [hv, hv'] using Nat.le_antisymm hge hle

/-- **The ranks of an acyclic graph are its least ones**, equivalently the lengths of its
longest paths, and they do not depend on the order of its arcs. -/
theorem ranks_least (h : g.IsAcyclic) :
    ∃ ranks, g.ranks = .ok ranks ∧ g.LeastRanks ranks ∧
      ∀ g' : Digraph, g'.size = g.size → g'.arcs.Perm g.arcs → g'.ranks = .ok ranks := by
  obtain ⟨ranks, e, hl⟩ := exists_leastRanks h
  refine ⟨ranks, e, hl, fun g' hs hp => ?_⟩
  have ha : g'.Adj = g.Adj := by
    funext u v
    exact propext hp.mem_iff
  obtain ⟨ranks', e', hl'⟩ := exists_leastRanks (h.congr ha)
  rw [e', hl.unique hl' hs ha]

/-- A chain with a shortcut, parallel arcs and a node on its own. -/
theorem ranks_least_shortcut :
    let g := ofArcs 5 [⟨1, 2⟩, ⟨0, 3⟩, ⟨2, 3⟩, ⟨0, 1⟩, ⟨0, 3⟩]
    g.IsAcyclic ∧ ∃ ranks, g.ranks = .ok ranks ∧ g.LeastRanks ranks ∧
      ∀ g' : Digraph, g'.size = g.size → g'.arcs.Perm g.arcs → g'.ranks = .ok ranks := by
  have h : (ofArcs 5 [⟨1, 2⟩, ⟨0, 3⟩, ⟨2, 3⟩, ⟨0, 1⟩, ⟨0, 3⟩]).IsTopological
      [4, 0, 1, 2, 3] := ⟨by decide, by decide⟩
  exact ⟨h.isAcyclic, ranks_least h.isAcyclic⟩

end LayeredDrawing.Digraph
