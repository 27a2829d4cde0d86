import LayeredDrawing.Proofs.Digraph.LongestPath

/-!
# Chains

A graph is a chain if its nodes can be listed such that one arc leads from each node to the next
one and there are no other arcs (`Digraph.IsChain`). The neighbours of a node are then the node
before it and the one after it, each listed once, and the least rank of a node is its place in the
list.

* `IsChain.predecessors_eq`, `IsChain.successors_eq`: the neighbours in a chain.
* `IsChain.rank_eq`: **the ranks of a chain count its nodes.**
-/

namespace LayeredDrawing

/-! ## Lists without duplicates -/

section Lists

variable {α : Type} {l : List α} {a b : α}

/-- A list without duplicates that has one member. -/
theorem eq_singleton_of_mem_iff (hn : l.Nodup) (h : ∀ b, b ∈ l ↔ b = a) : l = [a] := by
  have hp : l.Perm [a] :=
    (List.perm_ext_iff_of_nodup hn (List.nodup_singleton a)).2 (by simpa using h)
  exact List.perm_singleton.1 hp

/-- The pairs of neighbours in a list. -/
theorem mem_zip_tail_iff : (a, b) ∈ l.zip l.tail ↔ ∃ i, l[i]? = some a ∧ l[i + 1]? = some b := by
  simp only [List.mem_iff_getElem?, List.getElem?_zip_eq_some, List.getElem?_tail]

theorem nodup_zip_tail (hn : l.Nodup) : (l.zip l.tail).Nodup := by
  refine List.Nodup.of_map Prod.snd ?_
  rw [List.map_snd_zip (by simp)]
  exact hn.tail

end Lists

namespace Digraph

variable {g : Digraph} {ranks : Array Nat} {vs : List Nat} {u v w k : Nat}

/-- Where no arc is parallel to another, no end of the arcs from one node is listed twice. -/
theorem nodup_ends {first second : Arc → Nat}
    (hinj : ∀ a b, first a = first b → second a = second b → a = b) (h : g.arcs.Nodup) (v : Nat) :
    (((g.arcs.filter (first · == v)).map second).reverse).Nodup := by
  refine List.nodup_reverse.2 ((h.filter _).map_on fun a ha b hb => hinj a b ?_)
  have hav : first a = v := by simpa using (List.mem_filter.1 ha).2
  have hbv : first b = v := by simpa using (List.mem_filter.1 hb).2
  rw [hav, hbv]

theorem nodup_predecessors (h : g.arcs.Nodup) (v : Nat) : (g.predecessors v).Nodup :=
  nodup_ends (fun ⟨_, _⟩ ⟨_, _⟩ ht hs => congrArg₂ Arc.mk hs ht) h v

theorem nodup_successors (h : g.arcs.Nodup) (v : Nat) : (g.successors v).Nodup :=
  nodup_ends (fun ⟨_, _⟩ ⟨_, _⟩ hs ht => congrArg₂ Arc.mk hs ht) h v

/-- One arc leads from each node of a list to the next one, and there are no other arcs. -/
structure IsChain (g : Digraph) (vs : List Nat) : Prop where
  nodes : vs.Perm g.nodes
  arcs : g.arcs.Perm ((vs.zip vs.tail).map fun p => ⟨p.1, p.2⟩)

namespace IsChain

variable (h : g.IsChain vs)

include h

theorem nodup : vs.Nodup := h.nodes.nodup_iff.2 g.nodup_nodes

theorem mem_iff : v ∈ vs ↔ v < g.size := h.nodes.mem_iff.trans mem_nodes

theorem nodup_arcs : g.arcs.Nodup := by
  refine h.arcs.nodup_iff.2 ((nodup_zip_tail h.nodup).map ?_)
  rintro ⟨s, t⟩ ⟨s', t'⟩ e
  obtain ⟨rfl, rfl⟩ := Arc.mk.inj e
  rfl

theorem adj_iff : g.Adj u v ↔ ∃ k, vs[k]? = some u ∧ vs[k + 1]? = some v := by
  rw [Adj, h.arcs.mem_iff, ← mem_zip_tail_iff, List.mem_map]
  constructor
  · rintro ⟨⟨s, t⟩, hm, e⟩
    obtain ⟨rfl, rfl⟩ := Arc.mk.inj e
    exact hm
  · exact fun hm => ⟨_, hm, rfl⟩

theorem eq_of_adj_left (huv : g.Adj u v) (hwv : g.Adj w v) : w = u := by
  obtain ⟨i, hu, hi⟩ := h.adj_iff.1 huv
  obtain ⟨j, hw, hj⟩ := h.adj_iff.1 hwv
  obtain rfl : i = j := Nat.succ.inj (index_unique h.nodup hi hj)
  exact Option.some.inj (hw.symm.trans hu)

theorem eq_of_adj_right (huv : g.Adj u v) (huw : g.Adj u w) : w = v := by
  obtain ⟨i, hi, hv⟩ := h.adj_iff.1 huv
  obtain ⟨j, hj, hw⟩ := h.adj_iff.1 huw
  obtain rfl : i = j := index_unique h.nodup hi hj
  exact Option.some.inj (hw.symm.trans hv)

theorem predecessors_eq (huv : g.Adj u v) : g.predecessors v = [u] := by
  refine eq_singleton_of_mem_iff (nodup_predecessors h.nodup_arcs v) fun w => ?_
  rw [mem_predecessors]
  exact ⟨fun hwv => h.eq_of_adj_left huv hwv, fun e => e ▸ huv⟩

theorem successors_eq (huv : g.Adj u v) : g.successors u = [v] := by
  refine eq_singleton_of_mem_iff (nodup_successors h.nodup_arcs u) fun w => ?_
  rw [mem_successors]
  exact ⟨fun huw => h.eq_of_adj_right huv huw, fun e => e ▸ huv⟩

theorem isChain_adj : vs.IsChain g.Adj := by
  refine List.isChain_iff_getElem.2 fun i hi => h.adj_iff.2 ⟨i, ?_, ?_⟩
  · exact List.getElem?_eq_getElem _
  · exact List.getElem?_eq_getElem hi

/-- **The ranks of a chain count its nodes.** -/
theorem rank_eq (hl : g.LeastRanks ranks) (hk : vs[k]? = some v) : ranks.getD v 0 = k := by
  induction k generalizing v with
  | zero =>
    by_contra hne
    have hlt : v < g.size := h.mem_iff.1 (List.mem_of_getElem? hk)
    obtain ⟨u, huv, -⟩ := hl.predecessor v hlt (Nat.pos_of_ne_zero hne)
    obtain ⟨i, -, hi⟩ := h.adj_iff.1 huv
    exact absurd (index_unique h.nodup hk hi) (Nat.succ_ne_zero i).symm
  | succ k ih =>
    have hlt : v < g.size := h.mem_iff.1 (List.mem_of_getElem? hk)
    have hk' : k < vs.length := Nat.lt_of_succ_lt (List.getElem?_eq_some_iff.1 hk).1
    have hu : vs[k]? = some vs[k] := List.getElem?_eq_getElem hk'
    have huv : g.Adj vs[k] v := h.adj_iff.2 ⟨k, hu, hk⟩
    obtain ⟨w, hwv, e⟩ := hl.predecessor v hlt (Nat.zero_lt_of_lt (hl.ascends _ _ huv))
    rw [← e, h.eq_of_adj_left huv hwv, ih hu]

end IsChain

end Digraph

end LayeredDrawing
