import LayeredDrawing.Proofs.Layering.BestOrdering
import LayeredDrawing.Proofs.Layering.Segments
import Mathlib.Algebra.GroupWithZero.Nat
import Mathlib.Logic.Function.Iterate

/-!
# Contraction gives back the graph

The virtual vertices of an arc are numbered in one run, after those of the arcs before it, so the
segments of a graph are known by its ranks alone (`segmentsFrom`). The virtual vertices among the
sources of the segments, and those among the targets, are in turn all the numbers after the nodes,
each of them once (`filter_ends_segmentsFrom`): no two arcs share one. To contract a layering is to
keep the segments from nodes and to go on from the other end of each until a node is met.

* `contracted_ofRanks`: what is left are the arcs of the graph in their order.
* `subdivides_ofRanks`: **a layering subdivides the arcs of its graph.**
-/

namespace LayeredDrawing.Layering

/-! ## Contraction -/

/-- The next vertex on the way to a node: a virtual vertex leads on along its segment, and a node
stays. -/
def onward (l : Layering) (v : Nat) : Nat :=
  if v < l.realCount then v else (l.segments.successors v).headD v

/-- The node that a vertex leads on to. No way has more steps than there are virtual vertices. -/
def exit (l : Layering) (v : Nat) : Nat := l.onward^[l.virtualCount] v

/-- The arcs between nodes that are left without the virtual vertices, in the order of the segments
that they begin with. -/
def contracted (l : Layering) : List Arc :=
  (l.segments.arcs.filter (·.source < l.realCount)).map fun a => ⟨a.source, l.exit a.target⟩

/-- The number of ranks that an arc passes between those of its ends. -/
def passed (rank : Nat → Nat) (a : Arc) : Nat := rank a.target - rank a.source - 1

/-- The arcs of a ranked graph, subdivided by virtual vertices. -/
structure Subdivides (l : Layering) (ranks : Array Nat) (g : Digraph) : Prop where
  /-- Every segment leads to the next rank. -/
  proper : l.IsProper
  /-- The first vertices are the nodes, with their ranks. -/
  realCount_eq : l.realCount = g.size
  realCount_le : l.realCount ≤ l.vertexCount
  rankOf_eq : ∀ v < l.realCount, l.rankOf v = ranks.getD v 0
  /-- One segment leads to each of the others, and one from it. -/
  predecessors : ∀ v, l.realCount ≤ v → v < l.vertexCount →
    (l.segments.predecessors v).length = 1
  successors : ∀ v, l.realCount ≤ v → v < l.vertexCount → (l.segments.successors v).length = 1
  virtualCount_eq : l.virtualCount = (g.arcs.map (passed (ranks.getD · 0))).sum
  contracted_eq : l.contracted = g.arcs

/-! ## Paths between nodes -/

section Paths

variable {s t : Nat} {vertices : List Nat}

theorem map_source_path (s t : Nat) (vertices : List Nat) :
    (path (s :: vertices ++ [t])).map (·.source) = s :: vertices := by
  induction vertices generalizing s with
  | nil => rfl
  | cons v vertices ih =>
    rw [List.cons_append, List.cons_append, path_cons_cons, List.map_cons]
    exact congrArg (s :: ·) (ih v)

theorem map_target_path (s t : Nat) (vertices : List Nat) :
    (path (s :: vertices ++ [t])).map (·.target) = vertices ++ [t] := by
  induction vertices generalizing s with
  | nil => rfl
  | cons v vertices ih =>
    rw [List.cons_append, List.cons_append, path_cons_cons, List.map_cons]
    exact congrArg (v :: ·) (ih v)

/-- A map that goes along a path comes to its end and stays there. -/
theorem iterate_path {next : Nat → Nat} (ht : next t = t) {j : Nat} (hj : vertices.length < j)
    (h : ∀ a ∈ path (s :: vertices ++ [t]), next a.source = a.target) : next^[j] s = t := by
  induction vertices generalizing s j with
  | nil =>
    obtain ⟨j, rfl⟩ : ∃ i, j = i + 1 := ⟨j - 1, by omega⟩
    have hs : next s = t := h ⟨s, t⟩ List.mem_cons_self
    rw [Function.iterate_succ_apply, hs, Function.iterate_fixed ht]
  | cons v vertices ih =>
    rw [List.length_cons] at hj
    obtain ⟨j, rfl⟩ : ∃ i, j = i + 1 := ⟨j - 1, by omega⟩
    rw [List.cons_append, List.cons_append, path_cons_cons] at h
    obtain ⟨hs, h⟩ := List.forall_mem_cons.1 h
    rw [Function.iterate_succ_apply, hs]
    exact ih (by omega) h

end Paths

/-! ## The segments of a ranked graph -/

/-- The segments of arcs, with virtual vertices from the number `n` on. -/
def segmentsFrom (rank : Nat → Nat) : Nat → List Arc → List Arc
  | _, [] => []
  | n, a :: arcs =>
    path (a.source :: List.range' n (passed rank a) ++ [a.target]) ++
      segmentsFrom rank (n + passed rank a) arcs

theorem length_ranksBetween (low high : Nat) :
    (ranksBetween low high).length = high - low - 1 := by
  rw [ranksBetween, List.length_range', Nat.sub_sub]

section Arcs

variable {rank : Nat → Nat} {m n : Nat} {arcs : List Arc}
  (ha : ∀ a ∈ arcs, a.source < m ∧ a.target < m) (hm : m ≤ n)

include ha

/-- Splitting arcs adds these segments and their virtual vertices. -/
theorem foldl_addArc {s : Splitting} (hm : m ≤ s.ranks.size) (hrank : ∀ v < m, s.rank v = rank v) :
    (arcs.foldl Splitting.addArc s).segments =
        s.segments ++ segmentsFrom rank s.ranks.size arcs ∧
      (arcs.foldl Splitting.addArc s).ranks.size =
        s.ranks.size + (arcs.map (passed rank)).sum := by
  induction arcs generalizing s with
  | nil => exact ⟨(List.append_nil _).symm, rfl⟩
  | cons a arcs ih =>
    obtain ⟨⟨hs, ht⟩, ha⟩ := List.forall_mem_cons.1 ha
    have hpassed : (ranksBetween (s.rank a.source) (s.rank a.target)).length = passed rank a := by
      rw [length_ranksBetween, hrank _ hs, hrank _ ht, passed]
    have hsize : (s.addArc a).ranks.size = s.ranks.size + passed rank a := by
      rw [Splitting.ranks_addArc, Array.size_append, List.size_toArray, ← hpassed]
      rfl
    have hrank' : ∀ v < m, (s.addArc a).rank v = rank v := fun v hv =>
      (Splitting.rank_addArc (Nat.lt_of_lt_of_le hv hm)).trans (hrank v hv)
    obtain ⟨hsegments, hcount⟩ := ih ha (by omega) hrank'
    rw [hsize] at hsegments hcount
    rw [List.foldl_cons, hsegments, hcount, Splitting.segments_addArc, Splitting.vertices, hpassed,
      List.append_assoc, List.map_cons, List.sum_cons, Nat.add_assoc]
    exact ⟨rfl, rfl⟩

include hm

/-- **The virtual vertices among the ends of the segments** are the numbers from `n` on, each of
them once; `ends` gives the sources or the targets. -/
theorem filter_ends_segmentsFrom {ends : Arc → Nat}
    (hends : ∀ s vertices t, s < m → t < m → (∀ v ∈ vertices, m ≤ v) →
      ((path (s :: vertices ++ [t])).map ends).filter (m ≤ ·) = vertices) :
    ((segmentsFrom rank n arcs).map ends).filter (m ≤ ·) =
      List.range' n (arcs.map (passed rank)).sum := by
  induction arcs generalizing n with
  | nil => rfl
  | cons a arcs ih =>
    obtain ⟨⟨hs, ht⟩, ha⟩ := List.forall_mem_cons.1 ha
    have hrun : ∀ v ∈ List.range' n (passed rank a), m ≤ v := fun v hv =>
      Nat.le_trans hm (List.mem_range'_1.1 hv).1
    rw [segmentsFrom, List.map_append, List.filter_append, hends _ _ _ hs ht hrun,
      ih ha (by omega), List.map_cons, List.sum_cons, List.range'_append_1]

/-- What is left of the segments without the virtual vertices, if `next` goes along the segments
from them and stays at nodes. -/
theorem contract_segmentsFrom {next : Nat → Nat} {j : Nat}
    (hstay : ∀ v < m, next v = v) (hj : (arcs.map (passed rank)).sum ≤ j)
    (hnext : ∀ a ∈ segmentsFrom rank n arcs, m ≤ a.source → next a.source = a.target) :
    ((segmentsFrom rank n arcs).filter (·.source < m)).map
      (fun a => ⟨a.source, next^[j] a.target⟩) = arcs := by
  induction arcs generalizing n with
  | nil => rfl
  | cons a arcs ih =>
    obtain ⟨⟨hs, ht⟩, ha⟩ := List.forall_mem_cons.1 ha
    rw [List.map_cons, List.sum_cons] at hj
    rw [segmentsFrom, List.forall_mem_append] at hnext
    have hrest := ih ha (n := n + passed rank a) (by omega) (by omega) hnext.2
    rw [segmentsFrom, List.filter_append, List.map_append, hrest]
    have hpath := hnext.1
    have hcount : (List.range' n (passed rank a)).length ≤ j := by
      rw [List.length_range']
      omega
    have hrun : ∀ v ∈ List.range' n (passed rank a), m ≤ v := fun v hv =>
      Nat.le_trans hm (List.mem_range'_1.1 hv).1
    generalize List.range' n (passed rank a) = run at hpath hcount hrun
    cases run with
    | nil =>
      have hfixed : next^[j] a.target = a.target := Function.iterate_fixed (hstay _ ht) j
      simp [path, hs, hfixed]
    | cons v run =>
      -- Only the first segment comes from a node.
      have hvirtual : ∀ b ∈ path (v :: run ++ [a.target]), m ≤ b.source := by
        intro b hb
        have hmem := List.mem_map_of_mem (f := (·.source)) hb
        rw [map_source_path] at hmem
        exact hrun _ hmem
      have hnone : (path (v :: run ++ [a.target])).filter (·.source < m) = [] :=
        List.filter_eq_nil_iff.2 fun b hb => by simpa using hvirtual b hb
      have hend : next^[j] v = a.target := iterate_path (hstay _ ht) hcount fun b hb =>
        hpath b (List.mem_cons_of_mem _ hb) (hvirtual b hb)
      rw [List.cons_append, List.cons_append, path_cons_cons, List.filter_cons, ← List.cons_append,
        hnone]
      simp [hs, hend]

end Arcs

/-! ## The layering of a ranked graph -/

section OfRanks

variable {ranks : Array Nat} {g : Digraph} {v : Nat}

theorem foldl_addArc_arcs (hs : ranks.size = g.size) :
    (g.arcs.foldl Splitting.addArc ⟨ranks, []⟩).segments =
        segmentsFrom (ranks.getD · 0) g.size g.arcs ∧
      (g.arcs.foldl Splitting.addArc ⟨ranks, []⟩).ranks.size =
        g.size + (g.arcs.map (passed (ranks.getD · 0))).sum := by
  have hrank : ∀ v < g.size, Splitting.rank ⟨ranks, []⟩ v = ranks.getD v 0 := fun _ _ => rfl
  have hfold := foldl_addArc g.inRange (Nat.le_of_eq hs.symm) hrank
  rwa [List.nil_append, hs] at hfold

/-- A layering has as many virtual vertices as its arcs pass ranks. -/
theorem vertexCount_ofRanks (hs : ranks.size = g.size) :
    (ofRanks ranks g).vertexCount = g.size + (g.arcs.map (passed (ranks.getD · 0))).sum :=
  (foldl_addArc_arcs hs).2

variable (hs : ranks.size = g.size) (hr : g.IsRanking (ranks.getD · 0))

include hs hr

theorem arcs_segments_ofRanks :
    (ofRanks ranks g).segments.arcs = segmentsFrom (ranks.getD · 0) g.size g.arcs := by
  rw [← (foldl_addArc_arcs hs).1]
  exact Digraph.arcs_ofArcs fun a ha => (proper_splitting hs hr a ha).1

/-- A virtual vertex is one end of one segment; `ends` gives the sources or the targets. -/
theorem length_filter_ends_ofRanks {ends : Arc → Nat}
    (hends : ∀ s vertices t, s < g.size → t < g.size → (∀ v ∈ vertices, g.size ≤ v) →
      ((path (s :: vertices ++ [t])).map ends).filter (g.size ≤ ·) = vertices)
    (hv : g.size ≤ v) (hlt : v < (ofRanks ranks g).vertexCount) :
    ((ofRanks ranks g).segments.arcs.filter (ends · == v)).length = 1 := by
  rw [vertexCount_ofRanks hs] at hlt
  have hmem : v ∈ List.range' g.size (g.arcs.map (passed (ranks.getD · 0))).sum :=
    List.mem_range'_1.2 ⟨hv, hlt⟩
  have hvirtual : ((segmentsFrom (ranks.getD · 0) g.size g.arcs).map ends).filter (g.size ≤ ·) =
      List.range' g.size (g.arcs.map (passed (ranks.getD · 0))).sum :=
    filter_ends_segmentsFrom g.inRange (Nat.le_refl _) hends
  calc ((ofRanks ranks g).segments.arcs.filter (ends · == v)).length
      = ((ofRanks ranks g).segments.arcs.map ends).count v := by
        rw [← List.countP_eq_length_filter, List.count, List.countP_map]
        rfl
    _ = (((ofRanks ranks g).segments.arcs.map ends).filter (g.size ≤ ·)).count v :=
        (List.count_filter (by simpa using hv)).symm
    _ = 1 := by
        rw [arcs_segments_ofRanks hs hr, hvirtual]
        exact List.count_eq_one_of_mem List.nodup_range' hmem

theorem length_successors_ofRanks (hv : g.size ≤ v) (hlt : v < (ofRanks ranks g).vertexCount) :
    ((ofRanks ranks g).segments.successors v).length = 1 := by
  rw [Digraph.successors, List.length_reverse, List.length_map]
  refine length_filter_ends_ofRanks hs hr (fun s vertices t hs' _ hvirtual => ?_) hv hlt
  rw [map_source_path, List.filter_cons_of_neg (by simpa using hs')]
  exact List.filter_eq_self.2 fun v hv => by simpa using hvirtual v hv

theorem length_predecessors_ofRanks (hv : g.size ≤ v) (hlt : v < (ofRanks ranks g).vertexCount) :
    ((ofRanks ranks g).segments.predecessors v).length = 1 := by
  rw [Digraph.predecessors, List.length_reverse, List.length_map]
  refine length_filter_ends_ofRanks hs hr (fun s vertices t _ ht' hvirtual => ?_) hv hlt
  rw [map_target_path, List.filter_append, List.filter_eq_self.2 fun v hv => by
    simpa using hvirtual v hv]
  simpa using ht'

omit hr in
theorem virtualCount_ofRanks :
    (ofRanks ranks g).virtualCount = (g.arcs.map (passed (ranks.getD · 0))).sum := by
  have hreal : (ofRanks ranks g).realCount = g.size := hs
  rw [virtualCount, vertexCount_ofRanks hs, hreal, Nat.add_sub_cancel_left]

/-- The segment from a virtual vertex leads onward. -/
theorem onward_source_ofRanks {a : Arc} (ha : a ∈ (ofRanks ranks g).segments.arcs)
    (hv : g.size ≤ a.source) : (ofRanks ranks g).onward a.source = a.target := by
  have hreal : (ofRanks ranks g).realCount = g.size := hs
  have hmem : a.target ∈ (ofRanks ranks g).segments.successors a.source :=
    Digraph.mem_successors.2 ha
  obtain ⟨w, hw⟩ := List.length_eq_one_iff.1
    (length_successors_ofRanks hs hr hv ((ofRanks ranks g).segments.inRange a ha).1)
  rw [hw, List.mem_singleton] at hmem
  rw [onward, hreal, if_neg (by omega), hw, hmem]
  rfl

/-- Without the virtual vertices the arcs of the graph are left, in their order. -/
theorem contracted_ofRanks : (ofRanks ranks g).contracted = g.arcs := by
  have hreal : (ofRanks ranks g).realCount = g.size := hs
  have hstay : ∀ v < g.size, (ofRanks ranks g).onward v = v := fun v hv => by
    rw [onward, hreal, if_pos hv]
  have hnext : ∀ a ∈ segmentsFrom (ranks.getD · 0) g.size g.arcs, g.size ≤ a.source →
      (ofRanks ranks g).onward a.source = a.target := fun a ha =>
    onward_source_ofRanks hs hr (arcs_segments_ofRanks hs hr ▸ ha)
  rw [contracted, hreal, arcs_segments_ofRanks hs hr]
  exact contract_segmentsFrom g.inRange (Nat.le_refl _) hstay
    (Nat.le_of_eq (virtualCount_ofRanks hs).symm) hnext

/-- **A layering subdivides the arcs of its graph**, if they lead to higher ranks: each arc by a
virtual vertex of its own in every rank that it passes. -/
theorem subdivides_ofRanks : (ofRanks ranks g).Subdivides ranks g where
  proper := isProper_ofRanks hs hr
  realCount_eq := hs
  realCount_le := realCount_le_vertexCount
  rankOf_eq := fun _ hv => rankOf_ofRanks hv
  predecessors := fun _ hv hlt => length_predecessors_ofRanks hs hr (hs ▸ hv) hlt
  successors := fun _ hv hlt => length_successors_ofRanks hs hr (hs ▸ hv) hlt
  virtualCount_eq := virtualCount_ofRanks hs
  contracted_eq := contracted_ofRanks hs hr

omit hs hr in
/-- Parallel arcs past two ranks, with arcs to the next rank among them. -/
theorem subdivides_ofRanks_parallel :
    let ranks : Array Nat := #[0, 1, 3, 2]
    let g : Digraph := .ofArcs 4 [⟨0, 2⟩, ⟨0, 1⟩, ⟨0, 2⟩, ⟨1, 2⟩, ⟨3, 2⟩]
    ranks.size = g.size ∧ g.IsRanking (ranks.getD · 0) ∧ (ofRanks ranks g).Subdivides ranks g := by
  intro ranks g
  have hs : ranks.size = g.size := rfl
  have hr : g.IsRanking (ranks.getD · 0) := by
    have harcs : ∀ a ∈ g.arcs, ranks.getD a.source 0 < ranks.getD a.target 0 := by decide
    exact fun u v ha => harcs ⟨u, v⟩ ha
  exact ⟨hs, hr, subdivides_ofRanks hs hr⟩

end OfRanks

end LayeredDrawing.Layering
