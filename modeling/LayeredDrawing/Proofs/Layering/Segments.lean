import LayeredDrawing.Proofs.Layering.Orderings

/-!
# Segments join adjacent ranks

An arc that ascends is split by one virtual vertex in each rank between those of its ends, so the
ranks along its path count up by one (`map_rank_addArc`). Splitting an arc adds vertices and leaves
the ranks of the others as they are, so what holds of the segments so far goes on to hold
(`Splitting.Proper.addArc`).

* `isProper_ofRanks`: **every segment leads to the next rank.**
-/

namespace LayeredDrawing.Layering

/-- Every segment leads to the next rank. -/
def IsProper (l : Layering) : Prop :=
  ∀ a ∈ l.segments.arcs, l.rankOf a.target = l.rankOf a.source + 1

/-! ## Paths through consecutive ranks -/

/-- Along a path the ranks count up if they do along the list of its vertices. -/
theorem rank_of_mem_path {rank : Nat → Nat} {vertices : List Nat} {low : Nat}
    (h : vertices.map rank = List.range' low vertices.length) {a : Arc} (ha : a ∈ path vertices) :
    rank a.target = rank a.source + 1 := by
  induction vertices generalizing low with
  | nil => cases ha
  | cons u vertices ih =>
    cases vertices with
    | nil => cases ha
    | cons v vertices =>
      simp only [List.map_cons, List.length_cons, List.range'_succ] at h
      obtain ⟨hu, hv⟩ := List.cons.inj h
      rw [show path (u :: v :: vertices) = ⟨u, v⟩ :: path (v :: vertices) from rfl] at ha
      rcases List.mem_cons.1 ha with rfl | ha
      · exact hu ▸ (List.cons.inj hv).1
      · exact ih (by simpa [List.range'_succ] using hv) ha

/-- Both ends of a segment of a path are on it. -/
theorem mem_of_mem_path {vertices : List Nat} {a : Arc} (ha : a ∈ path vertices) :
    a.source ∈ vertices ∧ a.target ∈ vertices := by
  rw [path, ← List.map_uncurry_zip_eq_zipWith] at ha
  obtain ⟨⟨u, v⟩, hm, rfl⟩ := List.mem_map.1 ha
  exact ⟨(List.of_mem_zip hm).1, List.mem_of_mem_tail (List.of_mem_zip hm).2⟩

theorem cons_ranksBetween {low high : Nat} (h : low < high) :
    low :: ranksBetween low high ++ [high] = List.range' low (high - low + 1) := by
  obtain ⟨k, rfl⟩ : ∃ k, high = low + 1 + k := ⟨high - (low + 1), by omega⟩
  have hk : low + 1 + k - low + 1 = k + 1 + 1 := by omega
  rw [ranksBetween, Nat.add_sub_cancel_left, hk, List.range'_succ, List.range'_1_concat,
    List.cons_append]

/-! ## Splitting arcs -/

namespace Splitting

/-- The rank of a vertex met so far. -/
def rank (s : Splitting) (v : Nat) : Nat := s.ranks.getD v 0

/-- The vertices of the segments have been met, and every segment leads to the next rank. -/
def Proper (s : Splitting) : Prop :=
  ∀ a ∈ s.segments, (a.source < s.ranks.size ∧ a.target < s.ranks.size) ∧
    s.rank a.target = s.rank a.source + 1

variable {s : Splitting} {a : Arc}

theorem ranks_addArc : (s.addArc a).ranks =
    s.ranks ++ (ranksBetween (s.rank a.source) (s.rank a.target)).toArray := rfl

theorem size_le_addArc (s : Splitting) (a : Arc) : s.ranks.size ≤ (s.addArc a).ranks.size := by
  rw [ranks_addArc, Array.size_append]
  exact Nat.le_add_right ..

/-- Splitting an arc leaves the ranks of the vertices met before. -/
theorem rank_addArc {v : Nat} (hv : v < s.ranks.size) : (s.addArc a).rank v = s.rank v := by
  rw [rank, rank, ranks_addArc, Array.getD_eq_getD_getElem?, Array.getElem?_append_left hv,
    Array.getD_eq_getD_getElem?]

/-- The path that an arc is split into. -/
def vertices (s : Splitting) (a : Arc) : List Nat :=
  a.source :: List.range' s.ranks.size
    (ranksBetween (s.rank a.source) (s.rank a.target)).length ++ [a.target]

theorem segments_addArc : (s.addArc a).segments = s.segments ++ path (s.vertices a) := rfl

theorem map_rank_addArc (hs : a.source < s.ranks.size) (ht : a.target < s.ranks.size)
    (hlt : s.rank a.source < s.rank a.target) :
    (s.vertices a).map (s.addArc a).rank =
      List.range' (s.rank a.source) (s.vertices a).length := by
  have hnew : (List.range' s.ranks.size
        (ranksBetween (s.rank a.source) (s.rank a.target)).length).map (s.addArc a).rank =
      ranksBetween (s.rank a.source) (s.rank a.target) := by
    refine List.ext_getElem (by simp) fun i hi hi' => ?_
    rw [List.getElem_map, List.getElem_range', rank, ranks_addArc, Array.getD_eq_getD_getElem?,
      Array.getElem?_append_right (Nat.le_add_right ..), Nat.one_mul, Nat.add_sub_cancel_left]
    simp [hi']
  have hlength : (s.vertices a).length = s.rank a.target - s.rank a.source + 1 := by
    simp only [vertices, ranksBetween, List.length_append, List.length_cons, List.length_range',
      List.length_nil]
    omega
  rw [hlength, ← cons_ranksBetween hlt]
  simp only [vertices, List.map_cons, List.map_append, List.cons_append, List.map_nil, hnew,
    rank_addArc hs, rank_addArc ht]

theorem Proper.addArc (h : s.Proper) (hs : a.source < s.ranks.size)
    (ht : a.target < s.ranks.size) (hlt : s.rank a.source < s.rank a.target) :
    (s.addArc a).Proper := by
  intro b hb
  rw [segments_addArc] at hb
  have hsize := size_le_addArc s a
  rcases List.mem_append.1 hb with hb | hb
  · obtain ⟨⟨hbs, hbt⟩, hrank⟩ := h b hb
    rw [rank_addArc hbs, rank_addArc hbt]
    exact ⟨⟨by omega, by omega⟩, hrank⟩
  · have hlt' : ∀ v ∈ s.vertices a, v < (s.addArc a).ranks.size := by
      intro v hv
      have hnew : (s.addArc a).ranks.size = s.ranks.size +
          (ranksBetween (s.rank a.source) (s.rank a.target)).length := by
        simp [ranks_addArc]
      simp only [vertices, List.mem_append, List.mem_cons, List.mem_range'_1,
        List.not_mem_nil, or_false] at hv
      omega
    obtain ⟨hbs, hbt⟩ := mem_of_mem_path hb
    exact ⟨⟨hlt' _ hbs, hlt' _ hbt⟩, rank_of_mem_path (map_rank_addArc hs ht hlt) hb⟩

theorem proper_foldl_addArc (arcs : List Arc) (h : s.Proper)
    (ha : ∀ a ∈ arcs, a.source < s.ranks.size ∧ a.target < s.ranks.size ∧
      s.rank a.source < s.rank a.target) :
    (arcs.foldl Splitting.addArc s).Proper := by
  induction arcs generalizing s with
  | nil => exact h
  | cons a arcs ih =>
    obtain ⟨⟨hs, ht, hlt⟩, ha⟩ := List.forall_mem_cons.1 ha
    refine ih (h.addArc hs ht hlt) fun b hb => ?_
    obtain ⟨hbs, hbt, hblt⟩ := ha b hb
    have hsize := size_le_addArc s a
    rw [rank_addArc hbs, rank_addArc hbt]
    exact ⟨by omega, by omega, hblt⟩

end Splitting

/-- The segments of a graph whose arcs lead to higher ranks. -/
theorem proper_splitting {ranks : Array Nat} {g : Digraph} (hs : ranks.size = g.size)
    (hr : g.IsRanking (ranks.getD · 0)) : (g.arcs.foldl Splitting.addArc ⟨ranks, []⟩).Proper := by
  refine Splitting.proper_foldl_addArc g.arcs (fun a ha => by cases ha) fun a ha => ?_
  obtain ⟨hsource, htarget⟩ := g.inRange a ha
  exact ⟨hs ▸ hsource, hs ▸ htarget, hr a.source a.target ha⟩

/-- **Every segment leads to the next rank**, if the arcs of the graph lead to higher ranks. -/
theorem isProper_ofRanks {ranks : Array Nat} {g : Digraph} (hs : ranks.size = g.size)
    (hr : g.IsRanking (ranks.getD · 0)) : (ofRanks ranks g).IsProper :=
  fun a ha => (proper_splitting hs hr a (List.mem_filter.1 ha).1).2

end LayeredDrawing.Layering
