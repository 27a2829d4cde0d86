import LayeredDrawing.Proofs.KeyedList
import LayeredDrawing.Proofs.Layering.Orderings

/-!
# The search for few crossings

Every virtual vertex hangs on a segment that comes from a vertex numbered before it, so the walk
that starts from the nodes reaches all vertices: the first ordering lists every one of them in
the layer of its rank, and so does every ordering met later (`IsFullOrdering`).

The search keeps the best ordering so far. With more passes its result is the same or has fewer
crossings (`Candidate.Betters`), whatever the sweeps do, and a number cannot drop for ever.

* `isFullOrdering_bestOrdering`: the ordering found lists all vertices.
* `betters_improve`: more passes find nothing worse, and nothing else of equal worth.
* `settles_minimizeCrossings`: **both of the ordering of the nodes, and that it settles.**
-/

namespace LayeredDrawing.Layering

variable {l : Layering} {layers : Layers}

/-! ## Orderings of all vertices -/

/-- All vertices, each listed once and in the layer of its rank. -/
structure IsFullOrdering (l : Layering) (layers : Layers) : Prop where
  length_eq : layers.length = l.rankCount
  listed : layers.flatten.Perm (List.range l.vertexCount)
  rank_eq : ∀ r layer, layers[r]? = some layer → ∀ v ∈ layer, l.rankOf v = r

theorem isFullOrdering_iff : l.IsFullOrdering layers ↔
    layers.length = l.rankCount ∧ layers.flatten.Perm (List.range l.vertexCount) ∧
      ∀ e ∈ layers.zipIdx, ∀ v ∈ e.1, l.rankOf v = e.2 := by
  constructor
  · intro h
    exact ⟨h.length_eq, h.listed, fun e he =>
      h.rank_eq e.2 e.1 (List.mem_zipIdx_iff_getElem?.1 he)⟩
  · rintro ⟨hlength, hlisted, hrank⟩
    exact ⟨hlength, hlisted, fun r layer hl =>
      hrank (layer, r) (List.mem_zipIdx_iff_getElem?.2 hl)⟩

instance : Decidable (l.IsFullOrdering layers) := decidable_of_iff _ isFullOrdering_iff.symm

theorem IsOrdering.isFullOrdering (h : l.IsOrdering (List.range l.vertexCount) layers)
    (hr : ∀ v < l.vertexCount, l.rankOf v < l.rankCount) : l.IsFullOrdering layers where
  length_eq := h.length_eq
  listed := by
    have hall : (List.range l.vertexCount).filter (l.rankOf · < l.rankCount) =
        List.range l.vertexCount :=
      List.filter_eq_self.2 fun v hv => by simpa using hr v (List.mem_range.1 hv)
    have hclasses := flatMap_filter_key_perm (List.range l.vertexCount) l.rankOf l.rankCount
    rw [hall] at hclasses
    have hflat : layers.flatten.Perm (l.layersOf (List.range l.vertexCount)).flatten := by
      have hrel : Layers.Rearranges layers (l.layersOf (List.range l.vertexCount)) := h
      exact List.Perm.flatten_congr hrel
    exact hflat.trans hclasses
  rank_eq := fun _ _ hl _ hv => ((h.mem_layer hl).1 hv).2

/-! ## The walk reaches all vertices -/

section Walk

variable {next : Nat → List Nat} {unseen visited stack : List Nat}

theorem mem_walk_of_mem_visited {v : Nat} (hv : v ∈ visited) :
    v ∈ walk next unseen visited stack := by
  fun_induction walk next unseen visited stack with
  | case1 => simpa using hv
  | case2 unseen visited u stack hu unseen' ih => exact ih (List.mem_cons_of_mem u hv)
  | case3 unseen visited u stack hu ih => exact ih hv

/-- The walk goes on to every neighbour of a vertex it has visited. -/
theorem successors_walk (hn : unseen.Nodup)
    (h : ∀ v ∈ visited, ∀ w ∈ next v, w ∈ unseen → w ∈ stack) :
    ∀ v ∈ walk next unseen visited stack, ∀ w ∈ next v, w ∈ unseen →
      w ∈ walk next unseen visited stack := by
  fun_induction walk next unseen visited stack with
  | case1 unseen visited =>
    intro v hv w hw hu
    have := h v (List.mem_reverse.1 hv) w hw hu
    simp at this
  | case2 unseen visited u stack hu unseen' ih =>
    have hstep : ∀ v ∈ u :: visited, ∀ w ∈ next v, w ∈ unseen' →
        w ∈ ((next u).filter (· ∈ unseen')).reverse ++ stack := by
      intro v hv w hw hwu
      rcases List.mem_cons.1 hv with rfl | hv
      · simp [hw, hwu]
      · have hne : w ≠ u := fun e => hn.not_mem_erase (e ▸ hwu)
        have := (List.mem_cons.1 (h v hv w hw (List.mem_of_mem_erase hwu))).resolve_left hne
        simp [this]
    intro v hv w hw hwu
    by_cases hne : w = u
    · exact mem_walk_of_mem_visited (hne ▸ List.mem_cons_self)
    · exact ih (hn.erase u) hstep v hv w hw ((List.mem_erase_of_ne hne).2 hwu)
  | case3 unseen visited u stack hu ih =>
    refine ih hn fun v hv w hw hwu => ?_
    have hne : w ≠ u := fun e => hu (e ▸ hwu)
    exact (List.mem_cons.1 (h v hv w hw hwu)).resolve_left hne

end Walk

/-- Every vertex but the nodes hangs on a segment from a vertex numbered before it. -/
def HangsOn (l : Layering) : Prop :=
  ∀ w, l.realCount ≤ w → w < l.vertexCount → ∃ u < w, ⟨u, w⟩ ∈ l.segments.arcs

theorem walk_perm_range (h : l.HangsOn) :
    (walk l.segments.successorTable.at l.segments.nodes [] l.roots).Perm
      (List.range l.vertexCount) := by
  have hnodes : l.segments.nodes = List.range l.vertexCount := rfl
  obtain ⟨rest, hs, hp, hroots⟩ := exists_rest_walk l.segments.successorTable.at [] l.roots
    l.segments.nodup_nodes
  rw [List.nil_append, hnodes] at hp
  have hall : ∀ v < l.vertexCount,
      v ∈ walk l.segments.successorTable.at l.segments.nodes [] l.roots := by
    intro v
    induction v using Nat.strongRecOn with
    | _ v ih =>
      intro hv
      by_cases hreal : v < l.realCount
      · have hm := hp.mem_iff.2 (List.mem_range.2 hv)
        exact (List.mem_append.1 hm).resolve_right (hroots v (mem_roots.2 hreal))
      · obtain ⟨u, hu, ha⟩ := h v (by omega) hv
        refine successors_walk List.nodup_range (by simp) u (ih u hu (by omega)) v ?_
          (List.mem_range.2 hv)
        rw [Digraph.at_successorTable]
        exact Digraph.mem_successors.2 ha
  have hrest : rest = [] := by
    refine List.eq_nil_iff_forall_not_mem.2 fun v hv => ?_
    have hn := hp.nodup_iff.2 List.nodup_range
    have hlt : v < l.vertexCount := List.mem_range.1 (hs.subset hv)
    exact hn.disjoint (hall v hlt) hv
  rwa [hrest, List.append_nil] at hp

theorem isOrdering_initialLayers_all (h : l.HangsOn) :
    l.IsOrdering (List.range l.vertexCount) l.initialLayers :=
  layersOf_perm (walk_perm_range h)

/-! ## The vertices of a ranked graph -/

section OfRanks

variable {ranks : Array Nat} {g : Digraph}

theorem path_cons_cons (u v : Nat) (vs : List Nat) :
    path (u :: v :: vs) = ⟨u, v⟩ :: path (v :: vs) := rfl

/-- A path through numbers that count up has an arc from below to each of them. -/
theorem exists_arc_path {s t n k w : Nat} (hs : s < n) (hw : n ≤ w) (hwk : w < n + k) :
    ∃ u < w, ⟨u, w⟩ ∈ path (s :: List.range' n k ++ [t]) := by
  induction k generalizing s n with
  | zero => omega
  | succ k ih =>
    rw [List.range'_succ, List.cons_append, List.cons_append, path_cons_cons]
    rcases Nat.eq_or_lt_of_le hw with rfl | hlt
    · exact ⟨s, hs, List.mem_cons_self⟩
    · obtain ⟨u, hu, ha⟩ := ih (Nat.lt_succ_self n) hlt (by omega)
      exact ⟨u, hu, List.mem_cons_of_mem _ ha⟩

theorem lt_of_mem_ranksBetween {low high r : Nat} (h : r ∈ ranksBetween low high) :
    r < high := by
  rw [ranksBetween, List.mem_range'_1] at h
  omega

/-- What splitting arcs keeps: ranks stay below `n`, and each vertex added to the first `m`
hangs on a segment. -/
structure Splitting.Grows (m n : Nat) (s : Splitting) : Prop where
  le_size : m ≤ s.ranks.size
  rank_lt : ∀ r ∈ s.ranks, r < n
  hangs : ∀ w, m ≤ w → w < s.ranks.size → ∃ u < w, ⟨u, w⟩ ∈ s.segments

theorem Splitting.Grows.addArc {m n : Nat} {s : Splitting} (h : s.Grows m n) {a : Arc}
    (ha : a.source < m) : (s.addArc a).Grows m n where
  le_size := by
    have := h.le_size
    simp only [Splitting.addArc, Array.size_append]
    omega
  rank_lt := by
    intro r hr
    simp only [Splitting.addArc, Array.mem_append, List.mem_toArray] at hr
    rcases hr with hr | hr
    · exact h.rank_lt r hr
    · have hlt := lt_of_mem_ranksBetween hr
      rw [Array.getD_eq_getD_getElem?] at hlt
      cases ht : s.ranks[a.target]? with
      | none => simp [ht] at hlt
      | some high =>
        have hhigh := h.rank_lt high (Array.mem_of_getElem? ht)
        simp only [ht, Option.getD_some] at hlt
        omega
  hangs := by
    intro w hm hw
    simp only [Splitting.addArc, Array.size_append, List.size_toArray] at hw
    by_cases hold : w < s.ranks.size
    · obtain ⟨u, hu, hs⟩ := h.hangs w hm hold
      exact ⟨u, hu, List.mem_append_left _ hs⟩
    · have hsource : a.source < s.ranks.size := Nat.lt_of_lt_of_le ha h.le_size
      obtain ⟨u, hu, hs⟩ := exists_arc_path (t := a.target) hsource (by omega) hw
      exact ⟨u, hu, List.mem_append_right _ hs⟩

theorem grows_foldl_addArc {m n : Nat} (arcs : List Arc) {s : Splitting} (h : s.Grows m n)
    (ha : ∀ a ∈ arcs, a.source < m) : (arcs.foldl Splitting.addArc s).Grows m n := by
  induction arcs generalizing s with
  | nil => exact h
  | cons a arcs ih =>
    obtain ⟨h₁, h₂⟩ := List.forall_mem_cons.1 ha
    exact ih (h.addArc h₁) h₂

theorem grows_ofRanks (hs : ranks.size = g.size) :
    (g.arcs.foldl Splitting.addArc ⟨ranks, []⟩).Grows (ofRanks ranks g).realCount
      (ofRanks ranks g).rankCount := by
  refine grows_foldl_addArc g.arcs ?_ fun a ha => ?_
  · refine ⟨Nat.le_refl _, fun r hr => ?_, fun w hm hw => ?_⟩
    · obtain ⟨v, hv, rfl⟩ := Array.mem_iff_getElem.1 hr
      have := lt_rankCount_ofRanks (g := g) hv
      simpa [hv] using this
    · have hreal : (ofRanks ranks g).realCount = ranks.size := rfl
      simp only at hw
      omega
  · have hreal : (ofRanks ranks g).realCount = g.size := hs
    exact hreal ▸ (g.inRange a ha).1

theorem hangsOn_ofRanks (hs : ranks.size = g.size) : (ofRanks ranks g).HangsOn := by
  intro w hw hlt
  obtain ⟨u, hu, ha⟩ := (grows_ofRanks hs).hangs w hw hlt
  refine ⟨u, hu, List.mem_filter.2 ⟨ha, ?_⟩⟩
  have hlt : w < (g.arcs.foldl Splitting.addArc ⟨ranks, []⟩).ranks.size := hlt
  simp only [decide_eq_true_eq]
  omega

theorem rankOf_lt_rankCount (hs : ranks.size = g.size) {v : Nat}
    (hv : v < (ofRanks ranks g).vertexCount) :
    (ofRanks ranks g).rankOf v < (ofRanks ranks g).rankCount := by
  have hv : v < (ofRanks ranks g).ranks.size := hv
  rw [rankOf, Array.getD_eq_getD_getElem?, Array.getElem?_eq_getElem hv, Option.getD_some]
  exact (grows_ofRanks hs).rank_lt _ (Array.getElem_mem hv)

end OfRanks

/-! ## More passes -/

/-- The same candidate, or one with fewer crossings. -/
def Candidate.Betters (c d : Candidate) : Prop := c = d ∨ c.crossings < d.crossings

namespace Candidate.Betters

variable {c d : Candidate}

theorem le (h : c.Betters d) : c.crossings ≤ d.crossings := by
  rcases h with rfl | h
  · exact Nat.le_refl _
  · exact Nat.le_of_lt h

theorem eq_of_le (h : c.Betters d) (hle : d.crossings ≤ c.crossings) : c = d := by
  rcases h with h | h
  · exact h
  · omega

theorem trans {e : Candidate} (h₁ : c.Betters d) (h₂ : d.Betters e) : c.Betters e := by
  have := h₂.le
  rcases h₁ with rfl | h₁
  · exact h₂
  · exact .inr (by omega)

end Candidate.Betters

section Passes

variable {α : Type} [Scalar α] {n : Neighbours}

/-- The better of two candidates as the search takes it. -/
theorem betters_keep (c best : Candidate) :
    (if c.crossings < best.crossings then c else best).Betters best := by
  split
  · exact .inr ‹_›
  · exact .inl rfl

theorem betters_improve_best (passes : Nat) (downward : Bool) (layers : Layers)
    (best : Candidate) : (improve α l n passes downward layers best).Betters best := by
  induction passes generalizing downward layers best with
  | zero => exact .inl rfl
  | succ passes ih =>
    rw [improve]
    split
    · exact .inl rfl
    · exact (ih ..).trans (betters_keep ⟨_, _⟩ best)

/-- What more passes find is the same or has fewer crossings. -/
theorem betters_improve {p q : Nat} (h : p ≤ q) (downward : Bool) (layers : Layers)
    (best : Candidate) :
    (improve α l n q downward layers best).Betters (improve α l n p downward layers best) := by
  induction p generalizing q downward layers best with
  | zero => exact betters_improve_best q downward layers best
  | succ p ih =>
    obtain ⟨q, rfl⟩ : ∃ q', q = q' + 1 := ⟨q - 1, by omega⟩
    rw [improve, improve]
    split
    · exact .inl rfl
    · exact ih (by omega) ..

/-- The number of crossings that is kept is that of the ordering that is kept. -/
theorem crossings_improve {passes : Nat} {downward : Bool} {best : Candidate}
    (h : best.crossings = l.crossingsAlong n.below.at best.layers) :
    (improve α l n passes downward layers best).crossings =
      l.crossingsAlong n.below.at (improve α l n passes downward layers best).layers := by
  induction passes generalizing downward layers best with
  | zero => exact h
  | succ passes ih =>
    rw [improve]
    split
    · exact h
    · refine ih ?_
      split
      · rfl
      · exact h

theorem crossings_bestOrdering (passes : Nat) :
    (l.bestOrdering α passes).crossings = l.crossings (l.bestOrdering α passes).layers :=
  crossings_improve (n := l.neighbours) rfl

theorem betters_bestOrdering {p q : Nat} (h : p ≤ q) :
    (l.bestOrdering α q).Betters (l.bestOrdering α p) :=
  betters_improve h ..

theorem betters_minimizeCrossings {p q : Nat} (h : p ≤ q) :
    (l.minimizeCrossings q α).Betters (l.minimizeCrossings p α) := by
  rcases betters_bestOrdering (α := α) (l := l) h with e | hlt
  · exact .inl (by rw [minimizeCrossings, minimizeCrossings, e])
  · exact .inr hlt

/-- A sequence of candidates that only better each other comes to rest. -/
theorem exists_rest_of_betters {found : Nat → Candidate}
    (h : ∀ p q, p ≤ q → (found q).Betters (found p)) :
    ∃ p, ∀ q, p ≤ q → found q = found p := by
  have main : ∀ n p, (found p).crossings = n → ∃ p, ∀ q, p ≤ q → found q = found p := by
    intro n
    induction n using Nat.strongRecOn with
    | _ n ih =>
      intro p hp
      by_cases hdrop : ∃ q, p ≤ q ∧ (found q).crossings < n
      · obtain ⟨q, -, hq⟩ := hdrop
        exact ih _ hq q rfl
      · refine ⟨p, fun q hpq => (h p q hpq).eq_of_le ?_⟩
        by_contra hlt
        exact hdrop ⟨q, hpq, by omega⟩
  exact main _ 0 rfl

theorem isFullOrdering_bestOrdering (h : l.HangsOn)
    (hr : ∀ v < l.vertexCount, l.rankOf v < l.rankCount) (passes : Nat) :
    l.IsFullOrdering (l.bestOrdering α passes).layers := by
  have h₀ := isOrdering_initialLayers_all h
  exact (isOrdering_improve h₀ h₀).isFullOrdering hr

/-- What a search for few crossings finds with more and more passes. -/
structure Settles (l : Layering) (found : Nat → Candidate) : Prop where
  /-- The layers are those of the nodes in an ordering of all vertices with that number of
  crossings. -/
  listed : ∀ passes, ∃ layers, l.IsFullOrdering layers ∧
    (found passes).layers = layers.map (·.filter (· < l.realCount)) ∧
    (found passes).crossings = l.crossings layers
  le_initial : ∀ passes, (found passes).crossings ≤ l.crossings l.initialLayers
  antitone : ∀ p q, p ≤ q → (found q).crossings ≤ (found p).crossings
  /-- Other layers are only found for fewer crossings. -/
  drops : ∀ p q, p ≤ q → (found q).layers ≠ (found p).layers →
    (found q).crossings < (found p).crossings
  rests : ∃ p, ∀ q, p ≤ q → found q = found p
  rests_of_zero : ∀ p, (found p).crossings = 0 → ∀ q, p ≤ q → found q = found p

/-- **The search for few crossings settles.** The graph may be any one with a rank for each node,
and the means that layers are sorted by may be numbers of any kind. -/
theorem settles_minimizeCrossings {ranks : Array Nat} {g : Digraph} (hs : ranks.size = g.size) :
    (ofRanks ranks g).Settles fun passes => (ofRanks ranks g).minimizeCrossings passes α where
  listed := fun passes =>
    ⟨_, isFullOrdering_bestOrdering (hangsOn_ofRanks hs) (fun _ hv => rankOf_lt_rankCount hs hv)
      passes, rfl, crossings_bestOrdering passes⟩
  le_initial := fun passes => (betters_bestOrdering (Nat.zero_le passes)).le
  antitone := fun _ _ hpq => (betters_minimizeCrossings hpq).le
  drops := fun _ _ hpq hne =>
    (betters_minimizeCrossings hpq).resolve_left fun e => hne (by rw [e])
  rests := exists_rest_of_betters fun _ _ hpq => betters_minimizeCrossings hpq
  rests_of_zero := fun _ hp _ hpq => (betters_minimizeCrossings hpq).eq_of_le (by omega)

/-- Two ranks with crossing arcs, two of them parallel, and an arc to the last rank past both. -/
theorem settles_minimizeCrossings_crossed :
    let ranks : Array Nat := #[0, 0, 1, 1, 2]
    let g : Digraph := .ofArcs 5 [⟨0, 3⟩, ⟨1, 2⟩, ⟨0, 3⟩, ⟨1, 4⟩, ⟨2, 4⟩, ⟨0, 4⟩]
    ranks.size = g.size ∧
      (ofRanks ranks g).Settles fun passes => (ofRanks ranks g).minimizeCrossings passes := by
  intro ranks g
  have hs : ranks.size = g.size := rfl
  exact ⟨hs, settles_minimizeCrossings hs⟩

end Passes

end LayeredDrawing.Layering
