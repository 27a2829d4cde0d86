import LayeredDrawing.Proofs.Digraph.CycleBreaking
import LayeredDrawing.Proofs.Digraph.LongestPath

/-!
# Parts of a graph

A part of a graph is a set of nodes that no arc joins to the rest; it may consist of several
components. As a graph of its own it has the nodes of the part in their order, under numbers of
their own, and their arcs in their order (`IsPart`).

A depth-first search that starts in a part stays in it, and one that starts elsewhere stays out of
it. So what a search of the whole graph does in a part is the search of the part, though the roots
of the other nodes come in between (`filter_foldl_exploreFrom`), and it only remains to change the
numbers (`map_foldl_exploreFrom`). The back arcs of a part are therefore those that the whole graph
has in it, and so are the arcs that are left when cycles are broken.

* `IsPart.acyclic`: a part of a graph is still one when the cycles of both are broken.
* `IsPart.getD_ranks`: **the ranks of a part are those of its nodes in the whole graph.**
-/

namespace LayeredDrawing

/-- The arc between other numbers. -/
def Arc.map (f : Nat → Nat) (a : Arc) : Arc := ⟨f a.source, f a.target⟩

theorem Arc.map_injective {f : Nat → Nat} (hf : Function.Injective f) :
    Function.Injective (Arc.map f) := by
  rintro ⟨s, t⟩ ⟨s', t'⟩ h
  obtain ⟨hs, ht⟩ := Arc.mk.inj h
  obtain rfl : s = s' := hf hs
  obtain rfl : t = t' := hf ht
  rfl

namespace Digraph

/-! ## Searches in a part -/

/-- The search as far as it concerns some of the nodes. -/
def Search.filter (part : Nat → Bool) (s : Search) : Search where
  unseen := s.unseen.filter part
  backArcs := s.backArcs.filter (part ·.source)

section Filter

variable {next : Nat → List Nat} {part : Nat → Bool} {s : Search}
  {path : List (Nat × List Nat)}

theorem Search.filter_erase (v : Nat) :
    ({ s with unseen := s.unseen.erase v } : Search).filter part =
      { s.filter part with unseen := (s.filter part).unseen.erase v } := by
  simp only [Search.filter, List.erase_filter]

theorem Search.filter_erase_outside {v : Nat} (hv : part v = false) :
    ({ s with unseen := s.unseen.erase v } : Search).filter part = s.filter part := by
  have hm : v ∉ s.unseen.filter part := by simp [hv]
  simp only [Search.filter, ← List.erase_filter, List.erase_of_not_mem hm]

/-- A search from nodes of a part does not look at the rest. -/
theorem filter_explore (hnext : ∀ v, ∀ w ∈ next v, part w = part v)
    (hpath : ∀ e ∈ path, part e.1 = true ∧ ∀ w ∈ e.2, part w = true) :
    (explore next s path).filter part = explore next (s.filter part) path := by
  fun_induction explore next s path with
  | case1 s => rw [explore]
  | case2 s v path ih =>
    rw [explore]
    exact ih (List.forall_mem_cons.1 hpath).2
  | case3 s v w ws path hw ih =>
    obtain ⟨⟨hv, hws⟩, hpath⟩ := List.forall_mem_cons.1 hpath
    obtain ⟨hpw, hws⟩ := List.forall_mem_cons.1 hws
    have hm : w ∈ (s.filter part).unseen := List.mem_filter.2 ⟨hw, hpw⟩
    -- Arcs from the part lead into it, so its successors may join the path.
    rw [explore, if_pos hm, ← Search.filter_erase]
    refine ih (List.forall_mem_cons.2 ⟨⟨hpw, fun u hu => ?_⟩,
      List.forall_mem_cons.2 ⟨⟨hv, hws⟩, hpath⟩⟩)
    exact (hnext w u hu).trans hpw
  | case4 s v w ws path hw hback ih =>
    obtain ⟨⟨hv, hws⟩, hpath⟩ := List.forall_mem_cons.1 hpath
    have hm : w ∉ (s.filter part).unseen := fun hm => hw (List.mem_filter.1 hm).1
    rw [explore, if_neg hm, if_pos hback]
    have hcons : ({ s with backArcs := ⟨v, w⟩ :: s.backArcs } : Search).filter part =
        { s.filter part with backArcs := ⟨v, w⟩ :: (s.filter part).backArcs } := by
      simp [Search.filter, hv]
    rw [← hcons]
    exact ih (List.forall_mem_cons.2 ⟨⟨hv, (List.forall_mem_cons.1 hws).2⟩, hpath⟩)
  | case5 s v w ws path hw hback ih =>
    obtain ⟨⟨hv, hws⟩, hpath⟩ := List.forall_mem_cons.1 hpath
    have hm : w ∉ (s.filter part).unseen := fun hm => hw (List.mem_filter.1 hm).1
    rw [explore, if_neg hm, if_neg hback]
    exact ih (List.forall_mem_cons.2 ⟨⟨hv, (List.forall_mem_cons.1 hws).2⟩, hpath⟩)

/-- A search from other nodes does not come to a part. -/
theorem filter_explore_outside (hnext : ∀ v, ∀ w ∈ next v, part w = part v)
    (hpath : ∀ e ∈ path, part e.1 = false ∧ ∀ w ∈ e.2, part w = false) :
    (explore next s path).filter part = s.filter part := by
  fun_induction explore next s path with
  | case1 s => rfl
  | case2 s v path ih => exact ih (List.forall_mem_cons.1 hpath).2
  | case3 s v w ws path hw ih =>
    obtain ⟨⟨hv, hws⟩, hpath⟩ := List.forall_mem_cons.1 hpath
    obtain ⟨hpw, hws⟩ := List.forall_mem_cons.1 hws
    have hrest := ih (List.forall_mem_cons.2 ⟨⟨hpw, fun u hu => (hnext w u hu).trans hpw⟩,
      List.forall_mem_cons.2 ⟨⟨hv, hws⟩, hpath⟩⟩)
    rwa [Search.filter_erase_outside hpw] at hrest
  | case4 s v w ws path hw hback ih =>
    obtain ⟨⟨hv, hws⟩, hpath⟩ := List.forall_mem_cons.1 hpath
    have hcons : ({ s with backArcs := ⟨v, w⟩ :: s.backArcs } : Search).filter part =
        s.filter part := by
      simp [Search.filter, hv]
    rw [← hcons]
    exact ih (List.forall_mem_cons.2 ⟨⟨hv, (List.forall_mem_cons.1 hws).2⟩, hpath⟩)
  | case5 s v w ws path hw hback ih =>
    obtain ⟨⟨hv, hws⟩, hpath⟩ := List.forall_mem_cons.1 hpath
    exact ih (List.forall_mem_cons.2 ⟨⟨hv, (List.forall_mem_cons.1 hws).2⟩, hpath⟩)

theorem filter_exploreFrom (hnext : ∀ v, ∀ w ∈ next v, part w = part v) (root : Nat) :
    (exploreFrom next s root).filter part =
      if part root = true then exploreFrom next (s.filter part) root else s.filter part := by
  by_cases hr : part root = true
  · have hmem : root ∈ (s.filter part).unseen ↔ root ∈ s.unseen := by
      simp [Search.filter, hr]
    have hpath : ∀ e ∈ [(root, next root)], part e.1 = true ∧ ∀ w ∈ e.2, part w = true := by
      simpa [hr] using fun w hw => (hnext root w hw).trans hr
    unfold exploreFrom
    rw [if_pos hr, if_congr hmem rfl rfl, apply_ite (Search.filter part), ← Search.filter_erase,
      filter_explore hnext hpath]
  · have hr : part root = false := by simpa using hr
    have hpath : ∀ e ∈ [(root, next root)], part e.1 = false ∧ ∀ w ∈ e.2, part w = false := by
      simpa [hr] using fun w hw => (hnext root w hw).trans hr
    rw [exploreFrom, apply_ite (Search.filter part), filter_explore_outside hnext hpath,
      Search.filter_erase_outside hr, ite_self, hr]
    rfl

/-- Of a search from a list of roots, the roots in a part do what there is to do in it. -/
theorem filter_foldl_exploreFrom (hnext : ∀ v, ∀ w ∈ next v, part w = part v)
    (roots : List Nat) :
    (roots.foldl (exploreFrom next) s).filter part =
      (roots.filter part).foldl (exploreFrom next) (s.filter part) := by
  induction roots generalizing s with
  | nil => rfl
  | cons root roots ih =>
    rw [List.foldl_cons, ih, filter_exploreFrom hnext]
    by_cases hr : part root = true
    · rw [if_pos hr, List.filter_cons_of_pos hr, List.foldl_cons]
    · rw [if_neg hr, List.filter_cons_of_neg hr]

end Filter

/-! ## Searches under other numbers -/

/-- The search under other numbers. -/
def Search.map (f : Nat → Nat) (s : Search) : Search where
  unseen := s.unseen.map f
  backArcs := s.backArcs.map (Arc.map f)

section Map

variable {next next' : Nat → List Nat} {f : Nat → Nat} {s : Search}
  {path : List (Nat × List Nat)}

theorem Search.map_erase (hf : Function.Injective f) (v : Nat) :
    ({ s with unseen := s.unseen.erase v } : Search).map f =
      { s.map f with unseen := (s.map f).unseen.erase (f v) } := by
  simp only [Search.map, List.map_erase hf]

theorem map_explore (hf : Function.Injective f)
    (hnext : ∀ v ∈ s.unseen, next' (f v) = (next v).map f) :
    explore next' (s.map f) (path.map fun e => (f e.1, e.2.map f)) =
      (explore next s path).map f := by
  fun_induction explore next s path with
  | case1 s => rw [List.map_nil, explore]
  | case2 s v path ih =>
    rw [List.map_cons, List.map_nil, explore]
    exact ih hnext
  | case3 s v w ws path hw ih =>
    have hm : f w ∈ (s.map f).unseen := List.mem_map_of_mem hw
    rw [List.map_cons, List.map_cons, explore, if_pos hm, hnext w hw, ← Search.map_erase hf]
    exact ih fun u hu => hnext u (List.mem_of_mem_erase hu)
  | case4 s v w ws path hw hback ih =>
    have hm : f w ∉ (s.map f).unseen := mt (List.mem_map_of_injective hf).1 hw
    have hback' : f w = f v ∨ f w ∈ (path.map fun e => (f e.1, e.2.map f)).map (·.1) := by
      refine hback.imp (congrArg f) fun h => ?_
      rw [List.map_map]
      exact List.map_map (f := Prod.fst) (g := f) ▸ List.mem_map_of_mem h
    rw [List.map_cons, List.map_cons, explore, if_neg hm, if_pos hback']
    exact ih hnext
  | case5 s v w ws path hw hback ih =>
    have hm : f w ∉ (s.map f).unseen := mt (List.mem_map_of_injective hf).1 hw
    have hback' : ¬ (f w = f v ∨ f w ∈ (path.map fun e => (f e.1, e.2.map f)).map (·.1)) := by
      refine mt (Or.imp (@hf w v) fun h => ?_) hback
      rw [List.map_map] at h
      exact (List.mem_map_of_injective hf).1 (List.map_map (f := Prod.fst) (g := f) ▸ h)
    rw [List.map_cons, List.map_cons, explore, if_neg hm, if_neg hback']
    exact ih hnext

theorem map_exploreFrom (hf : Function.Injective f)
    (hnext : ∀ v ∈ s.unseen, next' (f v) = (next v).map f) (root : Nat) :
    exploreFrom next' (s.map f) (f root) = (exploreFrom next s root).map f := by
  have hmem : f root ∈ (s.map f).unseen ↔ root ∈ s.unseen := List.mem_map_of_injective hf
  unfold exploreFrom
  rw [if_congr hmem rfl rfl]
  split
  · rename_i hr
    have hpath : [(f root, (next root).map f)] =
        [(root, next root)].map fun e => (f e.1, e.2.map f) := rfl
    rw [← Search.map_erase hf, hnext root hr, hpath]
    exact map_explore hf fun u hu => hnext u (List.mem_of_mem_erase hu)
  · rfl

theorem map_foldl_exploreFrom (hf : Function.Injective f)
    (hnext : ∀ v ∈ s.unseen, next' (f v) = (next v).map f) (roots : List Nat) :
    (roots.map f).foldl (exploreFrom next') (s.map f) =
      (roots.foldl (exploreFrom next) s).map f := by
  induction roots generalizing s with
  | nil => rfl
  | cons root roots ih =>
    rw [List.map_cons, List.foldl_cons, map_exploreFrom hf hnext, List.foldl_cons]
    exact ih fun v hv => hnext v ((unseen_exploreFrom_sublist next s root).subset hv)

end Map

/-! ## A part as a graph of its own -/

/-- The first graph is a part of the second one: its nodes are those of the second for which `part`
holds, numbered by `f` in the same order, no arc joins them to others, and its arcs are those
between them in the same order. -/
structure IsPart (h g : Digraph) (f : Nat → Nat) (part : Nat → Bool) : Prop where
  injective : Function.Injective f
  closed : ∀ a ∈ g.arcs, part a.target = part a.source
  nodes : g.nodes.filter part = h.nodes.map f
  arcs : g.arcs.filter (part ·.source) = h.arcs.map (Arc.map f)

namespace IsPart

variable {h g : Digraph} {f : Nat → Nat} {part : Nat → Bool} (hp : IsPart h g f part)

include hp

theorem part_eq_true {v : Nat} (hv : v ∈ h.nodes) : part (f v) = true := by
  have hm : f v ∈ g.nodes.filter part := hp.nodes ▸ List.mem_map_of_mem hv
  exact (List.mem_filter.1 hm).2

theorem lt_of_mem_nodes {v : Nat} (hv : v ∈ h.nodes) : f v < g.size := by
  have hm : f v ∈ g.nodes.filter part := hp.nodes ▸ List.mem_map_of_mem hv
  exact mem_nodes.1 (List.mem_filter.1 hm).1

/-- Arcs of the part are arcs of the whole graph. -/
theorem map_mem_arcs {b : Arc} (hb : b ∈ h.arcs) : b.map f ∈ g.arcs := by
  have hm : b.map f ∈ g.arcs.filter (part ·.source) := hp.arcs ▸ List.mem_map_of_mem hb
  exact (List.mem_filter.1 hm).1

/-- An arc of the whole graph that starts in the part is an arc of the part. -/
theorem exists_arc {a : Arc} (ha : a ∈ g.arcs) (hs : part a.source = true) :
    ∃ b ∈ h.arcs, b.map f = a := by
  have hm : a ∈ g.arcs.filter (part ·.source) := List.mem_filter.2 ⟨ha, hs⟩
  rw [hp.arcs] at hm
  exact List.mem_map.1 hm

theorem part_successors (v w : Nat) (hw : w ∈ g.successors v) : part w = part v :=
  hp.closed _ (mem_successors.1 hw)

theorem successors_eq {v : Nat} (hv : v ∈ h.nodes) :
    g.successors (f v) = (h.successors v).map f := by
  have hpart := hp.part_eq_true hv
  have hstart : g.arcs.filter (·.source == f v) = (h.arcs.map (Arc.map f)).filter
      (·.source == f v) := by
    rw [← hp.arcs, List.filter_filter]
    refine List.filter_congr fun a _ => ?_
    by_cases ha : a.source = f v <;> simp [ha, hpart]
  have hsame : ∀ b ∈ h.arcs, ((·.source == f v) ∘ Arc.map f) b = (b.source == v) := by
    intro b _
    rw [Bool.eq_iff_iff]
    simpa [Arc.map] using hp.injective.eq_iff
  rw [successors, hstart, List.filter_map, List.filter_congr hsame, List.map_map, successors,
    List.map_reverse, List.map_map]
  rfl

theorem sources_eq : g.sources.filter part = h.sources.map f := by
  rw [sources, List.filter_filter, sources]
  have hcomm : g.nodes.filter (fun v => part v &&
        g.arcs.all fun a => a.target != v || a.source == v) =
      (h.nodes.map f).filter fun v => g.arcs.all fun a => a.target != v || a.source == v := by
    rw [← hp.nodes, List.filter_filter]
    exact List.filter_congr fun v _ => Bool.and_comm ..
  rw [hcomm, List.filter_map]
  congr 1
  refine List.filter_congr fun v hv => ?_
  rw [Bool.eq_iff_iff]
  simp only [Function.comp_apply, List.all_eq_true, Bool.or_eq_true, bne_iff_ne, beq_iff_eq,
    ne_eq, ← imp_iff_not_or]
  constructor
  · intro hall b hb ht
    exact hp.injective (hall _ (hp.map_mem_arcs hb) (congrArg f ht))
  · intro hall a ha ht
    have hs : part a.source = true := by
      rw [← hp.closed a ha, ht, hp.part_eq_true hv]
    obtain ⟨b, hb, rfl⟩ := hp.exists_arc ha hs
    exact congrArg f (hall b hb (hp.injective ht))

/-- The back arcs of a part are those of the whole graph in it. -/
theorem backArcs_eq : g.backArcs.filter (part ·.source) = h.backArcs.map (Arc.map f) := by
  -- Both searches start with all nodes unseen, and the roots of the part come in the same order.
  have hstart : (⟨g.nodes, []⟩ : Search).filter part = (⟨h.nodes, []⟩ : Search).map f := by
    simp [Search.filter, Search.map, hp.nodes]
  have hroots : (g.sources ++ g.nodes).filter part = (h.sources ++ h.nodes).map f := by
    rw [List.filter_append, List.map_append, hp.sources_eq, hp.nodes]
  have hsearch := filter_foldl_exploreFrom (s := ⟨g.nodes, []⟩) hp.part_successors
    (g.sources ++ g.nodes)
  rw [hstart, hroots, map_foldl_exploreFrom hp.injective fun v hv => hp.successors_eq hv]
    at hsearch
  rw [backArcs, backArcs, successorTable_at, successorTable_at]
  exact congrArg Search.backArcs hsearch

theorem map_mem_backArcs_iff {b : Arc} (hb : b ∈ h.arcs) :
    b.map f ∈ g.backArcs ↔ b ∈ h.backArcs := by
  have hs : part (b.map f).source = true :=
    hp.part_eq_true (mem_nodes.2 (h.inRange b hb).1)
  have hm : b.map f ∈ g.backArcs ↔ b.map f ∈ g.backArcs.filter (part ·.source) := by
    simp [hs]
  rw [hm, hp.backArcs_eq, List.mem_map_of_injective (Arc.map_injective hp.injective)]

/-- A part of a graph is still one when the cycles of both are broken. -/
theorem acyclic : IsPart h.acyclic g.acyclic f part where
  injective := hp.injective
  closed := by
    intro a ha
    rw [arcs_acyclic] at ha
    obtain ⟨b, hb, rfl⟩ := List.mem_map.1 ha
    have hb := hp.closed b (List.mem_filter.1 hb).1
    split
    · exact hb.symm
    · exact hb
  nodes := hp.nodes
  arcs := by
    have hsource : ∀ a ∈ g.arcs.filter (!·.isLoop),
        ((part ·.source) ∘ fun a => if a ∈ g.backArcs then a.reverse else a) a =
          part a.source := by
      intro a ha
      simp only [Function.comp_apply]
      split
      · exact hp.closed a (List.mem_filter.1 ha).1
      · rfl
    have hloop : ∀ b ∈ h.arcs, ((!·.isLoop) ∘ Arc.map f) b = !b.isLoop := by
      intro b _
      have : (b.map f).isLoop = b.isLoop := by
        rw [Bool.eq_iff_iff]
        simpa [Arc.isLoop, Arc.map] using hp.injective.eq_iff
      simp only [Function.comp_apply, this]
    rw [arcs_acyclic, List.filter_map, List.filter_congr hsource, List.filter_filter,
      List.filter_congr fun a _ => Bool.and_comm _ _, ← List.filter_filter, hp.arcs,
      List.filter_map, List.filter_congr hloop, List.map_map, arcs_acyclic, List.map_map]
    refine List.map_congr_left fun b hb => ?_
    have hb := (List.mem_filter.1 hb).1
    simp only [Function.comp_apply, hp.map_mem_backArcs_iff hb]
    split <;> rfl

/-! ## Ranks of a part -/

/-- A path that ends in a part runs in it. -/
theorem exists_pathTo {n w : Nat} (hw : g.PathTo n w) (hpart : part w = true) :
    ∃ v, f v = w ∧ h.PathTo n v := by
  induction hw with
  | @node w hlt =>
    have hm : w ∈ g.nodes.filter part := List.mem_filter.2 ⟨mem_nodes.2 hlt, hpart⟩
    rw [hp.nodes] at hm
    obtain ⟨v, hv, rfl⟩ := List.mem_map.1 hm
    exact ⟨v, rfl, .node (mem_nodes.1 hv)⟩
  | @arc n u w _ ha ih =>
    have hu : part u = true := (hp.closed _ ha).symm.trans hpart
    obtain ⟨v, hvu, hv⟩ := ih hu
    obtain ⟨⟨s, t⟩, hb, e⟩ := hp.exists_arc ha hu
    obtain ⟨hs, rfl⟩ := Arc.mk.inj e
    obtain rfl := hp.injective (hs.trans hvu.symm)
    exact ⟨t, rfl, .arc hv hb⟩

/-- Ranks of acyclic graphs agree on a part. -/
theorem getD_leastRanks {ranks ranks' : Array Nat} (hg : g.LeastRanks ranks)
    (hh : h.LeastRanks ranks') {v : Nat} (hv : v < h.size) :
    ranks'.getD v 0 = ranks.getD (f v) 0 := by
  have hm := mem_nodes.2 hv
  apply Nat.le_antisymm
  · refine hh.least (fun v => ranks.getD (f v) 0) (fun u w ha => ?_) v hv
    exact hg.ascends _ _ (hp.map_mem_arcs ha)
  · obtain ⟨u, hu, hpath⟩ := hp.exists_pathTo (hg.longest (f v) (hp.lt_of_mem_nodes hm)).1
      (hp.part_eq_true hm)
    obtain rfl := hp.injective hu
    exact (hh.longest u hv).2 hpath

/-- **The ranks of a part are those of its nodes in the whole graph**, with cycles and all. -/
theorem getD_ranks {ranks ranks' : Array Nat} (hg : g.acyclic.LeastRanks ranks)
    (hh : h.acyclic.LeastRanks ranks') {v : Nat} (hv : v < h.size) :
    ranks'.getD v 0 = ranks.getD (f v) 0 :=
  hp.acyclic.getD_leastRanks hg hh hv

end IsPart

end Digraph

end LayeredDrawing
