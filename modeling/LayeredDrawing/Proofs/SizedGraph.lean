import LayeredDrawing.SizedGraph
import Mathlib.Data.List.Basic
import Mathlib.Data.List.Nodup

/-!
# When nodes and edges make a graph

Both loops of `SizedGraph.build` stop at the first entry that is at fault. What keeps a diagram
from being a graph is therefore said by a split of a list: nothing is wrong before the entry, and
what follows it plays no part (`Fault`).

* `build_eq_error_iff`: the error of `build` is the fault of the diagram.
* `exists_build_iff`: there is a graph if no name occurs twice and no edge lacks an end.
* `nodes_of_build`, `nodup_of_build`: its nodes are those of the diagram under their own names.
* `arcs_of_build`: its arcs are the edges, in their order.
-/

namespace LayeredDrawing

/-- Both ends of an edge are among the names. -/
def Edge.Joins (ids : List String) (e : Edge) : Prop := e.source ∈ ids ∧ e.target ∈ ids

instance {ids : List String} {e : Edge} : Decidable (e.Joins ids) :=
  inferInstanceAs (Decidable (e.source ∈ ids ∧ e.target ∈ ids))

namespace SizedGraph

/-- What keeps edges between named nodes from being a graph: the first name that occurs among
those before it, and if there is none, the first edge that lacks an end, with its source if it
lacks both. -/
inductive Fault (ids : List String) (edges : List Edge) : LayoutError → Prop
  | duplicate {before after : List String} {id : String} (split : ids = before ++ id :: after)
      (first : before.Nodup) (again : id ∈ before) : Fault ids edges (.duplicateNode id)
  | source {before after : List Edge} {e : Edge} (names : ids.Nodup)
      (split : edges = before ++ e :: after) (first : ∀ b ∈ before, b.Joins ids)
      (missing : e.source ∉ ids) : Fault ids edges (.unknownNode e.id e.source)
  | target {before after : List Edge} {e : Edge} (names : ids.Nodup)
      (split : edges = before ++ e :: after) (first : ∀ b ∈ before, b.Joins ids)
      (present : e.source ∈ ids) (missing : e.target ∉ ids) :
      Fault ids edges (.unknownNode e.id e.target)

variable {ids : List String} {edges : List Edge}

theorem Fault.isGraphError {err : LayoutError} (h : Fault ids edges err) :
    err.isGraphError = true := by
  cases h <;> rfl

/-! ## The first name that occurs again -/

theorem duplicate?_eq_some_iff {seen : List String} (hs : seen.Nodup) {id : String} :
    duplicate? seen ids = some id ↔
      ∃ before after, ids = before ++ id :: after ∧ (seen ++ before).Nodup ∧
        id ∈ seen ++ before := by
  induction ids generalizing seen with
  | nil => simp [duplicate?]
  | cons x ids ih =>
    rw [duplicate?]
    split
    · rename_i hx
      constructor
      · intro h
        obtain rfl := Option.some.inj h
        exact ⟨[], ids, rfl, by simpa using hs, by simpa using hx⟩
      · rintro ⟨before, after, e, hn, hm⟩
        cases before with
        | nil => exact congrArg some (List.cons.inj e).1
        | cons y before =>
          obtain ⟨rfl, -⟩ := List.cons.inj e
          exact absurd List.mem_cons_self (hn.disjoint hx)
    · rename_i hx
      rw [ih (List.nodup_cons.2 ⟨hx, hs⟩)]
      constructor
      · rintro ⟨before, after, rfl, hn, hm⟩
        refine ⟨x :: before, after, rfl, List.nodup_middle.2 hn, ?_⟩
        exact List.perm_middle.mem_iff.2 hm
      · rintro ⟨before, after, e, hn, hm⟩
        cases before with
        | nil =>
          obtain ⟨rfl, -⟩ := List.cons.inj e
          exact absurd (by simpa using hm) hx
        | cons y before =>
          obtain ⟨rfl, rfl⟩ := List.cons.inj e
          exact ⟨before, after, rfl, List.nodup_middle.1 hn, List.perm_middle.mem_iff.1 hm⟩

theorem duplicate?_eq_none_iff {seen : List String} (hs : seen.Nodup) :
    duplicate? seen ids = none ↔ (seen ++ ids).Nodup := by
  induction ids generalizing seen with
  | nil => simpa [duplicate?] using hs
  | cons x ids ih =>
    rw [duplicate?]
    split
    · rename_i hx
      refine iff_of_false (Option.some_ne_none x) fun hn => ?_
      exact hn.disjoint hx List.mem_cons_self
    · rename_i hx
      rw [ih (List.nodup_cons.2 ⟨hx, hs⟩), List.nodup_middle]
      rfl

theorem exists_duplicate? (h : ¬ ids.Nodup) : ∃ id, duplicate? [] ids = some id :=
  Option.ne_none_iff_exists'.1 (mt (duplicate?_eq_none_iff List.nodup_nil).1 h)

/-! ## The first edge without one of its ends -/

theorem arcOf_of_joins {e : Edge} (h : e.Joins ids) :
    arcOf ids e = .ok ⟨ids.idxOf e.source, ids.idxOf e.target⟩ := by
  obtain ⟨s, hs⟩ := Option.isSome_iff_exists.1 (List.isSome_idxOf?.2 h.1)
  obtain ⟨t, ht⟩ := Option.isSome_iff_exists.1 (List.isSome_idxOf?.2 h.2)
  simp [arcOf, hs, ht, List.idxOf_eq_getD_idxOf?]

theorem arcOf_eq_error_iff {e : Edge} {err : LayoutError} :
    arcOf ids e = .error err ↔
      e.source ∉ ids ∧ err = .unknownNode e.id e.source ∨
        e.source ∈ ids ∧ e.target ∉ ids ∧ err = .unknownNode e.id e.target := by
  rw [arcOf]
  split
  · rename_i hs
    have hs := List.idxOf?_eq_none_iff.1 hs
    simp [hs, eq_comm]
  · rename_i s hs
    have hs : e.source ∈ ids := List.isSome_idxOf?.1 (by simp [hs])
    split
    · rename_i ht
      have ht := List.idxOf?_eq_none_iff.1 ht
      simp [hs, ht, eq_comm]
    · rename_i t ht
      have ht : e.target ∈ ids := List.isSome_idxOf?.1 (by simp [ht])
      simp [hs, ht]

theorem joins_or_arcOf_eq_error (ids : List String) (e : Edge) :
    e.Joins ids ∨ ∃ err, arcOf ids e = .error err := by
  by_cases hs : e.source ∈ ids
  · by_cases ht : e.target ∈ ids
    · exact .inl ⟨hs, ht⟩
    · exact .inr ⟨_, arcOf_eq_error_iff.2 (.inr ⟨hs, ht, rfl⟩)⟩
  · exact .inr ⟨_, arcOf_eq_error_iff.2 (.inl ⟨hs, rfl⟩)⟩

theorem not_joins_of_arcOf_eq_error {e : Edge} {err : LayoutError}
    (h : arcOf ids e = .error err) : ¬ e.Joins ids := by
  intro hj
  rw [arcOf_of_joins hj] at h
  cases h

theorem arcsOf_of_joins (h : ∀ e ∈ edges, e.Joins ids) :
    arcsOf ids edges =
      .ok (edges.map fun e => ⟨ids.idxOf e.source, ids.idxOf e.target⟩) := by
  induction edges with
  | nil => rfl
  | cons e edges ih =>
    obtain ⟨he, h⟩ := List.forall_mem_cons.1 h
    simp [arcsOf, arcOf_of_joins he, ih h]

theorem joins_of_arcsOf {arcs : List Arc} (h : arcsOf ids edges = .ok arcs) :
    ∀ e ∈ edges, e.Joins ids := by
  induction edges generalizing arcs with
  | nil => simp
  | cons e edges ih =>
    rcases joins_or_arcOf_eq_error ids e with hj | ⟨err, he⟩
    · cases hr : arcsOf ids edges with
      | ok as => exact List.forall_mem_cons.2 ⟨hj, ih hr⟩
      | error err => simp [arcsOf, arcOf_of_joins hj, hr] at h
    · simp [arcsOf, he] at h

theorem map_eq_error_iff {ε β γ : Type} {f : β → γ} {x : Except ε β} {err : ε} :
    x.map f = .error err ↔ x = .error err := by
  cases x <;> simp [Except.map]

theorem arcsOf_cons_of_joins {e : Edge} (h : e.Joins ids) :
    arcsOf ids (e :: edges) =
      (arcsOf ids edges).map (⟨ids.idxOf e.source, ids.idxOf e.target⟩ :: ·) := by
  rw [arcsOf, arcOf_of_joins h]
  cases arcsOf ids edges <;> rfl

theorem arcsOf_eq_error_iff {err : LayoutError} :
    arcsOf ids edges = .error err ↔
      ∃ before e after, edges = before ++ e :: after ∧ (∀ b ∈ before, b.Joins ids) ∧
        arcOf ids e = .error err := by
  induction edges with
  | nil => simp [arcsOf]
  | cons e edges ih =>
    rcases joins_or_arcOf_eq_error ids e with hj | ⟨err', he⟩
    · rw [arcsOf_cons_of_joins hj, map_eq_error_iff, ih]
      constructor
      · rintro ⟨before, b, after, rfl, hb, hbe⟩
        exact ⟨e :: before, b, after, rfl, List.forall_mem_cons.2 ⟨hj, hb⟩, hbe⟩
      · rintro ⟨before, b, after, split, hb, hbe⟩
        cases before with
        | nil =>
          obtain ⟨rfl, -⟩ := List.cons.inj split
          exact absurd hj (not_joins_of_arcOf_eq_error hbe)
        | cons c before =>
          obtain ⟨rfl, rfl⟩ := List.cons.inj split
          exact ⟨before, b, after, rfl, (List.forall_mem_cons.1 hb).2, hbe⟩
    · simp only [arcsOf, he]
      constructor
      · intro h
        obtain rfl := Except.error.inj h
        exact ⟨[], e, edges, rfl, by simp, he⟩
      · rintro ⟨before, b, after, split, hb, hbe⟩
        cases before with
        | nil =>
          obtain ⟨rfl, -⟩ := List.cons.inj split
          rw [he] at hbe
          rw [Except.error.inj hbe]
        | cons c before =>
          obtain ⟨rfl, -⟩ := List.cons.inj split
          exact absurd (hb e List.mem_cons_self) (not_joins_of_arcOf_eq_error he)

/-! ## The graph of a diagram -/

theorem isMeasurable_resolveSize {α δ : Type} [Scalar α] {sizes : Option (SizeMap α)}
    {default : Size α} (hd : default.isMeasurable = true) (n : Node α δ) :
    (resolveSize sizes default n).isMeasurable = true := by
  rw [resolveSize]
  cases h : (((sizes.getD []).lookup n.id).filter (·.isMeasurable)).or
      (n.measured.filter (·.isMeasurable)) with
  | none => exact hd
  | some s =>
    rcases Option.or_eq_some_iff.1 h with h | ⟨-, h⟩
    · exact (Option.filter_eq_some_iff.1 h).2
    · exact (Option.filter_eq_some_iff.1 h).2

variable {α δ : Type} [Scalar α] {nodes : List (Node α δ)} {sizes : Option (SizeMap α)}
  {default : Size α}

theorem build_of_duplicate {id : String} (h : duplicate? [] (nodes.map (·.id)) = some id) :
    build nodes edges sizes default = .error (.duplicateNode id) := by
  simp only [build, h]

theorem build_of_nodup (h : (nodes.map (·.id)).Nodup) :
    build nodes edges sizes default =
      (arcsOf (nodes.map (·.id)) edges).map fun arcs => {
        nodes := nodes.map fun n => ⟨n.id, resolveSize sizes default n⟩
        graph := .ofArcs nodes.length arcs
        size_graph := by simp [Digraph.ofArcs] } := by
  have hd := (duplicate?_eq_none_iff List.nodup_nil).2 h
  simp only [build, hd]
  cases arcsOf (nodes.map (·.id)) edges <;> rfl

theorem build_eq_error_iff {err : LayoutError} :
    build nodes edges sizes default = .error err ↔ Fault (nodes.map (·.id)) edges err := by
  by_cases names : (nodes.map (·.id)).Nodup
  · rw [build_of_nodup names, map_eq_error_iff, arcsOf_eq_error_iff]
    constructor
    · rintro ⟨before, e, after, split, first, he⟩
      rcases arcOf_eq_error_iff.1 he with ⟨missing, rfl⟩ | ⟨present, missing, rfl⟩
      · exact .source names split first missing
      · exact .target names split first present missing
    · intro h
      cases h with
      | duplicate split first again =>
        rw [split] at names
        exact absurd List.mem_cons_self (names.disjoint again)
      | source _ split first missing =>
        exact ⟨_, _, _, split, first, arcOf_eq_error_iff.2 (.inl ⟨missing, rfl⟩)⟩
      | target _ split first present missing =>
        exact ⟨_, _, _, split, first, arcOf_eq_error_iff.2 (.inr ⟨present, missing, rfl⟩)⟩
  · obtain ⟨id, hd⟩ := exists_duplicate? names
    rw [build_of_duplicate hd]
    constructor
    · intro h
      obtain rfl := Except.error.inj h
      obtain ⟨before, after, split, first, again⟩ := (duplicate?_eq_some_iff List.nodup_nil).1 hd
      exact .duplicate split first again
    · intro h
      cases h with
      | duplicate split first again =>
        have hd' := (duplicate?_eq_some_iff List.nodup_nil).2 ⟨_, _, split, first, again⟩
        rw [Option.some.inj (hd.symm.trans hd')]
      | source h => exact absurd h names
      | target h => exact absurd h names

theorem exists_build_iff :
    (∃ g, build nodes edges sizes default = .ok g) ↔
      (nodes.map (·.id)).Nodup ∧ ∀ e ∈ edges, e.Joins (nodes.map (·.id)) := by
  constructor
  · rintro ⟨g, hg⟩
    by_cases names : (nodes.map (·.id)).Nodup
    · rw [build_of_nodup names] at hg
      obtain ⟨arcs, ha⟩ : ∃ arcs, arcsOf (nodes.map (·.id)) edges = .ok arcs := by
        cases ha : arcsOf (nodes.map (·.id)) edges with
        | ok arcs => exact ⟨arcs, rfl⟩
        | error err => rw [ha] at hg; cases hg
      exact ⟨names, joins_of_arcsOf ha⟩
    · obtain ⟨id, hd⟩ := exists_duplicate? names
      rw [build_of_duplicate hd] at hg
      cases hg
  · rintro ⟨names, h⟩
    exact ⟨_, by rw [build_of_nodup names, arcsOf_of_joins h]; rfl⟩

theorem nodes_of_build {g : SizedGraph α} (h : build nodes edges sizes default = .ok g) :
    g.nodes = nodes.map fun n => ⟨n.id, resolveSize sizes default n⟩ := by
  obtain ⟨names, hj⟩ := exists_build_iff.1 ⟨g, h⟩
  rw [build_of_nodup names, arcsOf_of_joins hj] at h
  obtain rfl := Except.ok.inj h
  rfl

theorem map_id_of_build {g : SizedGraph α} (h : build nodes edges sizes default = .ok g) :
    g.nodes.map (·.id) = nodes.map (·.id) := by
  rw [nodes_of_build h, List.map_map]
  rfl

/-- The node with a name stands at the number of the name. -/
theorem exists_node_of_build {g : SizedGraph α} (h : build nodes edges sizes default = .ok g)
    {id : String} (hid : id ∈ nodes.map (·.id)) :
    ∃ n, g.nodes[(nodes.map (·.id)).idxOf id]? = some n ∧ n.id = id := by
  have hat := List.getElem?_idxOf hid
  rw [← map_id_of_build h, List.getElem?_map] at hat
  rw [← map_id_of_build h]
  exact Option.map_eq_some_iff.1 hat

/-- The arcs lead between the numbers of the ends of the edges. -/
theorem arcs_of_build {g : SizedGraph α} (h : build nodes edges sizes default = .ok g) :
    g.graph.arcs = edges.map fun e =>
      ⟨(nodes.map (·.id)).idxOf e.source, (nodes.map (·.id)).idxOf e.target⟩ := by
  obtain ⟨names, hj⟩ := exists_build_iff.1 ⟨g, h⟩
  rw [build_of_nodup names, arcsOf_of_joins hj] at h
  obtain rfl := Except.ok.inj h
  refine Digraph.arcs_ofArcs fun a ha => ?_
  obtain ⟨e, he, rfl⟩ := List.mem_map.1 ha
  obtain ⟨hs, ht⟩ := hj e he
  have hs := List.idxOf_lt_length_of_mem hs
  have ht := List.idxOf_lt_length_of_mem ht
  rw [List.length_map] at hs ht
  exact ⟨hs, ht⟩

/-- With a default size that can be laid out, every node has a size that can. -/
theorem isMeasurable_of_build {g : SizedGraph α} (hd : default.isMeasurable = true)
    (h : build nodes edges sizes default = .ok g) : ∀ n ∈ g.nodes, n.size.isMeasurable = true := by
  intro n hn
  rw [nodes_of_build h] at hn
  obtain ⟨m, -, rfl⟩ := List.mem_map.1 hn
  exact isMeasurable_resolveSize hd m

theorem nodup_of_build {g : SizedGraph α} (h : build nodes edges sizes default = .ok g) :
    (g.nodes.map (·.id)).Nodup := by
  rw [map_id_of_build h]
  exact (exists_build_iff.1 ⟨g, h⟩).1

end SizedGraph

end LayeredDrawing
