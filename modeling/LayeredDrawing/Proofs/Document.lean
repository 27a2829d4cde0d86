import LayeredDrawing.Document
import LayeredDrawing.Proofs.Json.Values

/-!
# Documents that are read back

A document that was read from a text is `Document.Kept`: the members that are kept beside the
fields of a record have increasing keys, none of which is the name of a field, and their values
are canonical. That is all it takes for a document to be read back from the text that it is
written to (`Document.parse?_text`), if its floating-point numbers are. Nothing is asked of the
places and the sizes of the nodes, so nodes may have been moved in between
(`Document.Kept.withNodes`).
-/

namespace LayeredDrawing

open Json

/-! ## Records -/

namespace Json

/-- The members of an object with their trees. -/
def treeMembers (members : List (String × Value)) : List (String × Tree) :=
  members.map fun m => (m.1, m.2.tree)

/-- All members of a list can be read. -/
theorem mapM_eq_some_iff {γ β : Type} {f : γ → Option β} {xs : List γ} {ys : List β} :
    xs.mapM f = some ys ↔ xs.map f = ys.map some := by
  induction xs generalizing ys with
  | nil => cases ys <;> simp
  | cons x xs ih =>
    rw [List.mapM_cons]
    cases ys with
    | nil => simp [Option.bind_eq_some_iff]
    | cons y ys => simp [Option.bind_eq_some_iff, ih]

theorem exists_of_mem_mapM {γ β : Type} {f : γ → Option β} {xs : List γ} {ys : List β}
    (h : xs.mapM f = some ys) {y : β} (hy : y ∈ ys) : ∃ x ∈ xs, f x = some y := by
  have hmem : some y ∈ xs.map f := by
    rw [mapM_eq_some_iff.1 h]
    exact List.mem_map_of_mem hy
  exact List.mem_map.1 hmem

namespace Tree

theorem keyed?_memberTrees (members : List (String × Value)) :
    keyed? (Value.memberTrees members) = some (treeMembers members) := by
  induction members with
  | nil => rfl
  | cons m ms ih =>
    simp [Value.memberTrees, keyed?, ih, treeMembers]

theorem named_eq (name : String) (members : List (String × Tree)) :
    named name members = membersNamed name members := rfl

/-- Members with other names do not matter for the fields of a record. -/
theorem pick?_append {names : List String} {known others : List (String × Tree)}
    (h : ∀ m ∈ others, m.1 ∉ names) : pick? names (known ++ others) = pick? names known := by
  unfold pick?
  have hnamed : ∀ name ∈ names, named name (known ++ others) = named name known := by
    intro name hname
    rw [named_eq, membersNamed_append, membersNamed_eq_nil fun m hm heq => h m hm (heq ▸ hname),
      List.append_nil, named_eq]
  induction names with
  | nil => rfl
  | cons name names ih =>
    obtain ⟨hhead, htail⟩ := List.forall_mem_cons.1 hnamed
    rw [List.mapM_cons, List.mapM_cons, hhead,
      ih (fun m hm hmem => h m hm (List.mem_cons_of_mem _ hmem)) htail]

/-- The fields of a written record and its other members. -/
theorem openFields?_tree {names : List String} {known others : List (String × Value)}
    (hknown : ∀ m ∈ known, m.1 ∈ names) (hothers : ∀ m ∈ others, m.1 ∉ names) :
    openFields? names (Value.object (known ++ others)).tree =
      (pick? names (treeMembers known)).map fun parts => (parts, treeMembers others) := by
  have hfilter : (treeMembers (known ++ others)).filter (!names.contains ·.1) =
      treeMembers others := by
    simp only [treeMembers, List.map_append, List.filter_append]
    rw [List.filter_eq_nil_iff.2, List.filter_eq_self.2, List.nil_append]
    · intro m hm
      obtain ⟨n, hn, rfl⟩ := List.mem_map.1 hm
      simpa using hothers n hn
    · intro m hm
      obtain ⟨n, hn, rfl⟩ := List.mem_map.1 hm
      simpa using hknown n hn
  have hpick : pick? names (treeMembers (known ++ others)) = pick? names (treeMembers known) := by
    rw [treeMembers, List.map_append]
    apply pick?_append
    intro m hm
    obtain ⟨n, hn, rfl⟩ := List.mem_map.1 hm
    exact hothers n hn
  rw [Value.tree, openFields?, keyed?_memberTrees]
  simp only [hpick, hfilter]

end Tree

end Json

/-- A single-precision number among the members of an object is read back. -/
theorem Json.Value.ReadsBack.single?_tree {members : List (String × Value)}
    (h : (Value.object members).ReadsBack) (name : String) {x : Float32}
    (hm : (name, Value.single x) ∈ members) : (Value.single x).tree.single? = some x := by
  have hx : (Value.single x).ReadsBack := h.of_mem_members hm
  exact Number.single?_tree (hx (.single x) (by simp [Value.single, Value.numbers]))

/-! ## Points and sizes -/

theorem Point.fields?_tree (p : Point Float32) :
    p.toValue.tree.fields? ["x", "y"] =
      some [some (Value.single p.x).tree, some (Value.single p.y).tree] := by
  rw [toValue, Value.tree, Tree.fields?, Tree.keyed?_memberTrees]
  rfl

theorem Point.ofTree?_tree {p : Point Float32} (h : p.toValue.ReadsBack) :
    Point.ofTree? p.toValue.tree = some p := by
  have hx := h.single?_tree "x" (x := p.x) (by simp)
  have hy := h.single?_tree "y" (x := p.y) (by simp)
  simp [ofTree?, fields?_tree, hx, hy]

theorem Size.fields?_tree (s : Size Float32) :
    s.toValue.tree.fields? ["width", "height"] =
      some [some (Value.single s.width).tree, some (Value.single s.height).tree] := by
  rw [toValue, Value.tree, Tree.fields?, Tree.keyed?_memberTrees]
  rfl

theorem Size.ofTree?_tree {s : Size Float32} (h : s.toValue.ReadsBack) :
    Size.ofTree? s.toValue.tree = some s := by
  have hwidth := h.single?_tree "width" (x := s.width) (by simp)
  have hheight := h.single?_tree "height" (x := s.height) (by simp)
  simp [ofTree?, fields?_tree, hwidth, hheight]

/-! ## Members that are kept -/

namespace OtherMembers

/-- The other members of a record as a reading leaves them. -/
structure Kept (names : List String) (depth : Nat) (others : OtherMembers) : Prop where
  increase : KeysIncrease others
  apart : ∀ m ∈ others, m.1 ∉ names
  canonical : ∀ m ∈ others, m.2.Canonical depth

theorem ofTrees?_eq_some_iff {depth : Nat} {trees : List (String × Tree)}
    {others : OtherMembers} :
    ofTrees? depth trees = some others ↔
      ∃ values, trees.mapM (fun m => (Value.ofTree? depth m.2).map (m.1, ·)) = some values ∧
        sortMembers values = others := by
  simp [ofTrees?, Option.bind_eq_some_iff]

theorem kept_of_ofTrees? {names : List String} {depth : Nat} {trees : List (String × Tree)}
    {others : OtherMembers} (htrees : ∀ m ∈ trees, m.1 ∉ names)
    (h : ofTrees? depth trees = some others) : Kept names depth others := by
  obtain ⟨values, hvalues, rfl⟩ := ofTrees?_eq_some_iff.1 h
  have hmem : ∀ m ∈ sortMembers values,
      ∃ t, (m.1, t) ∈ trees ∧ Value.ofTree? depth t = some m.2 := by
    intro m hm
    obtain ⟨n, hn, hread⟩ := exists_of_mem_mapM hvalues (mem_of_mem_sortMembers hm)
    obtain ⟨v, hv, rfl⟩ := Option.map_eq_some_iff.1 hread
    exact ⟨n.2, hn, hv⟩
  refine ⟨keysIncrease_sortMembers values, fun m hm => ?_, fun m hm => ?_⟩
  · obtain ⟨t, ht, -⟩ := hmem m hm
    exact htrees _ ht
  · obtain ⟨t, -, hread⟩ := hmem m hm
    exact Value.canonical_ofTree? hread

theorem ofTrees?_treeMembers {names : List String} {depth : Nat} {others : OtherMembers}
    (h : Kept names depth others) (hback : ∀ m ∈ others, m.2.ReadsBack) :
    ofTrees? depth (treeMembers others) = some others := by
  rw [ofTrees?_eq_some_iff]
  refine ⟨others, mapM_eq_some_iff.2 ?_, sortMembers_eq_self h.increase⟩
  rw [treeMembers, List.map_map]
  refine List.map_congr_left fun m hm => ?_
  simp [Value.ofTree?_tree (h.canonical m hm) (hback m hm)]

end OtherMembers

/-- The other members of a record are those with other names. -/
theorem Json.Tree.not_mem_of_openFields? {names : List String} {t : Tree}
    {parts : List (Option Tree)} {others : List (String × Tree)}
    (h : t.openFields? names = some (parts, others)) : ∀ m ∈ others, m.1 ∉ names := by
  unfold openFields? at h
  split at h
  · split at h
    · simp at h
    · simp only [Option.map_eq_some_iff, Prod.mk.injEq] at h
      obtain ⟨_, -, -, rfl⟩ := h
      intro m hm
      simpa using (List.mem_filter.1 hm).2
  · simp at h

/-! ## Nodes -/

namespace EditorNode

/-- The names of the fields of a node. -/
def fieldNames : List String := ["id", "data", "position", "measured"]

theorem ofTree?_eq_some_iff {t : Tree} {n : EditorNode} :
    ofTree? t = some n ↔ ∃ id data position measured others,
      t.openFields? fieldNames = some ([some id, data, position, measured], others) ∧
      id.string? = some n.id ∧
      orDefault? .null (Value.ofTree? Document.depthInsidePart) data = some n.data.data ∧
      OtherMembers.ofTrees? Document.depthInsidePart others = some n.data.others ∧
      orDefault? Point.origin Point.ofTree? position = some n.position ∧
      orDefault? none (Tree.nullable? Size.ofTree?) measured = some n.measured := by
  unfold ofTree? fieldNames
  constructor
  · intro h
    split at h
    · next id data position measured others hfields =>
      simp only [Option.bind_eq_bind, Option.bind_eq_some_iff, Option.pure_def,
        Option.some.injEq] at h
      obtain ⟨_, hid, _, hdata, _, hothers, _, hposition, _, hmeasured, rfl⟩ := h
      exact ⟨id, data, position, measured, others, hfields, hid, hdata, hothers, hposition,
        hmeasured⟩
    · simp at h
  · rintro ⟨id, data, position, measured, others, hfields, hid, hdata, hothers, hposition,
      hmeasured⟩
    simp [hfields, hid, hdata, hothers, hposition, hmeasured]

/-- What a node keeps was read from a text. -/
structure Kept (n : EditorNode) : Prop where
  data : n.data.data.Canonical Document.depthInsidePart
  others : n.data.others.Kept fieldNames Document.depthInsidePart

theorem kept_of_ofTree? {t : Tree} {n : EditorNode} (h : ofTree? t = some n) : n.Kept := by
  obtain ⟨_, data, _, _, others, hfields, -, hdata, hothers, -, -⟩ := ofTree?_eq_some_iff.1 h
  refine ⟨?_, OtherMembers.kept_of_ofTrees? (Tree.not_mem_of_openFields? hfields) hothers⟩
  cases data with
  | none => rw [← Option.some.inj hdata]; exact .null
  | some data => exact Value.canonical_ofTree? hdata

/-- The members of a written node that are fields of it. -/
def known (n : EditorNode) : List (String × Value) :=
  [("id", .string n.id)] ++ (if n.data.data.isNull then [] else [("data", n.data.data)]) ++
    [("position", n.position.toValue)] ++
    (n.measured.map fun s => ("measured", s.toValue)).toList

theorem toValue_eq (n : EditorNode) : toValue n = .object (known n ++ n.data.others) := rfl

theorem mem_fieldNames_of_mem_known {n : EditorNode} {m : String × Value} (h : m ∈ known n) :
    m.1 ∈ fieldNames := by
  revert m
  cases hnull : n.data.data.isNull <;> cases hsize : n.measured <;>
    simp [known, fieldNames, hnull, hsize]

/-- The fields of a written node. -/
theorem openFields?_tree {n : EditorNode} (h : n.Kept) :
    (toValue n).tree.openFields? fieldNames =
      some ([some (.string (StringText.encode n.id)),
        if n.data.data.isNull then none else some n.data.data.tree,
        some n.position.toValue.tree, n.measured.map (·.toValue.tree)],
        treeMembers n.data.others) := by
  rw [toValue_eq, Tree.openFields?_tree (fun _ => mem_fieldNames_of_mem_known) h.others.apart]
  unfold known
  cases n.data.data.isNull <;> cases n.measured <;> rfl

/-- A node is read back from its tree. -/
theorem ofTree?_tree {n : EditorNode} (h : n.Kept) (hback : (toValue n).ReadsBack) :
    ofTree? (toValue n).tree = some n := by
  rw [toValue_eq] at hback
  have hothers := OtherMembers.ofTrees?_treeMembers h.others fun m hm =>
    hback.of_mem_members (List.mem_append_right _ hm)
  have hposition := Point.ofTree?_tree (p := n.position)
    (hback.of_mem_members (m := ("position", n.position.toValue)) (by simp [known]))
  have hdata : orDefault? .null (Value.ofTree? Document.depthInsidePart)
      (if n.data.data.isNull then none else some n.data.data.tree) = some n.data.data := by
    split
    · next hnull =>
      cases hvalue : n.data.data <;> simp [hvalue, Value.isNull] at hnull
      rfl
    · next hnull =>
      exact Value.ofTree?_tree h.data
        (hback.of_mem_members (m := ("data", n.data.data)) (by simp [known, hnull]))
  have hmeasured : orDefault? none (Tree.nullable? Size.ofTree?)
      (n.measured.map (·.toValue.tree)) = some n.measured := by
    cases hsize : n.measured with
    | none => rfl
    | some s =>
      have hs := Size.ofTree?_tree (s := s)
        (hback.of_mem_members (m := ("measured", s.toValue)) (by simp [known, hsize]))
      simpa [orDefault?, Tree.nullable?, Size.toValue, Value.tree] using hs
  refine ofTree?_eq_some_iff.2 ⟨_, _, _, _, _, openFields?_tree h, ?_, hdata, hothers,
    hposition, hmeasured⟩
  exact StringText.decode_encode n.id

end EditorNode

/-! ## Edges -/

namespace EditorEdge

/-- The names of the fields of an edge. -/
def fieldNames : List String := ["id", "source", "target"]

theorem ofTree?_eq_some_iff {t : Tree} {e : EditorEdge} :
    ofTree? t = some e ↔ ∃ id source target others,
      t.openFields? fieldNames = some ([some id, some source, some target], others) ∧
      id.string? = some e.id ∧ source.string? = some e.source ∧ target.string? = some e.target ∧
      OtherMembers.ofTrees? Document.depthInsidePart others = some e.others := by
  unfold ofTree? fieldNames
  constructor
  · intro h
    split at h
    · next id source target others hfields =>
      simp only [Option.bind_eq_bind, Option.bind_eq_some_iff, Option.pure_def,
        Option.some.injEq] at h
      obtain ⟨_, hid, _, hsource, _, htarget, _, hothers, rfl⟩ := h
      exact ⟨id, source, target, others, hfields, hid, hsource, htarget, hothers⟩
    · simp at h
  · rintro ⟨id, source, target, others, hfields, hid, hsource, htarget, hothers⟩
    simp [hfields, hid, hsource, htarget, hothers]

/-- What an edge keeps was read from a text. -/
def Kept (e : EditorEdge) : Prop := e.others.Kept fieldNames Document.depthInsidePart

theorem kept_of_ofTree? {t : Tree} {e : EditorEdge} (h : ofTree? t = some e) : e.Kept := by
  obtain ⟨_, _, _, others, hfields, -, -, -, hothers⟩ := ofTree?_eq_some_iff.1 h
  exact OtherMembers.kept_of_ofTrees? (Tree.not_mem_of_openFields? hfields) hothers

/-- The members of a written edge that are fields of it. -/
def known (e : EditorEdge) : List (String × Value) :=
  [("id", .string e.id), ("source", .string e.source), ("target", .string e.target)]

theorem toValue_eq (e : EditorEdge) : toValue e = .object (known e ++ e.others) := rfl

/-- The fields of a written edge. -/
theorem openFields?_tree {e : EditorEdge} (h : e.Kept) :
    (toValue e).tree.openFields? fieldNames =
      some ([some (.string (StringText.encode e.id)), some (.string (StringText.encode e.source)),
        some (.string (StringText.encode e.target))], treeMembers e.others) := by
  rw [toValue_eq, Tree.openFields?_tree (by simp [known, fieldNames]) h.apart]
  rfl

/-- An edge is read back from its tree. -/
theorem ofTree?_tree {e : EditorEdge} (h : e.Kept) (hback : (toValue e).ReadsBack) :
    ofTree? (toValue e).tree = some e := by
  rw [toValue_eq] at hback
  have hothers := OtherMembers.ofTrees?_treeMembers h fun m hm =>
    hback.of_mem_members (List.mem_append_right _ hm)
  refine ofTree?_eq_some_iff.2 ⟨_, _, _, _, openFields?_tree h, ?_, ?_, ?_, hothers⟩
  · exact StringText.decode_encode e.id
  · exact StringText.decode_encode e.source
  · exact StringText.decode_encode e.target

end EditorEdge

/-! ## Documents -/

namespace Document

/-- The names of the fields of a document. -/
def fieldNames : List String := ["nodes", "edges"]

theorem ofTree?_eq_some_iff {t : Tree} {d : Document} :
    ofTree? t = some d ↔ ∃ nodes edges others,
      t.openFields? fieldNames = some ([nodes, edges], others) ∧
      orDefault? [] (Tree.list? EditorNode.ofTree?) nodes = some d.nodes ∧
      orDefault? [] (Tree.list? EditorEdge.ofTree?) edges = some d.edges ∧
      OtherMembers.ofTrees? depthInside others = some d.others := by
  unfold ofTree? fieldNames
  constructor
  · intro h
    split at h
    · next nodes edges others hfields =>
      simp only [Option.bind_eq_bind, Option.bind_eq_some_iff, Option.pure_def,
        Option.some.injEq] at h
      obtain ⟨_, hnodes, _, hedges, _, hothers, rfl⟩ := h
      exact ⟨nodes, edges, others, hfields, hnodes, hedges, hothers⟩
    · simp at h
  · rintro ⟨nodes, edges, others, hfields, hnodes, hedges, hothers⟩
    simp [hfields, hnodes, hedges, hothers]

/-- What a document keeps was read from a text. -/
structure Kept (d : Document) : Prop where
  nodes : ∀ n ∈ d.nodes, EditorNode.Kept n
  edges : ∀ e ∈ d.edges, e.Kept
  others : d.others.Kept fieldNames depthInside

theorem exists_tree_of_mem_list? {β : Type} {read : Tree → Option β} {part : Option Tree}
    {xs : List β} (h : orDefault? [] (Tree.list? read) part = some xs) {x : β} (hx : x ∈ xs) :
    ∃ t, read t = some x := by
  cases part with
  | none =>
    rw [← Option.some.inj h] at hx
    simp at hx
  | some part =>
    cases part with
    | array items =>
      obtain ⟨t, -, ht⟩ := exists_of_mem_mapM h hx
      exact ⟨t, ht⟩
    | _ => simp [orDefault?, Tree.list?] at h

theorem kept_of_ofTree? {t : Tree} {d : Document} (h : ofTree? t = some d) : d.Kept := by
  obtain ⟨nodes, edges, others, hfields, hnodes, hedges, hothers⟩ := ofTree?_eq_some_iff.1 h
  refine ⟨fun n hn => ?_, fun e he => ?_,
    OtherMembers.kept_of_ofTrees? (Tree.not_mem_of_openFields? hfields) hothers⟩
  · obtain ⟨t, ht⟩ := exists_tree_of_mem_list? hnodes hn
    exact EditorNode.kept_of_ofTree? ht
  · obtain ⟨t, ht⟩ := exists_tree_of_mem_list? hedges he
    exact EditorEdge.kept_of_ofTree? ht

theorem kept_of_parse? {text : String} {d : Document} (h : parse? text = some d) : d.Kept := by
  obtain ⟨t, -, ht⟩ := Option.bind_eq_some_iff.1 h
  exact kept_of_ofTree? ht

/-- Nothing is asked of the places of nodes. -/
theorem Kept.withNodes {d : Document} (h : d.Kept) {nodes : List EditorNode}
    (hnodes : ∀ n ∈ nodes, ∃ m ∈ d.nodes, n.data = m.data) : (d.withNodes nodes).Kept where
  nodes n hn := by
    obtain ⟨m, hm, hdata⟩ := hnodes n hn
    have hkept := h.nodes m hm
    exact ⟨hdata ▸ hkept.data, hdata ▸ hkept.others⟩
  edges := h.edges
  others := h.others

/-- The members of a written document that are fields of it. -/
def known (d : Document) : List (String × Value) :=
  [("nodes", .array (d.nodes.map EditorNode.toValue)),
    ("edges", .array (d.edges.map EditorEdge.toValue))]

theorem toValue_eq (d : Document) : d.toValue = .object (d.known ++ d.others) := rfl

/-- A written list is read item by item. -/
theorem list?_array {β : Type} (read : Tree → Option β) (write : β → Value) (xs : List β) :
    Tree.list? read (Value.array (xs.map write)).tree = xs.mapM fun x => read (write x).tree := by
  rw [Value.tree, Value.itemTrees_eq, Tree.list?, List.map_map, List.mapM_map]
  rfl

theorem list?_itemTrees {β : Type} {read : Tree → Option β} {write : β → Value} {xs : List β}
    (h : ∀ x ∈ xs, read (write x).tree = some x) :
    Tree.list? read (Value.array (xs.map write)).tree = some xs := by
  rw [list?_array, mapM_eq_some_iff]
  exact List.map_congr_left h

/-- The fields of a written document. -/
theorem openFields?_tree {d : Document} (h : d.Kept) :
    d.toValue.tree.openFields? fieldNames =
      some ([some (Value.array (d.nodes.map EditorNode.toValue)).tree,
        some (Value.array (d.edges.map EditorEdge.toValue)).tree], treeMembers d.others) := by
  rw [toValue_eq, Tree.openFields?_tree (by simp [known, fieldNames]) h.others.apart]
  rfl

/-- **A document is read back from its tree.** -/
theorem ofTree?_tree {d : Document} (h : d.Kept) (hback : d.toValue.ReadsBack) :
    ofTree? d.toValue.tree = some d := by
  rw [toValue_eq] at hback
  have hothers := OtherMembers.ofTrees?_treeMembers h.others fun m hm =>
    hback.of_mem_members (List.mem_append_right _ hm)
  have hnodes : (Value.array (d.nodes.map EditorNode.toValue)).ReadsBack :=
    hback.of_mem_members (m := ("nodes", .array (d.nodes.map EditorNode.toValue)))
      (by simp [known])
  have hedges : (Value.array (d.edges.map EditorEdge.toValue)).ReadsBack :=
    hback.of_mem_members (m := ("edges", .array (d.edges.map EditorEdge.toValue)))
      (by simp [known])
  refine ofTree?_eq_some_iff.2 ⟨_, _, _, openFields?_tree h, ?_, ?_, hothers⟩
  · exact list?_itemTrees fun n hn => EditorNode.ofTree?_tree (h.nodes n hn)
      (hnodes.of_mem_items (List.mem_map_of_mem hn))
  · exact list?_itemTrees fun e he => EditorEdge.ofTree?_tree (h.edges e he)
      (hedges.of_mem_items (List.mem_map_of_mem he))

/-- **A document is read back from its text.** -/
theorem parse?_text {d : Document} (h : d.Kept) (hback : d.toValue.ReadsBack) :
    parse? d.text = some d := by
  rw [parse?, text, Value.parse?_pretty _ _ _ (by simp [Token.isBlank]), Option.bind_some,
    ofTree?_tree h hback]

/-! ## Finite documents -/

/-- All coordinates and measured sizes of a document are finite. -/
def IsFinite (d : Document) : Prop :=
  ∀ n ∈ d.nodes, n.position.x.isFinite ∧ n.position.y.isFinite ∧
    ∀ s ∈ n.measured, s.width.isFinite ∧ s.height.isFinite

instance (d : Document) : Decidable d.IsFinite := by
  unfold IsFinite
  infer_instance

end Document

/-- What a record keeps has no single-precision numbers. -/
theorem OtherMembers.Kept.not_mem_numbers {names : List String} {depth : Nat}
    {others : OtherMembers} (h : others.Kept names depth) {m : String × Value} (hm : m ∈ others)
    (x : Float32) : .single x ∉ m.2.numbers :=
  fun hx => (h.canonical m hm).isRead hx

theorem Point.eq_or_eq_of_mem_numbers {p : Point Float32} {x : Float32}
    (h : .single x ∈ p.toValue.numbers) : x = p.x ∨ x = p.y := by
  simpa [toValue, Value.single, Value.numbers, Value.memberNumbers] using h

theorem Size.eq_or_eq_of_mem_numbers {s : Size Float32} {x : Float32}
    (h : .single x ∈ s.toValue.numbers) : x = s.width ∨ x = s.height := by
  simpa [toValue, Value.single, Value.numbers, Value.memberNumbers] using h

/-- The single-precision numbers of a node are its coordinates and its measured size. -/
theorem EditorNode.eq_or_of_mem_numbers {n : EditorNode} (h : n.Kept) {x : Float32}
    (hx : .single x ∈ (toValue n).numbers) :
    x = n.position.x ∨ x = n.position.y ∨ ∃ s ∈ n.measured, x = s.width ∨ x = s.height := by
  rw [toValue_eq, Value.mem_numbers_object] at hx
  obtain ⟨m, hm, hx⟩ := hx
  obtain hm | hm := List.mem_append.1 hm
  · simp only [known, List.mem_append, Option.mem_toList, Option.map_eq_some_iff] at hm
    obtain ((hm | hm) | hm) | ⟨s, hs, rfl⟩ := hm
    · obtain rfl := List.mem_singleton.1 hm
      simp [Value.numbers] at hx
    · split at hm
      · simp at hm
      · obtain rfl := List.mem_singleton.1 hm
        exact absurd (h.data.isRead hx) id
    · obtain rfl := List.mem_singleton.1 hm
      exact (Point.eq_or_eq_of_mem_numbers hx).imp_right .inl
    · exact .inr (.inr ⟨s, hs, Size.eq_or_eq_of_mem_numbers hx⟩)
  · exact absurd hx (h.others.not_mem_numbers hm x)

theorem EditorEdge.not_mem_numbers {e : EditorEdge} (h : e.Kept) (x : Float32) :
    .single x ∉ (toValue e).numbers := by
  rw [toValue_eq, Value.mem_numbers_object]
  rintro ⟨m, hm, hx⟩
  obtain hm | hm := List.mem_append.1 hm
  · simp only [known, List.mem_cons, List.not_mem_nil, or_false] at hm
    obtain rfl | rfl | rfl := hm <;> simp [Value.numbers] at hx
  · exact h.not_mem_numbers hm x hx

/-- The single-precision numbers of a finite document are finite. -/
theorem Document.IsFinite.of_mem_numbers {d : Document} (hfinite : d.IsFinite) (h : d.Kept)
    {x : Float32} (hx : .single x ∈ d.toValue.numbers) : x.isFinite := by
  rw [toValue_eq, Value.mem_numbers_object] at hx
  obtain ⟨m, hm, hx⟩ := hx
  obtain hm | hm := List.mem_append.1 hm
  · simp only [known, List.mem_cons, List.not_mem_nil, or_false] at hm
    obtain rfl | rfl := hm
    · obtain ⟨v, hv, hx⟩ := Value.mem_numbers_array.1 hx
      obtain ⟨n, hn, rfl⟩ := List.mem_map.1 hv
      obtain ⟨hposition, hvertical, hmeasured⟩ := hfinite n hn
      obtain rfl | rfl | ⟨s, hs, rfl | rfl⟩ := EditorNode.eq_or_of_mem_numbers (h.nodes n hn) hx
      · exact hposition
      · exact hvertical
      · exact (hmeasured s hs).1
      · exact (hmeasured s hs).2
    · obtain ⟨v, hv, hx⟩ := Value.mem_numbers_array.1 hx
      obtain ⟨e, he, rfl⟩ := List.mem_map.1 hv
      exact absurd hx (EditorEdge.not_mem_numbers (h.edges e he) x)
  · exact absurd hx (h.others.not_mem_numbers hm x)

end LayeredDrawing
