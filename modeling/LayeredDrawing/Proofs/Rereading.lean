import LayeredDrawing.Proofs.Document
import LayeredDrawing.Proofs.Json.Gathered

/-!
# Documents that can be read again

Whatever a document keeps can be read again from its text, though a floating-point number may come
back as another one: integers, strings and nesting are as they were read, a finite number has a
text that is read, and one that is not finite is written as `null`, which is a value. Only where
a record asks for a number there is none to be found in `null`. So the text of a document is read
if and only if its coordinates and measured sizes are finite (`Document.isSome_parse?_text`).
-/

namespace LayeredDrawing

open Json

namespace Json

/-! ## Numbers and values -/

/-- A number that was read can be read again. -/
theorem Value.isSome_ofTree?_number {n : Number} (h : n.IsRead) (depth : ℕ) :
    (ofTree? depth n.tree).isSome := by
  cases n with
  | natural n => rw [ofTree?_number h trivial]; rfl
  | negative n => rw [ofTree?_number h trivial]; rfl
  | double x =>
    unfold Number.tree
    split
    · rename_i t ht
      rw [ofTree?, Option.isSome_map]
      exact Number.isSome_toNumber?_double ht
    · rfl
  | single x => exact h.elim

namespace Value

theorem isSome_ofItems? {depth : ℕ} {vs : List Value}
    (h : ∀ v ∈ vs, (ofTree? depth v.tree).isSome) : (ofItems? depth (itemTrees vs)).isSome := by
  induction vs with
  | nil => rfl
  | cons v vs ih =>
    obtain ⟨hv, hvs⟩ := List.forall_mem_cons.1 h
    obtain ⟨w, hw⟩ := Option.isSome_iff_exists.1 hv
    obtain ⟨ws, hws⟩ := Option.isSome_iff_exists.1 (ih hvs)
    simp [itemTrees, ofItems?, hw, hws]

theorem isSome_ofMembers? {depth : ℕ} {ms : List (String × Value)}
    (h : ∀ m ∈ ms, (ofTree? depth m.2.tree).isSome) :
    (ofMembers? depth (memberTrees ms)).isSome := by
  induction ms with
  | nil => rfl
  | cons m ms ih =>
    obtain ⟨hm, hms⟩ := List.forall_mem_cons.1 h
    obtain ⟨w, hw⟩ := Option.isSome_iff_exists.1 hm
    obtain ⟨ws, hws⟩ := Option.isSome_iff_exists.1 (ih hms)
    simp [memberTrees, ofMembers?, hw, hws]

/-- **A value that was read can be read again**, within the same depth. -/
theorem Canonical.isSome_ofTree? {depth : ℕ} {v : Value} (h : Canonical depth v) :
    (ofTree? depth v.tree).isSome := by
  induction h with
  | null => rfl
  | bool b => rfl
  | number hread => exact isSome_ofTree?_number hread _
  | string s => simp [tree, ofTree?]
  | array _ ih => simpa [tree, ofTree?] using isSome_ofItems? ih
  | object _ _ ih => simpa [tree, ofTree?] using isSome_ofMembers? ih

end Value

/-! ## Numbers of a record -/

/-- A number has parts if it is finite. -/
theorem Number.isSome_written?_single (x : Float32) :
    (single x).written?.isSome ↔ x.isFinite := by
  have hfinite : x.isFinite = x.toModel.unpack.isFinite := rfl
  rw [written?, hfinite]
  cases x.toModel.unpack <;>
    simp [jsonParts?, Float.Model.UnpackedFloat.isFinite]

/-- A number of a record is read if it is finite. -/
theorem Tree.isSome_single?_tree (x : Float32) :
    (Value.single x).tree.single?.isSome ↔ x.isFinite := by
  rw [← Number.isSome_written?_single, Value.single, Value.tree, Number.tree]
  cases ht : (Number.single x).written? with
  | none => simp [single?]
  | some t => simp [single?, Number.isSome_toNumber?_single ht]

theorem isSome_mapM_iff {γ β : Type} {f : γ → Option β} {xs : List γ} :
    (xs.mapM f).isSome ↔ ∀ x ∈ xs, (f x).isSome := by
  induction xs with
  | nil => simp
  | cons x xs ih =>
    rw [List.mapM_cons, List.forall_mem_cons, ← ih]
    cases f x <;> cases xs.mapM f <;> simp

end Json

/-! ## Records -/

theorem isSome_bind₂ {α β γ : Type} {a : Option α} {b : Option β} (f : α → β → γ) :
    (a.bind fun x => b.bind fun y => some (f x y)).isSome ↔ a.isSome ∧ b.isSome := by
  cases a <;> cases b <;> simp

theorem Point.isSome_ofTree?_tree (p : Point Float32) :
    (ofTree? p.toValue.tree).isSome ↔ p.x.isFinite ∧ p.y.isFinite := by
  rw [← Tree.isSome_single?_tree, ← Tree.isSome_single?_tree, ofTree?, fields?_tree]
  exact isSome_bind₂ _

theorem Size.isSome_ofTree?_tree (s : Size Float32) :
    (ofTree? s.toValue.tree).isSome ↔ s.width.isFinite ∧ s.height.isFinite := by
  rw [← Tree.isSome_single?_tree, ← Tree.isSome_single?_tree, ofTree?, fields?_tree]
  exact isSome_bind₂ _

theorem OtherMembers.Kept.isSome_ofTrees? {names : List String} {depth : ℕ}
    {others : OtherMembers} (h : others.Kept names depth) :
    (OtherMembers.ofTrees? depth (treeMembers others)).isSome := by
  have hmembers : ((treeMembers others).mapM fun m =>
      (Value.ofTree? depth m.2).map (m.1, ·)).isSome := by
    refine isSome_mapM_iff.2 fun m hm => ?_
    obtain ⟨n, hn, rfl⟩ := List.mem_map.1 hm
    rw [Option.isSome_map]
    exact (h.canonical n hn).isSome_ofTree?
  obtain ⟨values, hvalues⟩ := Option.isSome_iff_exists.1 hmembers
  exact Option.isSome_iff_exists.2 ⟨_, OtherMembers.ofTrees?_eq_some_iff.2 ⟨values, hvalues, rfl⟩⟩

/-! ## Nodes and edges -/

namespace EditorNode

theorem isSome_measured (measured : Option (Size Float32)) :
    (orDefault? none (Tree.nullable? Size.ofTree?) (measured.map (·.toValue.tree))).isSome ↔
      ∀ s ∈ measured, s.width.isFinite ∧ s.height.isFinite := by
  cases measured with
  | none => simp [orDefault?]
  | some s =>
    have hread : orDefault? none (Tree.nullable? Size.ofTree?) (some s.toValue.tree) =
        (Size.ofTree? s.toValue.tree).map some := rfl
    simp [hread, Size.isSome_ofTree?_tree]

theorem isSome_data {n : EditorNode} (h : n.Kept) :
    (orDefault? .null (Value.ofTree? Document.depthInsidePart)
      (if n.data.data.isNull then none else some n.data.data.tree)).isSome := by
  split
  · rfl
  · exact h.data.isSome_ofTree?

/-- A node is read from its tree if its place and its size are finite. -/
theorem isSome_ofTree?_tree {n : EditorNode} (h : n.Kept) :
    (ofTree? (toValue n).tree).isSome ↔ n.position.x.isFinite ∧ n.position.y.isFinite ∧
      ∀ s ∈ n.measured, s.width.isFinite ∧ s.height.isFinite := by
  have hmeasured := isSome_measured n.measured
  have hposition := Point.isSome_ofTree?_tree n.position
  constructor
  · intro hsome
    obtain ⟨m, hm⟩ := Option.isSome_iff_exists.1 hsome
    obtain ⟨_, _, _, _, _, hfields, -, -, -, hpos, hmeas⟩ := ofTree?_eq_some_iff.1 hm
    rw [openFields?_tree h] at hfields
    simp only [Option.some.injEq, Prod.mk.injEq, List.cons.injEq] at hfields
    obtain ⟨⟨-, -, rfl, rfl, -⟩, -⟩ := hfields
    obtain ⟨hx, hy⟩ := hposition.1 (Option.isSome_of_eq_some hpos)
    exact ⟨hx, hy, hmeasured.1 (Option.isSome_of_eq_some hmeas)⟩
  · rintro ⟨hx, hy, hs⟩
    obtain ⟨position, hpos⟩ := Option.isSome_iff_exists.1 (hposition.2 ⟨hx, hy⟩)
    obtain ⟨measured, hmeas⟩ := Option.isSome_iff_exists.1 (hmeasured.2 hs)
    obtain ⟨data, hdata⟩ := Option.isSome_iff_exists.1 (isSome_data h)
    obtain ⟨others, hothers⟩ := Option.isSome_iff_exists.1 h.others.isSome_ofTrees?
    refine Option.isSome_iff_exists.2 ⟨⟨n.id, ⟨data, others⟩, position, measured⟩,
      ofTree?_eq_some_iff.2 ⟨_, _, _, _, _, openFields?_tree h, ?_, hdata, hothers, hpos, hmeas⟩⟩
    exact StringText.decode_encode n.id

end EditorNode

theorem EditorEdge.isSome_ofTree?_tree {e : EditorEdge} (h : e.Kept) :
    (ofTree? (toValue e).tree).isSome := by
  obtain ⟨others, hothers⟩ := Option.isSome_iff_exists.1 (OtherMembers.Kept.isSome_ofTrees? h)
  refine Option.isSome_iff_exists.2 ⟨⟨e.toEdge, others⟩,
    ofTree?_eq_some_iff.2 ⟨_, _, _, _, openFields?_tree h, ?_, ?_, ?_, hothers⟩⟩
  · exact StringText.decode_encode e.id
  · exact StringText.decode_encode e.source
  · exact StringText.decode_encode e.target

/-! ## Documents -/

namespace Document

theorem isSome_list? {β : Type} (read : Tree → Option β) (write : β → Value) (xs : List β) :
    (orDefault? [] (Tree.list? read) (some (Value.array (xs.map write)).tree)).isSome ↔
      ∀ x ∈ xs, (read (write x).tree).isSome := by
  rw [← isSome_mapM_iff, ← list?_array]
  rfl

/-- A document is read from its tree if it is finite. -/
theorem isSome_ofTree?_tree {d : Document} (h : d.Kept) :
    (ofTree? d.toValue.tree).isSome ↔ d.IsFinite := by
  have hnodes : (orDefault? [] (Tree.list? EditorNode.ofTree?)
      (some (Value.array (d.nodes.map EditorNode.toValue)).tree)).isSome ↔ d.IsFinite :=
    (isSome_list? _ _ _).trans
      (forall₂_congr fun n hn => EditorNode.isSome_ofTree?_tree (h.nodes n hn))
  constructor
  · intro hsome
    obtain ⟨m, hm⟩ := Option.isSome_iff_exists.1 hsome
    obtain ⟨_, _, _, hfields, hread, -⟩ := ofTree?_eq_some_iff.1 hm
    rw [openFields?_tree h] at hfields
    simp only [Option.some.injEq, Prod.mk.injEq, List.cons.injEq] at hfields
    obtain ⟨⟨rfl, -⟩, -⟩ := hfields
    exact hnodes.1 (Option.isSome_of_eq_some hread)
  · intro hfinite
    obtain ⟨nodes, hread⟩ := Option.isSome_iff_exists.1 (hnodes.2 hfinite)
    obtain ⟨edges, hedges⟩ := Option.isSome_iff_exists.1 ((isSome_list? EditorEdge.ofTree?
      EditorEdge.toValue d.edges).2 fun e he => EditorEdge.isSome_ofTree?_tree (h.edges e he))
    obtain ⟨others, hothers⟩ := Option.isSome_iff_exists.1 h.others.isSome_ofTrees?
    exact Option.isSome_iff_exists.2 ⟨⟨nodes, edges, others⟩,
      ofTree?_eq_some_iff.2 ⟨_, _, _, openFields?_tree h, hread, hedges, hothers⟩⟩

/-- **The text of a document is read if and only if the document is finite.** -/
theorem isSome_parse?_text {d : Document} (h : d.Kept) : (parse? d.text).isSome ↔ d.IsFinite := by
  rw [← isSome_ofTree?_tree h, parse?, text, Value.parse?_pretty _ _ _ (by simp [Token.isBlank]),
    Option.bind_some]

end Document

end LayeredDrawing
