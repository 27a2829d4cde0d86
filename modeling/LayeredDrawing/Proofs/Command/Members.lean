import LayeredDrawing.Proofs.Command.Fidelity
import Mathlib.Data.List.Forall2
import Mathlib.Data.List.Perm.Basic

/-!
# What a run writes, member by member

A run writes every member that it read, with the value that it was read as (`Json.SameMember`): of
the document all but its nodes, of an edge all, and of a node all but its position and its
measured size (`Command.run_agrees`). The measured size is written as it was understood, which
leaves a width and a height in single precision: other members of a measured size are lost
(`Command.run_drops_depth`).

Members are compared as they are read, in the text of the input and in the value that is
written: integers of 64 bits exactly and all other numbers in double precision. Of members of
one name in the text the last one counts, and the value that is written has no name twice.
-/

namespace LayeredDrawing

open Json

/-! ## Members of a text and of a value -/

namespace Json

/-- The members of an object of a text. -/
def Tree.members : Tree → List (String × Tree)
  | .object members => (keyed? members).getD []
  | _ => []

/-- The member of an object of a text with a name, the last one if there are more. -/
def Tree.member? (t : Tree) (name : String) : Option Tree :=
  (membersNamed name t.members).getLast?

/-- The items of an array of a text; there are none if the array is missing. -/
def Tree.itemsOf : Option Tree → List Tree
  | some (.array items) => items
  | _ => []

/-- The members of an object that is written. -/
def Value.members : Value → List (String × Value)
  | .object members => members
  | _ => []

/-- The members of an object that is written with a name. -/
def Value.named (v : Value) (name : String) : List Value := membersNamed name v.members

/-- An object that is written has one member with a name, which is what the member of the text
stands for, or has none if the text has none. -/
def SameMember (depth : Nat) (t : Tree) (v : Value) (name : String) : Prop :=
  (t.member? name).toList.map (Value.ofTree? depth) = (v.named name).map some

/-- An object of a text and an object that is written, which are the same but for the members
with some names. -/
structure AgreeExcept (names : List String) (depth : Nat) (t : Tree) (v : Value) : Prop where
  isObject : ∃ members, t = .object members
  isWritten : ∃ members, v = .object members
  same : ∀ name, name ∉ names → SameMember depth t v name

/-! ### Members that are kept -/

theorem map_ofTree?_membersNamed {depth : Nat} {trees : List (String × Tree)}
    {values : List (String × Value)}
    (h : trees.mapM (fun m => (Value.ofTree? depth m.2).map (m.1, ·)) = some values)
    (name : String) :
    (membersNamed name trees).map (Value.ofTree? depth) = (membersNamed name values).map some := by
  induction trees generalizing values with
  | nil =>
    obtain rfl : [] = values := by simpa using h
    rfl
  | cons m trees ih =>
    simp only [List.mapM_cons, Option.bind_eq_bind, Option.bind_eq_some_iff,
      Option.map_eq_some_iff, Option.pure_def, Option.some.injEq] at h
    obtain ⟨_, ⟨v, hv, rfl⟩, vs, hvs, rfl⟩ := h
    have hrest := ih hvs
    simp only [membersNamed_cons, List.map_append, hrest]
    split <;> simp [hv]

theorem membersNamed_filter {β : Type} {name : String} {keep : String × β → Bool}
    (h : ∀ value, keep (name, value)) (members : List (String × β)) :
    membersNamed name (members.filter keep) = membersNamed name members := by
  induction members with
  | nil => rfl
  | cons m members ih =>
    obtain ⟨key, value⟩ := m
    rw [membersNamed_cons, List.filter_cons]
    split
    · rw [membersNamed_cons, ih]
    · next hdrop =>
      have hkey : key ≠ name := by
        rintro rfl
        exact hdrop (h value)
      rw [if_neg hkey, ih, List.nil_append]

namespace Tree

/-- The parts of a record are the members with the names of its fields. -/
theorem pick?_eq_some_iff {names : List String} {trees : List (String × Tree)}
    {parts : List (Option Tree)} :
    pick? names trees = some parts ↔
      names.map (membersNamed · trees) = parts.map Option.toList := by
  unfold pick?
  rw [mapM_eq_some_iff]
  induction names generalizing parts with
  | nil => cases parts <;> simp
  | cons name names ih =>
    cases parts with
    | nil => simp
    | cons part parts =>
      simp only [List.map_cons, List.cons.injEq, ih]
      refine and_congr_left fun _ => ?_
      rw [named_eq]
      split <;> cases part <;> simp_all

/-- The fields of a record are members of its text, and the rest are the members with other
names. -/
theorem members_of_openFields? {names : List String} {t : Tree} {parts : List (Option Tree)}
    {others : List (String × Tree)} (h : t.openFields? names = some (parts, others)) :
    (∃ members, t = .object members) ∧ names.map t.member? = parts ∧
      others = t.members.filter (!names.contains ·.1) := by
  unfold openFields? at h
  split at h
  · next members =>
    split at h
    · simp at h
    · next trees hkeyed =>
      simp only [Option.map_eq_some_iff, Prod.mk.injEq] at h
      obtain ⟨parts, hparts, rfl, rfl⟩ := h
      have hmembers : (object members).members = trees := by simp [Tree.members, hkeyed]
      refine ⟨⟨members, rfl⟩, ?_, by rw [hmembers]⟩
      have hlast : List.getLast? ∘ Option.toList = (id : Option Tree → Option Tree) := by
        funext part
        cases part <;> rfl
      have hpick := congrArg (List.map List.getLast?) (pick?_eq_some_iff.1 hparts)
      rw [List.map_map, List.map_map, hlast, List.map_id] at hpick
      rw [← hpick]
      exact List.map_congr_left fun name _ => by rw [member?, hmembers]; rfl
  · simp at h

end Tree

/-- What is kept of a record is written as it was read. -/
theorem sameMember_others {names : List String} {depth : Nat} {t : Tree}
    {parts : List (Option Tree)} {trees : List (String × Tree)} {others : OtherMembers}
    {known : List (String × Value)} (hfields : t.openFields? names = some (parts, trees))
    (hothers : OtherMembers.ofTrees? depth trees = some others)
    (hknown : ∀ m ∈ known, m.1 ∈ names) {name : String} (hname : name ∉ names) :
    SameMember depth t (.object (known ++ others)) name := by
  obtain ⟨values, hvalues, rfl⟩ := OtherMembers.ofTrees?_eq_some_iff.1 hothers
  obtain ⟨-, -, rfl⟩ := Tree.members_of_openFields? hfields
  have hread := map_ofTree?_membersNamed hvalues name
  rw [membersNamed_filter (by simpa using hname)] at hread
  have hlast := congrArg (·.getLast?.toList) hread
  simp only [List.getLast?_map, Option.toList_map] at hlast
  have hapart : ∀ m ∈ known, m.1 ≠ name := fun m hm heq => hname (heq ▸ hknown m hm)
  rw [SameMember, Value.named, Value.members, membersNamed_append, membersNamed_eq_nil hapart,
    List.nil_append, membersNamed_sortMembers]
  exact hlast

/-- The fields of a written record are not among what is kept of it. -/
theorem named_known {names : List String} {depth : Nat} {others : OtherMembers}
    (hothers : others.Kept names depth) (known : List (String × Value)) {name : String}
    (hname : name ∈ names) :
    (Value.object (known ++ others)).named name = membersNamed name known := by
  have hapart : ∀ m ∈ others, m.1 ≠ name := fun m hm heq => hothers.apart m hm (heq ▸ hname)
  rw [Value.named, Value.members, membersNamed_append, membersNamed_eq_nil hapart,
    List.append_nil]

/-- A string is read as itself. -/
theorem Value.ofTree?_of_string? {t : Tree} {s : String} (h : t.string? = some s) (depth : Nat) :
    ofTree? depth t = some (.string s) := by
  cases t with
  | string text =>
    have hdecode : text.decode = some s := h
    simp [ofTree?, hdecode]
  | _ => simp [Tree.string?] at h

theorem sameMember_string {depth : Nat} {t : Tree} {v : Value} {name : String} {part : Tree}
    {s : String} (hmember : t.member? name = some part) (hpart : part.string? = some s)
    (hnamed : v.named name = [.string s]) : SameMember depth t v name := by
  rw [SameMember, hmember, hnamed]
  simp [Value.ofTree?_of_string? hpart]

end Json

/-! ## Nodes -/

namespace EditorNode

/-- A node of a text and a node that is written. The position may be another one; the measured
size is what was understood of the one in the text. -/
structure Agrees (t : Tree) (v : Value) : Prop extends
    AgreeExcept ["data", "position", "measured"] Document.depthInsidePart t v where
  /-- Data that are missing or `null` are not written. -/
  data : ∃ x, orDefault? .null (Value.ofTree? Document.depthInsidePart) (t.member? "data") = some x ∧
    v.named "data" = if x.isNull then [] else [x]
  position : ∃ p : Point Float32, v.named "position" = [p.toValue]
  measured : ∃ s, orDefault? none (Tree.nullable? Size.ofTree?) (t.member? "measured") = some s ∧
    v.named "measured" = (s.map Size.toValue).toList

/-- The fields of a written node by name. -/
theorem membersNamed_known (n : EditorNode) :
    membersNamed "id" (known n) = [.string n.id] ∧
      membersNamed "data" (known n) = (if n.data.data.isNull then [] else [n.data.data]) ∧
      membersNamed "position" (known n) = [n.position.toValue] ∧
      membersNamed "measured" (known n) = (n.measured.map Size.toValue).toList := by
  unfold known
  cases n.data.data.isNull <;> cases n.measured <;> exact ⟨rfl, rfl, rfl, rfl⟩

/-- A node that was read is written as it was, wherever it has been moved to. -/
theorem agrees_toValue {t : Tree} {n m : EditorNode} (h : ofTree? t = some n)
    (hcontent : m.content = n.content) : Agrees t (toValue m) := by
  obtain ⟨hsameId, hsameData, hsameMeasured⟩ : m.id = n.id ∧ m.data = n.data ∧
      m.measured = n.measured := by simpa [Node.content] using hcontent
  have hkept := kept_of_ofTree? h
  obtain ⟨id, data, position, measured, trees, hfields, hid, hdata, hothers, -, hmeasured⟩ :=
    ofTree?_eq_some_iff.1 h
  obtain ⟨hobject, hparts, -⟩ := Tree.members_of_openFields? hfields
  simp only [fieldNames, List.map_cons, List.map_nil, List.cons.injEq, and_true] at hparts
  obtain ⟨hidPart, rfl, -, rfl⟩ := hparts
  rw [← hsameId] at hid
  rw [← hsameData] at hdata hothers
  rw [← hsameMeasured] at hmeasured
  have hnamed : ∀ name ∈ fieldNames, (toValue m).named name = membersNamed name (known m) := by
    intro name hname
    rw [toValue_eq]
    exact named_known (hsameData ▸ hkept.others) (known m) hname
  obtain ⟨hknownId, hknownData, hknownPosition, hknownMeasured⟩ := membersNamed_known m
  rw [← hnamed _ (by simp [fieldNames])] at hknownId hknownData hknownPosition hknownMeasured
  refine ⟨⟨hobject, ⟨_, toValue_eq m⟩, fun name hname => ?_⟩, ⟨_, hdata, hknownData⟩,
    ⟨m.position, hknownPosition⟩, ⟨_, hmeasured, hknownMeasured⟩⟩
  by_cases hfield : name = "id"
  · subst hfield
    exact sameMember_string hidPart hid hknownId
  · rw [toValue_eq]
    refine sameMember_others hfields hothers (fun _ => mem_fieldNames_of_mem_known) ?_
    simp_all [fieldNames]

end EditorNode

/-! ## Edges -/

/-- An edge that was read is written as it was. -/
theorem EditorEdge.agree_toValue {t : Tree} {e : EditorEdge} (h : ofTree? t = some e) :
    AgreeExcept [] Document.depthInsidePart t (toValue e) := by
  have hkept := kept_of_ofTree? h
  obtain ⟨id, source, target, trees, hfields, hid, hsource, htarget, hothers⟩ :=
    ofTree?_eq_some_iff.1 h
  obtain ⟨hobject, hparts, -⟩ := Tree.members_of_openFields? hfields
  simp only [fieldNames, List.map_cons, List.map_nil, List.cons.injEq, and_true] at hparts
  obtain ⟨hidPart, hsourcePart, htargetPart⟩ := hparts
  have hnamed : ∀ name ∈ fieldNames, (toValue e).named name = membersNamed name (known e) := by
    intro name hname
    rw [toValue_eq]
    exact named_known hkept (known e) hname
  refine ⟨hobject, ⟨_, toValue_eq e⟩, fun name _ => ?_⟩
  by_cases hfield : name ∈ fieldNames
  · have hwritten := hnamed name hfield
    simp only [fieldNames, List.mem_cons, List.not_mem_nil, or_false] at hfield
    obtain rfl | rfl | rfl := hfield
    · exact sameMember_string hidPart hid hwritten
    · exact sameMember_string hsourcePart hsource hwritten
    · exact sameMember_string htargetPart htarget hwritten
  · rw [toValue_eq]
    exact sameMember_others hfields hothers (by simp [known, fieldNames]) hfield

/-! ## Documents -/

namespace Document

/-- A text and a document that is written. The nodes may have another order. -/
structure Agrees (t : Tree) (v : Value) : Prop extends
    AgreeExcept ["nodes", "edges"] depthInside t v where
  edges : ∃ edges, v.named "edges" = [.array edges] ∧
    List.Forall₂ (AgreeExcept [] depthInsidePart) (Tree.itemsOf (t.member? "edges")) edges
  nodes : ∃ nodes trees, v.named "nodes" = [.array nodes] ∧
    trees.Perm (Tree.itemsOf (t.member? "nodes")) ∧
    List.Forall₂ EditorNode.Agrees trees nodes

/-- The items of an array are read one by one. -/
theorem forall₂_of_list? {β : Type} {read : Tree → Option β} {part : Option Tree} {xs : List β}
    (h : orDefault? [] (Tree.list? read) part = some xs) :
    List.Forall₂ (fun t x => read t = some x) (Tree.itemsOf part) xs := by
  cases part with
  | none =>
    obtain rfl := Option.some.inj h
    exact .nil
  | some part =>
    cases part with
    | array items =>
      have hread : items.map read = xs.map some := mapM_eq_some_iff.1 h
      have hsame : List.Forall₂ (· = ·) (items.map read) (xs.map some) := by
        rw [List.forall₂_eq_eq_eq]
        exact hread
      exact List.forall₂_map_right_iff.1 (List.forall₂_map_left_iff.1 hsame)
    | _ => simp [orDefault?, Tree.list?] at h

theorem exists_left_of_forall₂ {γ β : Type} {R : γ → β → Prop} {xs : List γ} {ys : List β}
    (h : List.Forall₂ R xs ys) {y : β} (hy : y ∈ ys) : ∃ x, R x y := by
  induction h with
  | nil => simp at hy
  | @cons x _ _ _ hx _ ih =>
    obtain rfl | hy := List.mem_cons.1 hy
    · exact ⟨x, hx⟩
    · exact ih hy

/-- Nodes that were read and moved, in any order, are written as they were read. -/
theorem exists_trees_of_perm {trees : List Tree} {nodes moved : List EditorNode}
    (h : List.Forall₂ (fun t n => EditorNode.ofTree? t = some n) trees nodes)
    (hperm : (moved.map Node.content).Perm (nodes.map Node.content)) :
    ∃ trees', trees'.Perm trees ∧
      List.Forall₂ EditorNode.Agrees trees' (moved.map EditorNode.toValue) := by
  -- A content and a tree belong together if the tree is read as a node with this content.
  have hcontents : List.Forall₂ (fun c t => ∃ n, EditorNode.ofTree? t = some n ∧ n.content = c)
      (nodes.map Node.content) trees :=
    List.forall₂_map_left_iff.2 (h.flip.imp fun n _ hn => ⟨n, hn, rfl⟩)
  obtain ⟨trees', hmoved, hsame⟩ := List.perm_comp_forall₂ hperm hcontents
  refine ⟨trees', hsame, List.forall₂_map_right_iff.2 ?_⟩
  refine (List.forall₂_map_left_iff.1 hmoved).flip.imp fun t n ht => ?_
  obtain ⟨m, hm, hcontent⟩ := ht
  exact EditorNode.agrees_toValue hm hcontent.symm

/-- A document that was read is written as it was, wherever its nodes have been moved to. -/
theorem agrees_toValue {t : Tree} {input output : Document} (h : ofTree? t = some input)
    (hedges : output.edges = input.edges) (hothers : output.others = input.others)
    (hnodes : (output.nodes.map Node.content).Perm (input.nodes.map Node.content)) :
    Agrees t output.toValue := by
  have hkept := kept_of_ofTree? h
  obtain ⟨nodes, edges, trees, hfields, hreadNodes, hreadEdges, hreadOthers⟩ :=
    ofTree?_eq_some_iff.1 h
  obtain ⟨hobject, hparts, -⟩ := Tree.members_of_openFields? hfields
  simp only [fieldNames, List.map_cons, List.map_nil, List.cons.injEq, and_true] at hparts
  obtain ⟨rfl, rfl⟩ := hparts
  rw [← hothers] at hreadOthers
  have hnamed : ∀ name ∈ fieldNames,
      output.toValue.named name = membersNamed name output.known := by
    intro name hname
    rw [toValue_eq]
    exact named_known (hothers ▸ hkept.others) output.known hname
  refine ⟨⟨hobject, ⟨_, toValue_eq output⟩, fun name hname => ?_⟩,
    ⟨_, hnamed "edges" (by simp [fieldNames]), ?_⟩, ?_⟩
  · rw [toValue_eq]
    exact sameMember_others hfields hreadOthers (by simp [known, fieldNames]) hname
  · rw [hedges]
    exact List.forall₂_map_right_iff.2
      ((forall₂_of_list? hreadEdges).imp fun t e he => EditorEdge.agree_toValue he)
  · obtain ⟨trees', hperm, hagree⟩ :=
      exists_trees_of_perm (forall₂_of_list? hreadNodes) hnodes
    exact ⟨_, trees', hnamed "nodes" (by simp [fieldNames]), hperm, hagree⟩

end Document

/-! ## Runs -/

namespace Command

/-- What a run rearranges agrees with the text of its input. -/
theorem agrees_of_rearranged {files : FileView} {home : Option String} {a : Arguments}
    {result : Document} (h : rearranged files home a = .ok result) :
    ∃ text tree, files.readText a.input = .ok text ∧ Tree.parse? text = some tree ∧
      Document.Agrees tree result.toValue := by
  obtain ⟨input, hinput, hkeeps⟩ := exists_input_of_rearranged h
  obtain ⟨text, htext, hparse⟩ := exists_text_of_readJson hinput
  obtain ⟨tree, htree, hread⟩ := Option.bind_eq_some_iff.1 hparse
  exact ⟨text, tree, htext, htree,
    Document.agrees_toValue hread hkeeps.edges hkeeps.others hkeeps.perm⟩

/-- **A run writes every member as it was read**, but for the positions of nodes, which are new,
and the measured sizes of nodes, which are written as they were understood. -/
theorem run_agrees {home : Option String} {a : Arguments} {d d' : Disk}
    (hrun : run home a d = (.ok (), d')) :
    ∃ (text : String) (tree : Tree) (value : Value),
      d.readText a.input = .ok text ∧ Tree.parse? text = some tree ∧
      d'.readText a.output = .ok (value.pretty 0 ++ "\n") ∧ Document.Agrees tree value := by
  obtain ⟨result, hresult, hwrite⟩ := run_eq_ok_iff.1 hrun
  obtain ⟨text, tree, htext, htree, hagrees⟩ := agrees_of_rearranged hresult
  exact ⟨text, tree, result.toValue, htext, htree, Disk.readText_write hwrite, hagrees⟩

/-- A disk with a document whose edges form a cycle. -/
def cycleDisk : Disk where
  entries :=
    [(["in.json"], .file ("\x7b\"nodes\":[" ++
      "\x7b\"id\":\"a\",\"measured\":\x7b\"width\":8,\"height\":4\x7d,\"k\":[1.5]\x7d," ++
      "\x7b\"id\":\"b\",\"position\":\x7b\"x\":-7,\"y\":3\x7d,\"data\":true\x7d]," ++
      "\"edges\":[\x7b\"id\":\"e\",\"source\":\"a\",\"target\":\"b\",\"l\":null\x7d," ++
        "\x7b\"id\":\"f\",\"source\":\"b\",\"target\":\"a\"\x7d],\"z\":2\x7d").toUTF8)]
  workingDirectory := []

/-- The command to lay out a document from left to right. -/
def rightwardLayout : Arguments :=
  ⟨.layout (some .leftToRight) none (some 60) none, "in.json", "out.json", none, "info"⟩

theorem run_agrees_layout : ∃ (d' : Disk) (text : String) (tree : Tree) (value : Value),
    run none rightwardLayout cycleDisk = (.ok (), d') ∧
    cycleDisk.readText "in.json" = .ok text ∧ Tree.parse? text = some tree ∧
    d'.readText "out.json" = .ok (value.pretty 0 ++ "\n") ∧ Document.Agrees tree value := by
  have hresult : (rearranged cycleDisk.view none rightwardLayout).toBool := by decide +kernel
  have htarget : cycleDisk.target rightwardLayout.output = .ok ["out.json"] := by decide +kernel
  obtain ⟨d', hrun⟩ := exists_run hresult htarget
  obtain ⟨text, tree, value, htext, htree, hvalue, hagrees⟩ := run_agrees hrun
  exact ⟨d', text, tree, value, hrun, htext, htree, hvalue, hagrees⟩

/-- A disk with a node whose measured size has a third member. -/
def depthDisk : Disk where
  entries :=
    [(["in.json"],
      .file ("\x7b\"nodes\":[\x7b\"id\":\"a\",\"measured\":" ++
        "\x7b\"width\":1,\"height\":2,\"depth\":7\x7d\x7d]\x7d").toUTF8)]
  workingDirectory := []

/-- A measured size loses the members that are not understood. -/
theorem run_drops_depth : ∃ (d' : Disk) (text : String) (tree : Tree) (value : Value),
    run none alignment depthDisk = (.ok (), d') ∧
    depthDisk.readText "in.json" = .ok text ∧ Tree.parse? text = some tree ∧
    (∃ t ∈ Tree.itemsOf (tree.member? "nodes"), ∃ size, t.member? "measured" = some size ∧
      (size.member? "depth").isSome) ∧
    d'.readText "out.json" = .ok (value.pretty 0 ++ "\n") ∧
    ∀ nodes, value.named "nodes" = [.array nodes] →
      ∀ v ∈ nodes, ∀ size ∈ v.named "measured", size.named "depth" = [] := by
  have hresult : (rearranged depthDisk.view none alignment).toBool := by decide +kernel
  have htarget : depthDisk.target alignment.output = .ok ["out.json"] := by decide +kernel
  have hdepth : ((depthDisk.readText "in.json").toOption.bind Tree.parse?).any (fun tree =>
      (Tree.itemsOf (tree.member? "nodes")).any fun t => (t.member? "measured").any fun size =>
        (size.member? "depth").isSome) := by decide +kernel
  obtain ⟨d', hrun⟩ := exists_run hresult htarget
  obtain ⟨result, hresult, hwrite⟩ := run_eq_ok_iff.1 hrun
  obtain ⟨text, tree, htext, htree, hagrees⟩ := agrees_of_rearranged hresult
  have hread : depthDisk.readText "in.json" = .ok text := htext
  refine ⟨d', text, tree, result.toValue, hrun, hread, htree, ?_, Disk.readText_write hwrite,
    fun nodes hnodes v hv size hsize => ?_⟩
  · simpa [hread, htree, Except.toOption, Option.any_eq_true] using hdepth
  · obtain ⟨nodes', trees, hnodes', -, hagree⟩ := hagrees.nodes
    obtain rfl : nodes = nodes' := by simpa [hnodes] using hnodes'
    obtain ⟨t, hnode⟩ := Document.exists_left_of_forall₂ hagree hv
    obtain ⟨s, -, hmeasured⟩ := hnode.measured
    rw [hmeasured, Option.mem_toList, Option.map_eq_some_iff] at hsize
    obtain ⟨s, -, rfl⟩ := hsize
    rfl

end Command

end LayeredDrawing
