import LayeredDrawing.Command.Run
import LayeredDrawing.Proofs.Disk
import LayeredDrawing.Proofs.Distribution
import LayeredDrawing.Proofs.Document

/-!
# What a run keeps

A run that succeeds leaves a file that is read as the document it was given, with nothing
changed but the positions of the nodes (`Command.run_keeps`): the nodes keep their names, data,
sizes and other members, in their order after a layout or an alignment and in some order after
a distribution, and edges and other members of the document are the same.

Two things are asked. The coordinates and the measured sizes of the result are finite, since
what is not finite has no text of its own. And the floating-point numbers of the result are read
back from their texts, since the digits of a number are shortest but are gathered with
rounding.
-/

namespace LayeredDrawing

open Json

variable {α δ : Type}

/-! ## Nodes that are only moved -/

theorem map_content_alignNodes (nodes : List (Node α δ)) (axis : Axis) :
    (alignNodes nodes axis).map Node.content = nodes.map Node.content := by
  cases nodes with
  | nil => rfl
  | cons anchor rest => simp [alignNodes]

theorem map_content_distributeNodes (nodes : List (Node Float32 δ)) (axis : Axis)
    (spacing : Float32) :
    ((distributeNodes nodes axis spacing).map Node.content).Perm (nodes.map Node.content) := by
  obtain ⟨start, -, heq⟩ := exists_distributeNodes_eq_spreadFrom nodes axis spacing
  rw [heq, map_spreadFrom fun _ _ => rfl]
  exact (nodes.mergeSort_perm (alongLE axis)).map Node.content

namespace Command

/-! ## The stages of a run -/

/-- A task keeps a document, but for the positions of the nodes. -/
structure Task.Keeps (task : Task) (input output : Document) : Prop where
  edges : output.edges = input.edges
  others : output.others = input.others
  nodes : match task with
    | .layout .. | .align .. => output.nodes.map Node.content = input.nodes.map Node.content
    | .distribute .. =>
      (output.nodes.map Node.content).Perm (input.nodes.map Node.content)

theorem Task.keeps_withNodes {files : FileView} {s : Settings} {d : Document} {task : Task}
    {nodes : List EditorNode} (h : task.nodes files s d = .ok nodes) :
    task.Keeps d (d.withNodes nodes) := by
  refine ⟨rfl, rfl, ?_⟩
  cases task with
  | layout direction nodeSep rankSep sizes =>
    simp only [Task.nodes] at h
    split at h
    · simp at h
    · split at h
      · simp at h
      · next hl =>
        obtain rfl := Except.ok.inj h
        exact Layout.map_content_compute hl
  | align axis =>
    obtain rfl := Except.ok.inj h
    exact map_content_alignNodes d.nodes axis
  | distribute axis spacing =>
    obtain rfl := Except.ok.inj h
    exact map_content_distributeNodes d.nodes axis _

theorem Task.Keeps.perm {task : Task} {input output : Document} (h : task.Keeps input output) :
    (output.nodes.map Node.content).Perm (input.nodes.map Node.content) := by
  have hnodes := h.nodes
  cases task with
  | layout _ _ _ _ => rw [hnodes]
  | align _ => rw [hnodes]
  | distribute _ _ => exact hnodes

/-- What a run rearranges is the document of its input, with the nodes of its task. -/
theorem exists_task_of_rearranged {files : FileView} {home : Option String} {a : Arguments}
    {result : Document} (h : rearranged files home a = .ok result) :
    ∃ s input nodes, loadSettings files home a.settings = .ok s ∧
      readJson files Document.parse? a.input = .ok input ∧
      a.task.nodes files s input = .ok nodes ∧ result = input.withNodes nodes := by
  unfold rearranged at h
  split at h
  · cases h
  rename_i s hs
  split at h
  · cases h
  rename_i input hinput
  split at h
  · cases h
  rename_i nodes hnodes
  exact ⟨s, input, nodes, hs, hinput, hnodes, (Except.ok.inj h).symm⟩

theorem exists_input_of_rearranged {files : FileView} {home : Option String} {a : Arguments}
    {result : Document} (h : rearranged files home a = .ok result) :
    ∃ input, readJson files Document.parse? a.input = .ok input ∧ a.task.Keeps input result := by
  obtain ⟨_, input, _, -, hinput, hnodes, rfl⟩ := exists_task_of_rearranged h
  exact ⟨input, hinput, Task.keeps_withNodes hnodes⟩

/-- A run succeeds if what it rearranged can be written. -/
theorem run_eq_ok_iff {home : Option String} {a : Arguments} {d d' : Disk} :
    run home a d = (.ok (), d') ↔
      ∃ result, rearranged d.view home a = .ok result ∧
        d.write a.output result.text = .ok d' := by
  constructor
  · intro h
    unfold run at h
    split at h
    · simp at h
    · next result hresult =>
      split at h
      · simp at h
      · next hwrite =>
        obtain ⟨-, rfl⟩ := Prod.mk.inj h
        exact ⟨result, hresult, hwrite⟩
  · rintro ⟨result, hresult, hwrite⟩
    simp only [run, hresult, hwrite]

/-- A run succeeds if the document can be rearranged and its file has a place. -/
theorem exists_run {home : Option String} {a : Arguments} {d : Disk} {location : Location}
    (hresult : (rearranged d.view home a).toBool) (htarget : d.target a.output = .ok location) :
    ∃ d', run home a d = (.ok (), d') := by
  cases hrearranged : rearranged d.view home a with
  | error f => simp [hrearranged, Except.toBool] at hresult
  | ok result =>
    have hwrite : d.write a.output result.text =
        .ok (d.put location (.file result.text.toUTF8)) := by
      simp only [Disk.write, htarget]
    exact ⟨_, run_eq_ok_iff.2 ⟨result, hrearranged, hwrite⟩⟩

/-- A run succeeds with a document of which something can be computed. -/
theorem exists_run_of_any {home : Option String} {a : Arguments} {d : Disk} {location : Location}
    {p : Document → Bool} (hresult : (rearranged d.view home a).toOption.any p = true)
    (htarget : d.target a.output = .ok location) :
    ∃ d' result, run home a d = (.ok (), d') ∧ rearranged d.view home a = .ok result ∧
      p result = true := by
  cases hrearranged : rearranged d.view home a with
  | error f => simp [hrearranged, Except.toOption] at hresult
  | ok result =>
    obtain ⟨d', hrun⟩ := exists_run (by rw [hrearranged]; rfl) htarget
    exact ⟨d', result, hrun, rfl, by simpa [hrearranged, Except.toOption] using hresult⟩

theorem readJson_eq_ok {β : Type} {files : FileView} {parse? : String → Option β}
    {path text : String} {x : β} (htext : files.readText path = .ok text)
    (hx : parse? text = some x) : readJson files parse? path = .ok x := by
  simp only [readJson, htext, hx]

theorem exists_text_of_readJson {β : Type} {files : FileView} {parse? : String → Option β}
    {path : String} {x : β} (h : readJson files parse? path = .ok x) :
    ∃ text, files.readText path = .ok text ∧ parse? text = some x := by
  unfold readJson at h
  split at h
  · simp at h
  · next text htext =>
    split at h
    · simp at h
    · next hx =>
      obtain rfl := Except.ok.inj h
      exact ⟨text, htext, hx⟩

/-! ## Documents before and after a run -/

/-- What a run rearranges was kept from a text. -/
theorem Task.Keeps.kept {task : Task} {input result : Document} (h : task.Keeps input result)
    (hinput : input.Kept) : result.Kept := by
  have hresult : result = input.withNodes result.nodes := by
    rw [Document.withNodes, ← h.edges, ← h.others]
  rw [hresult]
  refine hinput.withNodes fun n hn => ?_
  obtain ⟨m, hm, hcontent⟩ := List.mem_map.1 (h.perm.subset (List.mem_map_of_mem hn))
  exact ⟨m, hm, (congrArg (·.2.1) hcontent).symm⟩

/-- **A run keeps the document but for the positions of its nodes.** If a run succeeds and the
coordinates and sizes of its result are finite, the output file is read as the document of the
input file with nodes that have only been moved. It is assumed that the floating-point numbers of
the result are read back from their texts. -/
theorem run_keeps {home : Option String} {a : Arguments} {d d' : Disk} {result : Document}
    (hrun : run home a d = (.ok (), d')) (hresult : rearranged d.view home a = .ok result)
    (hfinite : result.IsFinite)
    (hdouble : ∀ x, .double x ∈ result.toValue.numbers → Double.ReadsBack x)
    (hsingle : ∀ x, .single x ∈ result.toValue.numbers → x.isFinite → Single.ReadsBack x) :
    ∃ input output, readJson d.view Document.parse? a.input = .ok input ∧
      readJson d'.view Document.parse? a.output = .ok output ∧ a.task.Keeps input output := by
  obtain ⟨result', hresult', hwrite⟩ := run_eq_ok_iff.1 hrun
  obtain rfl : result = result' := Except.ok.inj (hresult.symm.trans hresult')
  obtain ⟨input, hinput, hkeeps⟩ := exists_input_of_rearranged hresult
  obtain ⟨text, -, hparse⟩ := exists_text_of_readJson hinput
  have hkept : result.Kept := hkeeps.kept (Document.kept_of_parse? hparse)
  have hback : result.toValue.ReadsBack := by
    intro n hn
    cases n with
    | natural _ => trivial
    | negative _ => trivial
    | double x => exact hdouble x hn
    | single x => exact hsingle x hn (hfinite.of_mem_numbers hkept hn)
  exact ⟨input, result, hinput,
    readJson_eq_ok (Disk.readText_write hwrite) (Document.parse?_text hkept hback), hkeeps⟩

/-- A disk with a document of which a layout understands only a part. -/
def diagramDisk : Disk where
  entries :=
    [(["in.json"], .file ("\x7b\"nodes\":[" ++
      "\x7b\"id\":\"a\",\"position\":\x7b\"x\":1,\"y\":2.5\x7d," ++
        "\"measured\":\x7b\"width\":8,\"height\":4\x7d\x7d," ++
      "\x7b\"id\":\"b\",\"position\":\x7b\"x\":-7,\"y\":3\x7d,\"k\":1.5\x7d]," ++
      "\"edges\":[\x7b\"id\":\"e\",\"source\":\"a\",\"target\":\"b\",\"l\":null\x7d]," ++
      "\"z\":2\x7d").toUTF8)]
  workingDirectory := []

/-- The command to align the nodes of a document. -/
def alignment : Arguments := ⟨.align .horizontal, "in.json", "out.json", none, "info"⟩

/-- The second node is moved onto the line of the first one. -/
theorem run_keeps_alignment : ∃ d' result input output,
    run none alignment diagramDisk = (.ok (), d') ∧
    rearranged diagramDisk.view none alignment = .ok result ∧
    result.nodes.map (·.position) = [⟨1, 2.5⟩, ⟨-7, 2.5⟩] ∧
    result.IsFinite ∧ result.toValue.ReadsBack ∧
    readJson diagramDisk.view Document.parse? "in.json" = .ok input ∧
    readJson d'.view Document.parse? "out.json" = .ok output ∧
    alignment.task.Keeps input output := by
  have hchecks : (rearranged diagramDisk.view none alignment).toOption.any (fun result =>
      decide (result.nodes.map (·.position) = [⟨1, 2.5⟩, ⟨-7, 2.5⟩] ∧
        result.IsFinite ∧ result.toValue.ReadsBack)) = true := by decide +kernel
  have htarget : diagramDisk.target alignment.output = .ok ["out.json"] := by decide +kernel
  obtain ⟨d', result, hrun, hresult, hchecks⟩ := exists_run_of_any hchecks htarget
  obtain ⟨hmoved, hfinite, hback⟩ := of_decide_eq_true hchecks
  obtain ⟨input, output, hinput, houtput, hkeeps⟩ := run_keeps hrun hresult hfinite
    (fun x hx => hback (.double x) hx) (fun x hx _ => hback (.single x) hx)
  exact ⟨d', result, input, output, hrun, hresult, hmoved, hfinite, hback, hinput, houtput,
    hkeeps⟩

end Command

end LayeredDrawing
