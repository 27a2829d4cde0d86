import LayeredDrawing.Proofs.Command.Fidelity
import LayeredDrawing.Proofs.Rereading

/-!
# Runs on the output of a run

The file that a run leaves is read by a following run, whatever its command, if the coordinates
and the measured sizes in it are finite (`Command.run_rereadable`). Nothing in a run looks for
overflow: a layout with numbers that are all in range can leave a file that is not a document
(`Command.run_unreadable`).
-/

namespace LayeredDrawing.Command

/-- What a run rearranges was kept from a text. -/
theorem kept_of_rearranged {files : FileView} {home : Option String} {a : Arguments}
    {result : Document} (h : rearranged files home a = .ok result) : result.Kept := by
  obtain ⟨input, hinput, hkeeps⟩ := exists_input_of_rearranged h
  obtain ⟨text, -, hparse⟩ := exists_text_of_readJson hinput
  exact hkeeps.kept (Document.kept_of_parse? hparse)

/-- A run leaves the text of what it has rearranged. -/
theorem readText_of_run {home : Option String} {a : Arguments} {d d' : Disk} {result : Document}
    (hrun : run home a d = (.ok (), d')) (hresult : rearranged d.view home a = .ok result) :
    d'.view.readText a.output = .ok result.text := by
  obtain ⟨result', hresult', hwrite⟩ := run_eq_ok_iff.1 hrun
  obtain rfl : result = result' := Except.ok.inj (hresult.symm.trans hresult')
  exact Disk.readText_write hwrite

/-- What is read as a document was finite when it was written. -/
theorem isFinite_of_readJson_run {home : Option String} {a : Arguments} {d d' : Disk}
    {result output : Document} (hrun : run home a d = (.ok (), d'))
    (hresult : rearranged d.view home a = .ok result)
    (houtput : readJson d'.view Document.parse? a.output = .ok output) : result.IsFinite := by
  obtain ⟨text, htext, hparse⟩ := exists_text_of_readJson houtput
  obtain rfl : result.text = text :=
    Except.ok.inj ((readText_of_run hrun hresult).symm.trans htext)
  exact (Document.isSome_parse?_text (kept_of_rearranged hresult)).1
    (Option.isSome_of_eq_some hparse)

/-- **The output of a run is a document for a following run.** If a run succeeds and the
coordinates and measured sizes of its result are finite, the file that it leaves is read as a
document, whatever other numbers, texts and depths the input had. -/
theorem run_rereadable {home : Option String} {a : Arguments} {d d' : Disk} {result : Document}
    (hrun : run home a d = (.ok (), d')) (hresult : rearranged d.view home a = .ok result)
    (hfinite : result.IsFinite) :
    ∃ output, readJson d'.view Document.parse? a.output = .ok output := by
  have hread := (Document.isSome_parse?_text (kept_of_rearranged hresult)).2 hfinite
  obtain ⟨output, houtput⟩ := Option.isSome_iff_exists.1 hread
  exact ⟨output, readJson_eq_ok (readText_of_run hrun hresult) houtput⟩

/-- A disk with a document with numbers from both ends of the range of the format. -/
def distantDisk : Disk where
  entries :=
    [(["in.json"], .file ("\x7b\"nodes\":[" ++
      "\x7b\"id\":\"a\",\"position\":\x7b\"x\":3e38,\"y\":-0.0\x7d,\"k\":1e300\x7d," ++
      "\x7b\"id\":\"b\",\"position\":\x7b\"x\":0.1,\"y\":1e-45\x7d," ++
        "\"measured\":\x7b\"width\":0,\"height\":-5e9\x7d\x7d]," ++
      "\"edges\":[\x7b\"id\":\"e\",\"source\":\"b\",\"target\":\"a\"\x7d]\x7d").toUTF8)]
  workingDirectory := []

/-- The command to align the nodes of a document below each other. -/
def verticalAlignment : Arguments := ⟨.align .vertical, "in.json", "out.json", none, "info"⟩

/-- The second node is moved onto the line of the first one. -/
theorem run_rereadable_alignment : ∃ d' result output,
    run none verticalAlignment distantDisk = (.ok (), d') ∧
    rearranged distantDisk.view none verticalAlignment = .ok result ∧
    result.nodes.map (·.position) = [⟨3e38, -0.0⟩, ⟨3e38, 1e-45⟩] ∧ result.IsFinite ∧
    readJson d'.view Document.parse? "out.json" = .ok output := by
  have hchecks : (rearranged distantDisk.view none verticalAlignment).toOption.any (fun result =>
      decide (result.nodes.map (·.position) = [⟨3e38, -0.0⟩, ⟨3e38, 1e-45⟩] ∧
        result.IsFinite)) = true := by decide +kernel
  have htarget : distantDisk.target verticalAlignment.output = .ok ["out.json"] := by
    decide +kernel
  obtain ⟨d', result, hrun, hresult, hchecks⟩ := exists_run_of_any hchecks htarget
  obtain ⟨hmoved, hfinite⟩ := of_decide_eq_true hchecks
  obtain ⟨output, houtput⟩ := run_rereadable hrun hresult hfinite
  exact ⟨d', result, output, hrun, hresult, hmoved, hfinite, houtput⟩

/-- A disk with a wide node, and with settings for a wide margin. -/
def marginDisk : Disk where
  entries :=
    [(["in.json"], .file ("\x7b\"nodes\":[\x7b\"id\":\"a\"," ++
      "\"measured\":\x7b\"width\":3e38,\"height\":1\x7d\x7d]\x7d").toUTF8),
    (["margin.toml"], .file "[layout]\nmargin_x = 3e38".toUTF8)]
  workingDirectory := []

/-- The command to lay out a document with settings. -/
def marginLayout : Arguments :=
  ⟨.layout none none none none, "in.json", "out.json", some "margin.toml", "info"⟩

/-- The node and the margin are in range, and what the run leaves is not a document. -/
theorem run_unreadable : ∃ d', run none marginLayout marginDisk = (.ok (), d') ∧
    ∀ output, readJson d'.view Document.parse? marginLayout.output ≠ .ok output := by
  have hchecks : (rearranged marginDisk.view none marginLayout).toOption.any
      (fun result => !decide result.IsFinite) = true := by decide +kernel
  have htarget : marginDisk.target marginLayout.output = .ok ["out.json"] := by decide +kernel
  obtain ⟨d', result, hrun, hresult, hinfinite⟩ := exists_run_of_any hchecks htarget
  have hinfinite : ¬ result.IsFinite := by simpa using hinfinite
  exact ⟨d', hrun, fun _ houtput => hinfinite (isFinite_of_readJson_run hrun hresult houtput)⟩

end LayeredDrawing.Command
