import LayeredDrawing.Command.Grammar
import LayeredDrawing.Proofs.Command.Fidelity

/-!
# The distances a run works with

A distance comes from the command line, or else from a settings file, or else it has its default.
Settings are checked as they are loaded, before anything of the command line replaces them
(`check_of_loadSettings`), and a layout checks its options once more, with what replaced them. A
distribution has no check of its own: the step of the settings is finite, but a step on the command
line is taken as it is.

* `Task.usable_iff`: a task that is done works with distances that can be used, unless the command
  line gives a step that is not finite.
* `run_usable`: **a run changes nothing or works with such distances**, all of them but that step.
* `run_infinite_step`: that step.
-/

namespace LayeredDrawing.Command

/-- The distances that a task works with can be used: the options of a layout have no fault, and
the step of a distribution is finite. -/
def Task.Usable (s : Settings) : Task → Prop
  | .layout direction nodeSep rankSep _ =>
    (effectiveOptions s direction nodeSep rankSep).check = .ok ()
  | .align _ => True
  | .distribute _ spacing => (spacing.getD s.spacing).isFinite = true

/-- The step of a distribution that the command line gives. -/
def Task.step? : Task → Option Float32
  | .distribute _ spacing => spacing
  | _ => none

/-! ## Settings -/

theorem check_default : Settings.default.check = .ok () := by
  have hfault : Settings.default.layout.fault? = none := by decide +kernel
  have hfinite : Scalar.isFinite Settings.default.spacing = true := by decide +kernel
  simp only [Settings.check, hfault, hfinite, if_true]

theorem isFinite_spacing_of_check {s : Settings} (h : s.check = .ok ()) :
    s.spacing.isFinite = true := by
  unfold Settings.check at h
  split at h
  · cases h
  · split at h
    · assumption
    · cases h

theorem check_of_settingsOf {files : FileView} {path : String} {s : Settings}
    (h : settingsOf files path = .ok s) : s.check = .ok () := by
  unfold settingsOf at h
  split at h
  · cases h
  split at h
  · cases h
  split at h
  · cases h
  split at h
  · cases h
  · rename_i hcheck
    obtain rfl := Except.ok.inj h
    exact hcheck

/-- Settings are only loaded if they have no fault. -/
theorem check_of_loadSettings {files : FileView} {home named : Option String} {s : Settings}
    (h : loadSettings files home named = .ok s) : s.check = .ok () := by
  unfold loadSettings at h
  split at h
  · exact check_of_settingsOf h
  · obtain rfl := Except.ok.inj h
    exact check_default

/-! ## Tasks -/

theorem check_of_layout {files : FileView} {s : Settings} {d : Document} {nodes : List EditorNode}
    {direction : Option Direction} {nodeSep rankSep : Option Float32} {path : Option String}
    (h : Task.nodes files s d (.layout direction nodeSep rankSep path) = .ok nodes) :
    (effectiveOptions s direction nodeSep rankSep).check = .ok () := by
  simp only [Task.nodes] at h
  split at h
  · cases h
  split at h
  · cases h
  · rename_i l hl
    exact (Layout.stages_of_compute hl).1

/-- A task that is done works with distances that can be used, unless the command line gives a step
that is not finite. -/
theorem Task.usable_iff {files : FileView} {s : Settings} {d : Document} {task : Task}
    {nodes : List EditorNode} (hs : s.check = .ok ()) (h : task.nodes files s d = .ok nodes) :
    task.Usable s ↔ ∀ step ∈ task.step?, step.isFinite = true := by
  cases task with
  | layout direction nodeSep rankSep path =>
    exact iff_of_true (check_of_layout h) fun _ hm => by cases hm
  | align axis => exact iff_of_true trivial fun _ hm => by cases hm
  | distribute axis spacing =>
    cases spacing with
    | none => exact iff_of_true (isFinite_spacing_of_check hs) fun _ hm => by cases hm
    | some step => simp [Task.Usable, Task.step?]

/-! ## Runs -/

theorem disk_of_run_error {home : Option String} {a : Arguments} {d d' : Disk} {f : Failure}
    (h : run home a d = (.error f, d')) : d' = d := by
  unfold run at h
  split at h
  · exact (Prod.mk.inj h).2.symm
  · split at h
    · exact (Prod.mk.inj h).2.symm
    · cases (Prod.mk.inj h).1

/-- **A run changes nothing or works with distances that can be used**, but for a step on the
command line. A run that fails leaves the disk as it is. One that succeeds has done its task with
settings that have no fault, and the effective options of a layout have none either; the effective
step of a distribution is finite if it comes from the settings, and is what the command line says
otherwise. -/
theorem run_usable (home : Option String) (a : Arguments) (d : Disk) :
    (∀ f d', run home a d = (.error f, d') → d' = d) ∧
    ∀ d', run home a d = (.ok (), d') → ∃ s input nodes,
      loadSettings d.view home a.settings = .ok s ∧ s.check = .ok () ∧
      readJson d.view Document.parse? a.input = .ok input ∧
      a.task.nodes d.view s input = .ok nodes ∧
      d'.view.readText a.output = .ok (input.withNodes nodes).text ∧
      (a.task.Usable s ↔ ∀ step ∈ a.task.step?, step.isFinite = true) := by
  refine ⟨fun f d' h => disk_of_run_error h, fun d' h => ?_⟩
  obtain ⟨result, hresult, hwrite⟩ := run_eq_ok_iff.1 h
  obtain ⟨s, input, nodes, hs, hinput, hnodes, rfl⟩ := exists_task_of_rearranged hresult
  have hcheck := check_of_loadSettings hs
  exact ⟨s, input, nodes, hs, hcheck, hinput, hnodes, Disk.readText_write hwrite,
    Task.usable_iff hcheck hnodes⟩

/-- A disk with two nodes and no settings. -/
def twoNodesDisk : Disk where
  entries :=
    [(["in.json"], .file "\x7b\"nodes\":[\x7b\"id\":\"a\"\x7d,\x7b\"id\":\"b\"\x7d]\x7d".toUTF8)]
  workingDirectory := []

/-- A step that is not finite is taken from the command line and worked with. -/
theorem run_infinite_step : ∃ a d' s,
    Arguments.parse ["distribute", "in.json", "-a", "vertical", "-s", "inf"] = .ok a ∧
    run none a twoNodesDisk = (.ok (), d') ∧
    loadSettings twoNodesDisk.view none a.settings = .ok s ∧ ¬ a.task.Usable s := by
  have hchecks : (Arguments.parse
      ["distribute", "in.json", "-a", "vertical", "-s", "inf"]).toOption.any (fun a =>
        (rearranged twoNodesDisk.view none a).toBool &&
          decide (twoNodesDisk.target a.output = .ok ["out.json"]) &&
          a.task.step?.any fun step => !step.isFinite) = true := by decide +kernel
  cases hparse : Arguments.parse ["distribute", "in.json", "-a", "vertical", "-s", "inf"] with
  | error f => simp [hparse, Except.toOption] at hchecks
  | ok a =>
    simp only [hparse, Except.toOption, Option.any_some, Bool.and_eq_true, decide_eq_true_eq,
      Option.any_eq_true, Bool.not_eq_true'] at hchecks
    obtain ⟨⟨hresult, htarget⟩, step, hstep, hinfinite⟩ := hchecks
    obtain ⟨d', hrun⟩ := exists_run hresult htarget
    obtain ⟨result, hresult, -⟩ := run_eq_ok_iff.1 hrun
    obtain ⟨s, _, _, hs, -, hnodes, -⟩ := exists_task_of_rearranged hresult
    refine ⟨a, d', s, rfl, hrun, hs, fun husable => ?_⟩
    have hfinite := (Task.usable_iff (check_of_loadSettings hs) hnodes).1 husable step hstep
    rw [hfinite] at hinfinite
    cases hinfinite

end LayeredDrawing.Command
