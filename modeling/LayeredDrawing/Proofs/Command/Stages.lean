import LayeredDrawing.Command.Run
import LayeredDrawing.Proofs.Disk

/-!
# Stages of a run

A run loads the settings, reads the document, reads the sizes if it has to, rearranges the
document and writes it, in this order. What can go wrong at each stage is said of the files alone
(`Fails`): that a stage fails has nothing to do with whether the stages before it do, except that
there is nothing to lay out without settings, document and sizes. A run goes wrong with a failure
of its first stage that fails, and before the last stage nothing is written.

* `loadSettings_eq_error`, `NotLoaded.not_ok`: settings are not loaded for the given reasons.
* `readJson_eq_error`, `NotRead.not_ok`: a document is not read for the given reasons.
* `run_cases`: a run fails at its first stage that fails, or no stage fails.
* `run_outcome`: **a run that fails changes nothing, and one that succeeds changes one file.**
-/

namespace LayeredDrawing.Command

/-! ## What can go wrong -/

/-- Settings cannot be loaded: the file that was named is not there, or the file in use is no text,
is no table of settings, or has settings with a fault. -/
inductive NotLoaded (files : FileView) (home named : Option String) : SettingsError → Prop
  | missing {path : String} (hnamed : named = some path) (hmissing : files.isThere path = false) :
    NotLoaded files home named (.missing path)
  | unreadable {path : String} {e : FileError} (hpath : settingsPath? files home named = some path)
      (hthere : files.isThere path = true) (hread : files.readText path = .error e) :
    NotLoaded files home named (.unreadable path e)
  | malformed {path text reason : String} (hpath : settingsPath? files home named = some path)
      (hthere : files.isThere path = true) (hread : files.readText path = .ok text)
      (hparse : Settings.parse? text = none) : NotLoaded files home named (.malformed reason)
  | invalid {path text : String} {s : Settings} {f : SettingsFault}
      (hpath : settingsPath? files home named = some path) (hthere : files.isThere path = true)
      (hread : files.readText path = .ok text) (hparse : Settings.parse? text = some s)
      (hcheck : s.check = .error f) : NotLoaded files home named (.invalid f.message)

/-- A file cannot be read as what it should be: it cannot be read at all, or not as that. -/
inductive NotRead {β : Type} (files : FileView) (parse? : String → Option β) (path : String) :
    Failure → Prop
  | file {e : FileError} (hread : files.readText path = .error e) :
    NotRead files parse? path (.file path e)
  | json {text reason : String} (hread : files.readText path = .ok text)
      (hparse : parse? text = none) : NotRead files parse? path (.json path reason)

/-- The sizes that a JSON text stands for. -/
def parseSizes? (text : String) : Option (SizeMap Float32) :=
  (Json.Tree.parse? text).bind SizeMap.ofTree?

/-- The stages of a run. -/
inductive Stage
  | settings
  | document
  | sizes
  | layout
  | writing
  deriving DecidableEq, Repr

/-- The number of a stage in the order of a run. -/
def Stage.number : Stage → Nat
  | settings => 0
  | document => 1
  | sizes => 2
  | layout => 3
  | writing => 4

/-- What can go wrong at a stage. Only a layout has sizes to read and can fail as such. -/
inductive Fails (home : Option String) (a : Arguments) (d : Disk) : Stage → Failure → Prop
  | settings {e : SettingsError} (h : NotLoaded d.view home a.settings e) :
    Fails home a d .settings (.settings e)
  | document {f : Failure} (h : NotRead d.view Document.parse? a.input f) : Fails home a d .document f
  | sizes {direction : Option Direction} {nodeSep rankSep : Option Float32} {path : String}
      {f : Failure} (htask : a.task = .layout direction nodeSep rankSep (some path))
      (h : NotRead d.view parseSizes? path f) : Fails home a d .sizes f
  | layout {direction : Option Direction} {nodeSep rankSep : Option Float32}
      {path : Option String} {s : Settings} {document : Document}
      {sizes : Option (SizeMap Float32)} {e : LayoutError}
      (htask : a.task = .layout direction nodeSep rankSep path)
      (hsettings : loadSettings d.view home a.settings = .ok s)
      (hdocument : readJson d.view Document.parse? a.input = .ok document)
      (hsizes : readSizes d.view path = .ok sizes)
      (h : Layout.compute (effectiveOptions s direction nodeSep rankSep) document.nodes
        document.diagramEdges sizes = .error e) : Fails home a d .layout (.layout e)
  | writing {e : FileError} (h : d.target a.output = .error e) :
    Fails home a d .writing (.file a.output e)

/-! ## Settings -/

section Settings

variable {files : FileView} {home named : Option String}

theorem settingsOf_eq_error {path : String} {e : SettingsError}
    (hpath : settingsPath? files home named = some path)
    (h : settingsOf files path = .error e) : NotLoaded files home named e := by
  unfold settingsOf at h
  split at h
  · rename_i hmissing
    obtain rfl := Except.error.inj h
    have hmissing : files.isThere path = false := by simpa using hmissing
    -- a file that was not named is only used if it is there
    cases named with
    | some path' => exact .missing hpath hmissing
    | none =>
      rw [List.find?_some hpath] at hmissing
      cases hmissing
  rename_i hthere
  have hthere : files.isThere path = true := by simpa using hthere
  split at h
  · rename_i hread
    obtain rfl := Except.error.inj h
    exact .unreadable hpath hthere hread
  rename_i text hread
  split at h
  · rename_i hparse
    obtain rfl := Except.error.inj h
    exact .malformed hpath hthere hread hparse
  rename_i s hparse
  split at h
  · rename_i f hcheck
    obtain rfl := Except.error.inj h
    exact .invalid hpath hthere hread hparse hcheck
  · cases h

theorem loadSettings_eq_error {e : SettingsError} (h : loadSettings files home named = .error e) :
    NotLoaded files home named e := by
  unfold loadSettings at h
  split at h
  · rename_i path hpath
    exact settingsOf_eq_error hpath h
  · cases h

theorem NotLoaded.not_ok {e : SettingsError} (h : NotLoaded files home named e) (s : Settings) :
    loadSettings files home named ≠ .ok s := by
  intro hok
  cases h with
  | missing hnamed hmissing =>
    subst hnamed
    simp [loadSettings, settingsPath?, settingsOf, hmissing] at hok
  | unreadable hpath hthere hread => simp [loadSettings, hpath, settingsOf, hthere, hread] at hok
  | malformed hpath hthere hread hparse =>
    simp [loadSettings, hpath, settingsOf, hthere, hread, hparse] at hok
  | invalid hpath hthere hread hparse hcheck =>
    simp [loadSettings, hpath, settingsOf, hthere, hread, hparse, hcheck] at hok

end Settings

/-! ## Documents -/

section Documents

variable {β : Type} {files : FileView} {parse? : String → Option β} {path : String} {f : Failure}

theorem readJson_eq_error (h : readJson files parse? path = .error f) :
    NotRead files parse? path f := by
  unfold readJson at h
  split at h
  · rename_i hread
    obtain rfl := Except.error.inj h
    exact .file hread
  rename_i text hread
  split at h
  · rename_i hparse
    obtain rfl := Except.error.inj h
    exact .json hread hparse
  · cases h

theorem NotRead.not_ok (h : NotRead files parse? path f) (x : β) :
    readJson files parse? path ≠ .ok x := by
  intro hok
  cases h with
  | file hread => simp [readJson, hread] at hok
  | json hread hparse => simp [readJson, hread, hparse] at hok

theorem readSizes_eq_error {named : Option String} (h : readSizes files named = .error f) :
    ∃ path, named = some path ∧ NotRead files parseSizes? path f := by
  cases named with
  | none => cases h
  | some path =>
    rw [readSizes] at h
    split at h
    · rename_i hread
      obtain rfl := Except.error.inj h
      exact ⟨path, rfl, readJson_eq_error hread⟩
    · cases h

theorem NotRead.readSizes_not_ok (h : NotRead files parseSizes? path f)
    (sizes : Option (SizeMap Float32)) : readSizes files (some path) ≠ .ok sizes := by
  intro hok
  rw [readSizes] at hok
  split at hok
  · cases hok
  · rename_i hread
    exact h.not_ok _ hread

end Documents

/-! ## Runs -/

section Runs

variable {home : Option String} {a : Arguments} {d : Disk}

/-- Nothing goes wrong at a stage. -/
def Passes (home : Option String) (a : Arguments) (d : Disk) (stage : Stage) : Prop :=
  ∀ f, ¬ Fails home a d stage f

/-- Nothing goes wrong before a stage. -/
def Reaches (home : Option String) (a : Arguments) (d : Disk) (stage : Stage) : Prop :=
  ∀ earlier : Stage, earlier.number < stage.number → Passes home a d earlier

theorem Stage.eq_of_number {stage stage' : Stage} (h : stage.number = stage'.number) :
    stage = stage' := by
  cases stage <;> cases stage' <;> first | rfl | cases h

theorem reaches_settings : Reaches home a d .settings :=
  fun _ h => absurd h (Nat.not_lt_zero _)

theorem Reaches.next {stage after : Stage} (h : Reaches home a d stage)
    (hp : Passes home a d stage) (hafter : after.number = stage.number + 1) :
    Reaches home a d after := by
  intro earlier hlt
  rcases Nat.lt_succ_iff_lt_or_eq.1 (hafter ▸ hlt) with hlt | he
  · exact h earlier hlt
  · exact Stage.eq_of_number he ▸ hp

theorem passes_settings {s : Settings} (hs : loadSettings d.view home a.settings = .ok s) :
    Passes home a d .settings := by
  intro f hf
  cases hf with
  | settings h => exact h.not_ok s hs

theorem passes_document {document : Document}
    (hd : readJson d.view Document.parse? a.input = .ok document) : Passes home a d .document := by
  intro f hf
  cases hf with
  | document h => exact h.not_ok document hd

theorem passes_writing {location : Location} (h : d.target a.output = .ok location) :
    Passes home a d .writing := by
  intro f hf
  cases hf with
  | writing he => cases h.symm.trans he

theorem passes_sizes {direction : Option Direction} {nodeSep rankSep : Option Float32}
    {path : Option String} {sizes : Option (SizeMap Float32)}
    (ht : a.task = .layout direction nodeSep rankSep path)
    (h : readSizes d.view path = .ok sizes) : Passes home a d .sizes := by
  intro f hf
  cases hf with
  | sizes ht' hn =>
    rw [ht] at ht'
    cases ht'
    exact hn.readSizes_not_ok sizes h

/-- The stages between reading the document and writing it. -/
theorem task_cases {s : Settings} {document : Document}
    (hs : loadSettings d.view home a.settings = .ok s)
    (hd : readJson d.view Document.parse? a.input = .ok document) :
    (∃ f, a.task.nodes d.view s document = .error f ∧ Fails home a d .sizes f) ∨
    (∃ f, a.task.nodes d.view s document = .error f ∧ Passes home a d .sizes ∧
      Fails home a d .layout f) ∨
    ∃ nodes, a.task.nodes d.view s document = .ok nodes ∧ Passes home a d .sizes ∧
      Passes home a d .layout := by
  cases ht : a.task with
  | layout direction nodeSep rankSep path =>
    cases hm : readSizes d.view path with
    | error f =>
      obtain ⟨p, rfl, hn⟩ := readSizes_eq_error hm
      exact .inl ⟨f, by simp only [Task.nodes, hm], .sizes ht hn⟩
    | ok sizes =>
      have hsizes : Passes home a d .sizes := passes_sizes ht hm
      cases hc : Layout.compute (effectiveOptions s direction nodeSep rankSep) document.nodes
          document.diagramEdges sizes with
      | error e =>
        exact .inr (.inl ⟨.layout e, by simp only [Task.nodes, hm, hc], hsizes,
          .layout ht hs hd hm hc⟩)
      | ok l =>
        refine .inr (.inr ⟨l.nodes, by simp only [Task.nodes, hm, hc], hsizes, fun f hf => ?_⟩)
        cases hf with
        | layout ht' hs' hd' hm' hc' =>
          rw [ht] at ht'
          cases ht'
          obtain rfl := Except.ok.inj (hs.symm.trans hs')
          obtain rfl := Except.ok.inj (hd.symm.trans hd')
          obtain rfl := Except.ok.inj (hm.symm.trans hm')
          cases hc.symm.trans hc'
  | align _ | distribute _ _ =>
    refine .inr (.inr ⟨_, rfl, fun f hf => ?_, fun f hf => ?_⟩)
    · cases hf with
      | sizes ht' _ => cases ht.symm.trans ht'
    · cases hf with
      | layout ht' _ _ _ _ => cases ht.symm.trans ht'

/-- A run fails at the first stage where something goes wrong and leaves the disk as it is, or
nothing goes wrong and the run puts what it rearranged at the location of its output. -/
theorem run_cases (home : Option String) (a : Arguments) (d : Disk) :
    (∃ stage f, run home a d = (.error f, d) ∧ Fails home a d stage f ∧
      Reaches home a d stage) ∨
    ∃ result location, rearranged d.view home a = .ok result ∧
      d.target a.output = .ok location ∧
      run home a d = (.ok (), d.put location (.file result.text.toUTF8)) ∧
      ∀ stage, Passes home a d stage := by
  cases hs : loadSettings d.view home a.settings with
  | error e =>
    exact .inl ⟨.settings, .settings e, by simp only [run, rearranged, hs],
      .settings (loadSettings_eq_error hs), reaches_settings⟩
  | ok s =>
  have hsettings := passes_settings hs
  have hreach : Reaches home a d .document := reaches_settings.next hsettings rfl
  cases hd : readJson d.view Document.parse? a.input with
  | error f =>
    exact .inl ⟨.document, f, by simp only [run, rearranged, hs, hd],
      .document (readJson_eq_error hd), hreach⟩
  | ok document =>
  have hdocument : Passes home a d .document := passes_document hd
  have hreach : Reaches home a d .sizes := hreach.next hdocument rfl
  rcases task_cases hs hd with ⟨f, hf, h⟩ | ⟨f, hf, hsizes, h⟩ | ⟨nodes, hn, hsizes, hlayout⟩
  · exact .inl ⟨.sizes, f, by simp only [run, rearranged, hs, hd, hf], h, hreach⟩
  · exact .inl ⟨.layout, f, by simp only [run, rearranged, hs, hd, hf], h, hreach.next hsizes rfl⟩
  have hreach : Reaches home a d .layout := hreach.next hsizes rfl
  have hreach : Reaches home a d .writing := hreach.next hlayout rfl
  have hresult : rearranged d.view home a = .ok (document.withNodes nodes) := by
    simp only [rearranged, hs, hd, hn]
  cases ht : d.target a.output with
  | error e =>
    exact .inl ⟨.writing, .file a.output e, by simp only [run, hresult, Disk.write, ht],
      .writing ht, hreach⟩
  | ok location =>
    refine .inr ⟨_, location, hresult, rfl, by simp only [run, hresult, Disk.write, ht],
      fun stage => ?_⟩
    cases stage with
    | settings => exact hsettings
    | document => exact hdocument
    | sizes => exact hsizes
    | layout => exact hlayout
    | writing => exact passes_writing ht

end Runs

/-- **A run is all or nothing, and it reports its first failure.** A run that fails leaves the disk
as it is, and its failure is one of the first stage at which something goes wrong. A run succeeds
if and only if nothing goes wrong at any stage. Then its output has the text of the rearranged
document, which was made from the files as they were before, also if the output is one of them, and
every other location is as it was. -/
theorem run_outcome (home : Option String) (a : Arguments) (d : Disk) :
    (∀ f d', run home a d = (.error f, d') → d' = d ∧ ∃ stage, Fails home a d stage f ∧
      ∀ earlier : Stage, earlier.number < stage.number → ∀ f', ¬ Fails home a d earlier f') ∧
    ((∃ d', run home a d = (.ok (), d')) ↔ ∀ stage f, ¬ Fails home a d stage f) ∧
    ∀ d', run home a d = (.ok (), d') → ∃ result location,
      rearranged d.view home a = .ok result ∧ d.target a.output = .ok location ∧
        d'.entry? location = some (.file result.text.toUTF8) ∧
        (∀ other, other ≠ location → d'.entry? other = d.entry? other) ∧
        d'.workingDirectory = d.workingDirectory := by
  rcases run_cases home a d with ⟨stage, f, hrun, hf, hreach⟩ |
    ⟨result, location, hresult, htarget, hrun, hpasses⟩
  · refine ⟨fun f' d' h => ?_, ⟨fun ⟨d', h⟩ => ?_, fun h => ?_⟩, fun d' h => ?_⟩
    · obtain ⟨hff, rfl⟩ := Prod.mk.inj (hrun.symm.trans h)
      obtain rfl := Except.error.inj hff
      exact ⟨rfl, stage, hf, hreach⟩
    · cases hrun.symm.trans h
    · exact absurd hf (h stage f)
    · cases hrun.symm.trans h
  · refine ⟨fun f d' h => ?_, ⟨fun _ => hpasses, fun _ => ⟨_, hrun⟩⟩, fun d' h => ?_⟩
    · cases hrun.symm.trans h
    · obtain ⟨-, rfl⟩ := Prod.mk.inj (hrun.symm.trans h)
      obtain ⟨_, last, here, -, -, -, rfl, -⟩ := Disk.exists_of_target htarget
      refine ⟨result, _, hresult, htarget, Disk.lookup_put_self (by simp), ?_, rfl⟩
      exact fun other hne => Disk.lookup_put_of_ne hne

end LayeredDrawing.Command
