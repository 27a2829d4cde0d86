import LayeredDrawing.Command.Arguments
import LayeredDrawing.Command.Failure
import LayeredDrawing.Document
import LayeredDrawing.Layout
import LayeredDrawing.Settings

/-!
# Runs

A run reads settings and a document, rearranges the nodes of the document, and writes it. All
files are read before the one that is written: `rearranged` is the document to be written as a
function of the files that a run sees, and `run` writes it to a disk. So a run that fails
changes nothing, and one that succeeds changes one file.

Settings come from the file that the user names. Without one they come from a file in the
working directory or from one in the directory for the settings of the system, in this order,
and have their defaults if there is neither.
-/

namespace LayeredDrawing.Command

/-! ## Settings -/

/-- The settings file of the working directory. -/
def localSettings : String := "stratum/config.toml"

/-- The settings file in a directory for the settings of the system. -/
def systemSettings (home : String) : String := home ++ "/stratum/config.toml"

/-- The settings of a file. -/
def settingsOf (files : FileView) (path : String) : Except SettingsError Settings :=
  if !files.isThere path then .error (.missing path)
  else
    match files.readText path with
    | .error e => .error (.unreadable path e)
    | .ok text =>
      match Settings.parse? text with
      | none => .error (.malformed "not a table of settings")
      | some s =>
        match s.check with
        | .error f => .error (.invalid f.message)
        | .ok () => .ok s

/-- The file that settings are read from, if there is one. -/
def settingsPath? (files : FileView) (home : Option String) (named : Option String) :
    Option String :=
  match named with
  | some path => some path
  | none => (localSettings :: (home.map systemSettings).toList).find? files.isThere

/-- The settings of a run. -/
def loadSettings (files : FileView) (home : Option String) (named : Option String) :
    Except SettingsError Settings :=
  match settingsPath? files home named with
  | some path => settingsOf files path
  | none => .ok .default

/-! ## Documents -/

/-- What a JSON text in a file stands for. -/
def readJson {β : Type} (files : FileView) (parse? : String → Option β) (path : String) :
    Except Failure β :=
  match files.readText path with
  | .error e => .error (.file path e)
  | .ok text =>
    match parse? text with
    | none => .error (.json path "not a document of the expected kind")
    | some x => .ok x

/-- The sizes in a file, if one is named. -/
def readSizes (files : FileView) : Option String → Except Failure (Option (SizeMap Float32))
  | none => .ok none
  | some path =>
    match readJson files (fun text => (Json.Tree.parse? text).bind SizeMap.ofTree?) path with
    | .error f => .error f
    | .ok sizes => .ok (some sizes)

/-- The options of a layout: what the user gives goes before the settings. -/
def effectiveOptions (s : Settings) (direction : Option Direction)
    (nodeSep rankSep : Option Float32) : Options Float32 :=
  { s.layout with
    direction := direction.getD s.layout.direction
    nodeSep := nodeSep.getD s.layout.nodeSep
    rankSep := rankSep.getD s.layout.rankSep }

/-- The nodes of a document after a task. -/
def Task.nodes (files : FileView) (s : Settings) (d : Document) :
    Task → Except Failure (List EditorNode)
  | .layout direction nodeSep rankSep sizes =>
    match readSizes files sizes with
    | .error f => .error f
    | .ok sizes =>
      let o := effectiveOptions s direction nodeSep rankSep
      match Layout.compute o d.nodes d.diagramEdges sizes with
      | .error e => .error (.layout e)
      | .ok l => .ok l.nodes
  | .align axis => .ok (alignNodes d.nodes axis)
  | .distribute axis spacing => .ok (distributeNodes d.nodes axis (spacing.getD s.spacing))

/-- The document that a run writes. -/
def rearranged (files : FileView) (home : Option String) (a : Arguments) :
    Except Failure Document :=
  match loadSettings files home a.settings with
  | .error e => .error (.settings e)
  | .ok s =>
    match readJson files Document.parse? a.input with
    | .error f => .error f
    | .ok d =>
      match a.task.nodes files s d with
      | .error f => .error f
      | .ok nodes => .ok (d.withNodes nodes)

/-! ## Runs -/

/-- A run on a disk, with the disk that it leaves. -/
def run (home : Option String) (a : Arguments) (d : Disk) : Except Failure Unit × Disk :=
  match rearranged d.view home a with
  | .error f => (.error f, d)
  | .ok document =>
    match d.write a.output document.text with
    | .error e => (.error (.file a.output e), d)
    | .ok d => (.ok (), d)

end LayeredDrawing.Command
