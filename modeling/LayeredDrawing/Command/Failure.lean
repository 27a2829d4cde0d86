import LayeredDrawing.Disk
import LayeredDrawing.Error

/-!
# Failures

The reasons for which a run stops, with the message for each of them and a `Diagnostic` that
adds a code and, where the user can do something, a hint.
-/

namespace LayeredDrawing.Command

/-- What goes wrong with the settings of a user. -/
inductive SettingsError
  /-- A file that was named is not there. -/
  | missing (path : String)
  | unreadable (path : String) (error : FileError)
  | malformed (reason : String)
  | invalid (reason : String)
  deriving DecidableEq, Repr

namespace SettingsError

/-- What is said about an error. -/
def message : SettingsError → String
  | missing path => "Missing configuration file: " ++ path
  | unreadable path error =>
    "Failed to read configuration file `" ++ path ++ "`: " ++ error.message
  | malformed reason => "Failed to parse TOML configuration: " ++ reason
  | invalid reason => "Validation error: " ++ reason

end SettingsError

/-- The reasons for which a run stops. -/
inductive Failure
  /-- A file cannot be read or written. -/
  | file (path : String) (error : FileError)
  /-- A file is no JSON text of the right kind. -/
  | json (path reason : String)
  | settings (error : SettingsError)
  | layout (error : LayoutError)
  deriving DecidableEq, Repr

/-- What is said about a failure: a code, a message and perhaps a hint. -/
structure Diagnostic where
  code : String
  message : String
  help : Option String
  deriving DecidableEq, Repr

namespace Failure

/-- The message about a failure. -/
def message : Failure → String
  | file path error => "I/O error on `" ++ path ++ "`: " ++ error.message
  | json path reason => "Invalid diagram JSON in `" ++ path ++ "`: " ++ reason
  | settings error => error.message
  | layout error => error.message

/-- The code of a failure. -/
def code : Failure → String
  | file .. => "stratum::io"
  | json .. => "stratum::json"
  | settings _ => "stratum::config"
  | layout error => if error.isGraphError then "stratum::graph" else "stratum::layout"

/-- The hint for a failure that the user can do something about. -/
def help? : Failure → Option String
  | json .. => some "nodes need an `id`; edges need an `id`, a `source` and a `target`"
  | settings (.missing _) => some "check the path passed to --config"
  | settings (.malformed _) | settings (.invalid _) =>
    some "see the [layout] and [arrange] tables of the configuration"
  | layout (.unknownNode ..) =>
    some "every edge source and target must be the id of a node in the diagram"
  | layout (.duplicateNode _) => some "node ids must be unique"
  | file .. | settings (.unreadable ..) | layout (.invalidOptions _) | layout (.layout _) => none

/-- The diagnostic of a failure. -/
def diagnostic (f : Failure) : Diagnostic := ⟨f.code, f.message, f.help?⟩

end Failure

end LayeredDrawing.Command
