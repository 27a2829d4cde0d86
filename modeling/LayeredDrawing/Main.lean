import LayeredDrawing.Command.Grammar
import LayeredDrawing.Command.Run

/-!
# The program

The command line on the files of the system. All files that a run may read are looked at first
(`Program.look`), so that what is written follows from them by `Command.rearranged`; then the one
file is written. Nothing is decided here that is not decided there.
-/

namespace LayeredDrawing.Program

open Command

/-- The error that the system gives for a file. -/
def fileError : IO.Error → FileError
  | .noFileOrDirectory .. => .notFound
  | .inappropriateType _ _ details =>
    if details.toLower = "is a directory" then .isDirectory else .notDirectory
  | e => .other (toString e)

/-- The text of a file, or why there is none. -/
def readText (path : String) : IO (Except FileError String) := do
  match ← (IO.FS.readBinFile path).toBaseIO with
  | .error e => return .error (fileError e)
  | .ok content =>
    match String.fromUTF8? content with
    | some text => return .ok text
    | none => return .error .notText

/-- The view of the files at some paths. A directory is there although it has no text. -/
def look (paths : List String) : IO FileView := do
  let seen ← paths.mapM fun path => do return (path, ← readText path)
  let found (path : String) : Except FileError String :=
    (seen.lookup path).getD (.error .notFound)
  return {
    isThere := fun path =>
      match found path with
      | .error .notFound | .error .notDirectory => false
      | _ => true
    readText := found }

/-- The paths that a run may read. -/
def pathsOf (home : Option String) (a : Arguments) : List String :=
  let sizes := match a.task with
    | .layout _ _ _ sizes => sizes.toList
    | _ => []
  a.settings.toList ++ localSettings :: (home.map systemSettings).toList ++ a.input :: sizes

/-- The directory for the settings of the system. -/
def settingsHome : IO (Option String) := do
  let home := (← IO.getEnv "HOME").map (· ++ "/.config")
  match ← IO.getEnv "XDG_CONFIG_HOME" with
  | some path => return if path.toList.head? = some '/' then some path else home
  | none => return home

/-- A run on the files of the system. -/
def run (a : Arguments) : IO (Except Failure Unit) := do
  let home ← settingsHome
  let files ← look (pathsOf home a)
  match rearranged files home a with
  | .error f => return .error f
  | .ok document =>
    match ← (IO.FS.writeFile a.output document.text).toBaseIO with
    | .error e => return .error (.file a.output (fileError e))
    | .ok () => return .ok ()

/-! ## Messages -/

/-- How the program is used. -/
def help : String :=
  "Usage: layered-drawing [OPTIONS] <COMMAND>\n\n" ++
  "Commands:\n" ++
  "  layout <INPUT>      compute a layered layout for every node\n" ++
  "  align <INPUT>       align every node on the first node of the list\n" ++
  "  distribute <INPUT>  spread nodes evenly along an axis\n" ++
  "  help                print this text\n\n" ++
  "Options:\n" ++
  "  -c, --config <FILE>    path to the configuration file\n" ++
  "      --log-level <LEVEL>\n" ++
  "  -o, --output <FILE>    path to the output diagram (out.json)\n" ++
  "  -d, --direction <DIR>  layout: TB, BT, LR or RL\n" ++
  "      --node-sep <N>     layout: gap between nodes of the same rank\n" ++
  "      --rank-sep <N>     layout: gap between consecutive ranks\n" ++
  "      --sizes <FILE>     layout: sizes of nodes\n" ++
  "  -a, --axis <AXIS>      align, distribute: horizontal or vertical\n" ++
  "  -s, --spacing <N>      distribute: step between consecutive nodes\n"

/-- What is said about arguments that do not make a run. -/
def usageMessage : UsageError → String
  | .displayHelp | .helpOnMissing => help
  | .displayVersion => "layered-drawing 0.1.0\n"
  | .missingSubcommand => "error: a command is missing\n"
  | .invalidSubcommand => "error: unrecognized command\n"
  | .unknownArgument => "error: unexpected argument\n"
  | .invalidValue => "error: an option lacks its value\n"
  | .valueValidation => "error: invalid value of an option\n"
  | .tooManyValues => "error: unexpected value of an option\n"
  | .missingRequiredArgument => "error: a required argument is missing\n"
  | .argumentConflict => "error: an option is given more than once\n"

/-- What is said about a diagnostic. -/
def diagnosticMessage (d : Diagnostic) : String :=
  d.code ++ ": " ++ d.message ++ "\n" ++
    match d.help with
    | some text => "help: " ++ text ++ "\n"
    | none => ""

/-- What is asked for is no error, and all else about the arguments is one of the user. -/
def usageCode : UsageError → UInt32
  | .displayHelp | .displayVersion => 0
  | _ => 2

/-- Runs the command line and gives the exit code. -/
def start (arguments : List String) : IO UInt32 := do
  match Arguments.parse arguments with
  | .error e =>
    let code := usageCode e
    let stream ← if code = 0 then IO.getStdout else IO.getStderr
    stream.putStr (usageMessage e)
    return code
  | .ok a =>
    match ← run a with
    | .ok () => return 0
    | .error f =>
      (← IO.getStderr).putStr (diagnosticMessage f.diagnostic)
      return 1

end LayeredDrawing.Program

/-- The program. -/
def main (arguments : List String) : IO UInt32 := LayeredDrawing.Program.start arguments
