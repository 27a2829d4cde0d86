import LayeredDrawing.Text

/-!
# Files

A `Disk` holds files and directories under their locations, and a working directory from which
paths start. A path is followed name by name; `.` stays in a directory, `..` goes to the one
around it, and every name but the last has to be a directory.

* `Disk.readText` is the text of a file, `Disk.isThere` whether a path leads anywhere.
* `Disk.write` puts a text into a file, which is created if its directory exists. It touches
  no other location.

`FileView` is the view that a program has of files it only reads.
-/

namespace LayeredDrawing

/-- What goes wrong when a file is used. -/
inductive FileError
  | notFound
  | isDirectory
  | notDirectory
  /-- The bytes of a file are no UTF-8 text. -/
  | notText
  /-- Any other reason, as the system gives it. -/
  | other (reason : String)
  deriving DecidableEq, Repr

/-- What the system says about an error. -/
def FileError.message : FileError → String
  | notFound => "No such file or directory (os error 2)"
  | isDirectory => "Is a directory (os error 21)"
  | notDirectory => "Not a directory (os error 20)"
  | notText => "stream did not contain valid UTF-8"
  | other reason => reason

/-- The names on the way from the root. -/
abbrev Location := List String

/-- What is at a location. -/
inductive Entry
  | file (content : ByteArray)
  | directory

/-- Files, directories and a working directory. The root is always a directory. -/
structure Disk where
  entries : List (Location × Entry)
  workingDirectory : Location

namespace Disk

/-- What is at a location, if anything is. -/
def entry? (d : Disk) (location : Location) : Option Entry :=
  if location = [] then some .directory else d.entries.lookup location

/-! ## Paths -/

/-- The names of a path. -/
def names (path : String) : List String :=
  (Text.splitAll '/' path.toList).map String.ofList

/-- The location where a path starts: the root if it begins with a slash. -/
def start (d : Disk) (path : String) : Location :=
  if path.toList.head? = some '/' then [] else d.workingDirectory

/-- The location behind some more names. -/
def walk (d : Disk) (here : Location) : List String → Except FileError Location
  | [] => .ok here
  | name :: rest =>
    match d.entry? here with
    | none => .error .notFound
    | some (.file _) => .error .notDirectory
    | some .directory =>
      if name = "" ∨ name = "." then d.walk here rest
      else if name = ".." then d.walk here.dropLast rest
      else if (d.entry? (here ++ [name])).isNone then .error .notFound
      else d.walk (here ++ [name]) rest

/-- The location that a path leads to. -/
def find (d : Disk) (path : String) : Except FileError Location :=
  if path = "" then .error .notFound else d.walk (d.start path) (names path)

/-- The location of a file that is to be written: its directory has to exist, and a directory
cannot be written. -/
def target (d : Disk) (path : String) : Except FileError Location :=
  let reversed := (names path).reverse
  match reversed.dropWhile (· = "") with
  | [] => if path = "" then .error .notFound else .error .isDirectory
  | last :: before =>
    match d.walk (d.start path) before.reverse with
    | .error e => .error e
    | .ok here =>
      match d.entry? here, d.entry? (here ++ [last]) with
      | none, _ => .error .notFound
      | some (.file _), _ => .error .notDirectory
      | some .directory, some .directory => .error .isDirectory
      | some .directory, _ =>
        if last = "." ∨ last = ".." ∨ reversed.head? = some "" then .error .isDirectory
        else .ok (here ++ [last])

/-! ## Reading and writing -/

/-- A path leads to a file or a directory. -/
def isThere (d : Disk) (path : String) : Bool := (d.find path).toBool

/-- The text of a file. -/
def readText (d : Disk) (path : String) : Except FileError String :=
  match d.find path with
  | .error e => .error e
  | .ok location =>
    match d.entry? location with
    | none => .error .notFound
    | some .directory => .error .isDirectory
    | some (.file content) =>
      match String.fromUTF8? content with
      | some text => .ok text
      | none => .error .notText

/-- The disk with something else at a location. -/
def put (d : Disk) (location : Location) (entry : Entry) : Disk :=
  { d with entries := (location, entry) :: d.entries.filter (·.1 != location) }

/-- The disk with a text in a file, in place of all that was in it. -/
def write (d : Disk) (path text : String) : Except FileError Disk :=
  match d.target path with
  | .error e => .error e
  | .ok location => .ok (d.put location (.file text.toUTF8))

end Disk

/-- The files that a program sees and reads. -/
structure FileView where
  isThere : String → Bool
  readText : String → Except FileError String

/-- The view of a disk. -/
def Disk.view (d : Disk) : FileView := ⟨d.isThere, d.readText⟩

end LayeredDrawing
