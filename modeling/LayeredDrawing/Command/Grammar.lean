import LayeredDrawing.Command.Arguments
import LayeredDrawing.Number.Literal

/-!
# The command line

`Arguments.parse` reads the arguments of a run: options for every command, a verb, and then the
file to be read and the options of that verb. The value of an option is the argument behind it
or the rest of its own argument; behind `--` there are no options.

An option is settled, that is, its value is checked, when the next option or the file to be read
begins, or when the arguments end (`Given.settle`). An argument that fits nowhere is reported at
once, before the option that waits is settled.
-/

namespace LayeredDrawing.Command

/-- The reasons for which arguments do not make a run. -/
inductive UsageError
  | displayHelp
  | displayVersion
  /-- There are no arguments at all. -/
  | helpOnMissing
  /-- There is no verb. -/
  | missingSubcommand
  | invalidSubcommand
  | unknownArgument
  /-- An option lacks its value. -/
  | invalidValue
  /-- A value of an option cannot be read. -/
  | valueValidation
  /-- An option without a value has one. -/
  | tooManyValues
  | missingRequiredArgument
  /-- An option is given twice. -/
  | argumentConflict
  deriving DecidableEq, Repr

/-- The options with a value. -/
inductive Flag
  | settings
  | logLevel
  | output
  | direction
  | nodeSep
  | rankSep
  | sizes
  | axis
  | spacing
  deriving DecidableEq, Repr

/-- What an option asks for. -/
inductive Switch
  | value (flag : Flag)
  | help
  | version
  deriving DecidableEq, Repr

/-! ## Names of options -/

/-- An option may stand in the arguments of a verb, or before the verb. -/
def Flag.fits : Flag → Option Verb → Bool
  | settings, _ | logLevel, _ => true
  | output, verb => verb.isSome
  | direction, verb | nodeSep, verb | rankSep, verb | sizes, verb => verb == some .layout
  | axis, verb => verb == some .align || verb == some .distribute
  | spacing, verb => verb == some .distribute

namespace Switch

/-- The option fits if its flag does; help can be asked for anywhere, the version before the
verb. -/
def fits : Switch → Option Verb → Bool
  | value flag, verb => flag.fits verb
  | help, _ => true
  | version, verb => verb.isNone

/-- The option of a long name. -/
def ofLong? : String → Option Switch
  | "config" => some (.value .settings)
  | "log-level" => some (.value .logLevel)
  | "output" => some (.value .output)
  | "direction" => some (.value .direction)
  | "node-sep" => some (.value .nodeSep)
  | "rank-sep" => some (.value .rankSep)
  | "sizes" => some (.value .sizes)
  | "axis" => some (.value .axis)
  | "spacing" => some (.value .spacing)
  | "help" => some help
  | "version" => some version
  | _ => none

/-- The option of a letter. -/
def ofLetter? : Char → Option Switch
  | 'c' => some (.value .settings)
  | 'o' => some (.value .output)
  | 'd' => some (.value .direction)
  | 'a' => some (.value .axis)
  | 's' => some (.value .spacing)
  | 'h' => some help
  | 'V' => some version
  | _ => none

end Switch

/-- An argument by its first characters. -/
inductive Shape
  /-- Two dashes alone. -/
  | escape
  /-- An option with a long name, with or without a value behind an equals sign. -/
  | long (name : String) (value : Option String)
  /-- An option with a letter, and the rest of the argument. -/
  | letter (letter : Char) (rest : List Char)
  /-- Anything else, also a dash alone. -/
  | plain
  deriving DecidableEq, Repr

/-- The shape of an argument. -/
def Shape.of (argument : String) : Shape :=
  match argument.toList with
  | ['-', '-'] => .escape
  | '-' :: '-' :: cs =>
    let (name, value) := Text.splitAtFirst (· == '=') cs
    .long (.ofList name) (value.map String.ofList)
  | '-' :: c :: cs => .letter c cs
  | _ => .plain

/-- The value in the rest of an argument: an equals sign before it does not count. -/
def attachedValue? : List Char → Option String
  | [] => none
  | '=' :: cs => some (.ofList cs)
  | cs => some (.ofList cs)

/-! ## Options that are given -/

/-- The values that are given so far, at most one for each option. -/
structure Given where
  settings : Option String := none
  logLevel : Option String := none
  output : Option String := none
  direction : Option Direction := none
  nodeSep : Option Float32 := none
  rankSep : Option Float32 := none
  sizes : Option String := none
  axis : Option Axis := none
  spacing : Option Float32 := none
  deriving Repr

/-- The value of an option that must not have one yet. -/
def once {β : Type} (old : Option β) (read : String → Option β) (text : String) :
    Except UsageError (Option β) :=
  match old, read text with
  | some _, _ => .error .argumentConflict
  | none, none => .error .valueValidation
  | none, some x => .ok (some x)

/-- The values with one more. -/
def Given.add (g : Given) (flag : Flag) (text : String) : Except UsageError Given := do
  match flag with
  | .settings => return { g with settings := ← once g.settings some text }
  | .logLevel => return { g with logLevel := ← once g.logLevel some text }
  | .output => return { g with output := ← once g.output some text }
  | .direction => return { g with direction := ← once g.direction Direction.parse text }
  | .nodeSep => return { g with nodeSep := ← once g.nodeSep Single.parse? text }
  | .rankSep => return { g with rankSep := ← once g.rankSep Single.parse? text }
  | .sizes => return { g with sizes := ← once g.sizes some text }
  | .axis => return { g with axis := ← once g.axis Axis.parse text }
  | .spacing => return { g with spacing := ← once g.spacing Single.parse? text }

/-- An option that is not settled yet. -/
inductive Waiting
  | nothing
  /-- The value of an option has to follow. -/
  | forValue (flag : Flag)
  /-- The value of an option was read. -/
  | withValue (flag : Flag) (text : String)
  deriving DecidableEq, Repr

/-- The arguments read so far, before the verb or behind it. -/
structure Reading where
  given : Given := {}
  waiting : Waiting := .nothing
  input : Option String := none
  /-- Two dashes were read. -/
  escaped : Bool := false
  deriving Repr

namespace Reading

/-- The values with the option that waits. -/
def settle (r : Reading) : Except UsageError Given :=
  match r.waiting with
  | .nothing => .ok r.given
  | .forValue _ => .error .invalidValue
  | .withValue flag text => r.given.add flag text

/-- An option, with its value if that is in the same argument. -/
def takeFlag (r : Reading) (flag : Flag) (value : Option String) : Except UsageError Reading := do
  let given ← r.settle
  match value with
  | none => return { r with given, waiting := .forValue flag }
  | some text => return { r with given := ← given.add flag text, waiting := .nothing }

/-- An option, with the value in the same argument if there is one. -/
def takeSwitch (r : Reading) (verb : Option Verb) (switch : Option Switch)
    (value : Option String) : Except UsageError Reading := do
  match switch.filter (·.fits verb) with
  | none => throw .unknownArgument
  | some (.value flag) => r.takeFlag flag value
  | some .help =>
    let _ ← r.settle
    throw .displayHelp
  | some .version =>
    let _ ← r.settle
    throw .displayVersion

/-- An argument that is no option: the file to be read, which only a verb has. -/
def takePlain (r : Reading) (verb : Option Verb) (argument : String) :
    Except UsageError Reading := do
  match verb, r.input with
  | none, _ =>
    let isVerb := (Verb.ofName? argument).isSome || argument == "help"
    throw (if r.escaped && isVerb then .unknownArgument else .invalidSubcommand)
  | some _, some _ => throw .unknownArgument
  | some _, none =>
    let given ← r.settle
    return { r with given, waiting := .nothing, input := some argument }

/-- The next argument. -/
def step (verb : Option Verb) (r : Reading) (argument : String) : Except UsageError Reading :=
  if r.escaped then r.takePlain verb argument
  else
    match Shape.of argument with
    | .escape => .ok { r with escaped := true }
    | .long name value =>
      match (Switch.ofLong? name).filter (·.fits verb), value with
      | some .help, some _ | some .version, some _ => .error .tooManyValues
      | switch, value => r.takeSwitch verb switch value
    | .letter c cs => r.takeSwitch verb (Switch.ofLetter? c) (attachedValue? cs)
    | .plain =>
      match r.waiting with
      | .forValue flag => .ok { r with waiting := .withValue flag argument }
      | _ => r.takePlain verb argument

end Reading

/-! ## Arguments -/

/-- The task of a verb with its options. -/
def Given.task (g : Given) : Verb → Except UsageError Task
  | .layout => .ok (.layout g.direction g.nodeSep g.rankSep g.sizes)
  | .align =>
    match g.axis with
    | some axis => .ok (.align axis)
    | none => .error .missingRequiredArgument
  | .distribute =>
    match g.axis with
    | some axis => .ok (.distribute axis g.spacing)
    | none => .error .missingRequiredArgument

/-- The arguments behind a verb: the options there, and the file to be read. -/
def readVerb (verb : Verb) (arguments : List String) :
    Except UsageError (Given × Task × String) := do
  let r ← arguments.foldlM (Reading.step (some verb)) {}
  let given ← r.settle
  match r.input with
  | none => throw .missingRequiredArgument
  | some input => return (given, ← given.task verb, input)

/-- The arguments behind the word `help`, which are to be one verb or none. -/
def readHelp : List String → UsageError
  | [] => .displayHelp
  | [word] =>
    if (Verb.ofName? word).isSome || word == "help" then .displayHelp else .invalidSubcommand
  | _ => .invalidSubcommand

namespace Arguments

/-- The arguments of a run from the options before the verb and those behind it, which go
first. -/
def combine (before behind : Given) (task : Task) (input : String) : Arguments where
  task := task
  input := input
  output := behind.output.getD defaultOutput
  settings := behind.settings <|> before.settings
  logLevel := (behind.logLevel <|> before.logLevel).getD defaultLogLevel

/-- The arguments before the verb and all that follow. -/
def parseOnto (r : Reading) : List String → Except UsageError Arguments
  | [] => do
    let given ← r.settle
    throw (if given.settings.isNone && given.logLevel.isNone then .helpOnMissing
      else .missingSubcommand)
  | argument :: rest => do
    let isValue := match r.waiting with
      | .forValue _ => true
      | _ => false
    if r.escaped || isValue then parseOnto (← r.step none argument) rest
    else
      match Verb.ofName? argument with
      | some verb =>
        let (behind, task, input) ← readVerb verb rest
        return combine (← r.settle) behind task input
      | none =>
        if argument = "help" then throw (readHelp rest)
        else parseOnto (← r.step none argument) rest

/-- The arguments of a run. -/
def parse (arguments : List String) : Except UsageError Arguments := parseOnto {} arguments

end Arguments

end LayeredDrawing.Command
