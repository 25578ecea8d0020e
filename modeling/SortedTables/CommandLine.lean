import SortedTables.Capability
import SortedTables.Dump.Stream

/-!
# The dump command

The command takes the path of a table, optionally the hexadecimal bounds of a range, and optionally a
switch that asks for the properties of the table after the dump. Options can stand before and behind
the path; a value follows its option after an equals sign or as the next argument, which must not
look like an option then. Behind two dashes every argument is a path. Anything else is a mistake of
usage, and so is an option given twice or a second path.

Instead of a dump the command can be asked for its description or its version. Arguments are read in
order: what is asked for in this way is granted if no mistake was made before.
-/

namespace SortedTables

/-- What the command was asked to do. -/
structure DumpOptions where
  /-- The path of the table, when it was given. -/
  path : Option String
  /-- The lower bound, when it was given. -/
  lower : Option Key
  /-- The upper bound, when it was given. -/
  upper : Option Key
  /-- Whether to show the properties of the table. -/
  showProperties : Bool
deriving DecidableEq

/-- What the command is asked for. -/
inductive CommandRequest where
  /-- The dump of the table at a path. -/
  | dump (path : String) (options : DumpOptions)
  /-- The description of the command. -/
  | help
  /-- The version of the command. -/
  | version
deriving DecidableEq

namespace DumpOptions

/-- No options. -/
def empty : DumpOptions := ⟨none, none, none, false⟩

/-- An option that takes a bound. -/
inductive BoundOption where
  /-- The lower bound. -/
  | lower
  /-- The upper bound. -/
  | upper
deriving DecidableEq

/-- What an argument is, taken by itself. -/
inductive Argument where
  /-- The switch for the description of the command. -/
  | help
  /-- The switch for the version of the command. -/
  | version
  /-- The two dashes behind which there are no options. -/
  | endOfOptions
  /-- An option for a bound, with its value if that is attached. -/
  | bound (option : BoundOption) (value : Option String)
  /-- The switch for the properties. -/
  | showProperties
  /-- Something that looks like an option but is none. -/
  | unknown
  /-- A path or a value. -/
  | plain (text : String)
deriving DecidableEq

/-- The value of an option, if the argument attaches one to its name. -/
def attached? (name argument : String) : Option String :=
  (DumpLine.after? (name ++ "=").toList argument.toList).map String.ofList

/-- Tells what the letters behind a single dash are. Each of the two switches of one letter ends the
reading of arguments, so the first letter decides. -/
def Argument.classifyLetters : List Char → Argument
  | 'h' :: _ => help
  | 'V' :: _ => version
  | _ => unknown

/-- Tells what an argument is. A single dash is plain. -/
def Argument.classify (argument : String) : Argument :=
  if argument = "--" then endOfOptions
  else if argument = "--help" then help
  else if argument = "--version" then version
  else if argument = "--from" then bound .lower none
  else if argument = "--to" then bound .upper none
  else if argument = "--show-properties" then showProperties
  else
    match attached? "--from" argument, attached? "--to" argument with
    | some value, _ => bound .lower (some value)
    | none, some value => bound .upper (some value)
    | none, none =>
      match argument.toList with
      | '-' :: letter :: letters => classifyLetters (letter :: letters)
      | _ => plain argument

/-- Takes a path, which must not be empty. -/
def setPath (options : DumpOptions) (path : String) : Option DumpOptions :=
  if options.path.isSome ∨ path = "" then none else some { options with path := some path }

/-- Takes the value of a bound. -/
def setBound (options : DumpOptions) (option : BoundOption) (value : String) :
    Option DumpOptions :=
  match Hex.decode? value.toList, option with
  | none, _ => none
  | some bytes, .lower =>
    if options.lower.isSome then none else some { options with lower := some ⟨bytes⟩ }
  | some bytes, .upper =>
    if options.upper.isSome then none else some { options with upper := some ⟨bytes⟩ }

/-- Takes the switch. -/
def setShowProperties (options : DumpOptions) : Option DumpOptions :=
  if options.showProperties then none else some { options with showProperties := true }

/-- What options without more arguments ask for, if there is a path among them. -/
def request (options : DumpOptions) : Option CommandRequest :=
  options.path.map fun path => .dump path options

/-- Reads arguments behind the options read already. -/
def parseAfter (options : DumpOptions) : List String → Option CommandRequest
  | [] => options.request
  | argument :: later =>
    match Argument.classify argument with
    | .help => some .help
    | .version => some .version
    | .endOfOptions => (later.foldlM setPath options).bind request
    | .showProperties => options.setShowProperties.bind (parseAfter · later)
    | .unknown => none
    | .plain path => (options.setPath path).bind (parseAfter · later)
    | .bound option (some value) => (options.setBound option value).bind (parseAfter · later)
    | .bound option none =>
      match later with
      | [] => none
      | value :: later =>
        match Argument.classify value with
        | .plain value => (options.setBound option value).bind (parseAfter · later)
        | _ => none

/-- The range to dump. -/
def range (options : DumpOptions) : KeyRange :=
  .between options.lower options.upper

end DumpOptions

/-- Reads the arguments of the command. -/
def CommandRequest.parse? (arguments : List String) : Option CommandRequest :=
  DumpOptions.empty.parseAfter arguments

/-- How the command ends. -/
inductive CommandEnd where
  /-- It did what it was asked to do; here is what it writes apart from the dump. -/
  | success (notes : String)
  /-- It failed for a reason. -/
  | failure (message : String)
  /-- It was not asked properly. -/
  | usage
deriving DecidableEq

/-- The status that the command ends with. -/
def CommandEnd.status : CommandEnd → Nat
  | success _ => 0
  | failure _ => 1
  | usage => 2

/-- What the command writes, and how it ends. -/
structure CommandRun where
  /-- The dump, as far as it was written, or the text that was asked for instead. -/
  output : Bytes
  /-- How the command ends. -/
  ending : CommandEnd
deriving DecidableEq

/-- The properties of a table in one line. -/
def Table.summary (table : Table) : String :=
  let properties := table.properties
  s!"entries: {properties.entries}, tombstones: {properties.tombstones}, max seq: " ++
    s!"{properties.maxSeq.toNat}, blocks: {table.blockCount}, size: {table.size}\n"

/-- Dumps the table at a path as asked. -/
def DumpOptions.run (options : DumpOptions) (disk : Disk) (path : String) : CommandRun :=
  match disk.dump path options.range with
  | (output, .error fault) => ⟨output, .failure s!"failed to dump {path}: {fault.message}"⟩
  | (output, .ok _) =>
    if options.showProperties then
      match Table.openPath disk path with
      | .error fault => ⟨output, .failure fault.message⟩
      | .ok table => ⟨output, .success table.summary⟩
    else
      ⟨output, .success ""⟩

/-- The description of the command. -/
def CommandRequest.helpText : String :=
  "Merge reader over a set of sorted table files, with an optional tombstone-aware raw scan.\n" ++
  "\n" ++
  "Usage: sst-dump [OPTIONS] <PATH>\n" ++
  "\n" ++
  "Arguments:\n" ++
  "  <PATH>  Table file to dump\n" ++
  "\n" ++
  "Options:\n" ++
  "      --from <FROM>      Hex encoded first key to dump (inclusive)\n" ++
  "      --to <TO>          Hex encoded key to stop at (exclusive)\n" ++
  "      --show-properties  Print the footer properties to stderr once the dump is written\n" ++
  "  -h, --help             Print help\n" ++
  "  -V, --version          Print version\n"

/-- The version of the command. -/
def CommandRequest.versionText : String := "sst-set-reader 0.1.0\n"

/-- The run that only writes a text. -/
def CommandRun.ofText (text : String) : CommandRun :=
  ⟨Utf8.encode text.toList, .success ""⟩

/-- Runs the command with its arguments. -/
def CommandRun.ofArguments (disk : Disk) (arguments : List String) : CommandRun :=
  match CommandRequest.parse? arguments with
  | none => ⟨[], .usage⟩
  | some .help => ofText CommandRequest.helpText
  | some .version => ofText CommandRequest.versionText
  | some (.dump path options) => options.run disk path

/-- What the command does as a tool that scans run, once it was started. -/
def dumpTool (disk : Disk) (arguments : List String) : ToolRun :=
  let run := CommandRun.ofArguments disk arguments
  ⟨run.output, run.ending.status⟩

end SortedTables
