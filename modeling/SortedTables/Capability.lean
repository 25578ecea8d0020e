import SortedTables.Disk

/-!
# Reading tombstones

Tombstones are read from dumps. Whether that is allowed, and who makes the dumps, is a capability: the
library itself, or a dump tool that is run for each table. Settings switch the capability on by one
of three words, and name a tool, which must be there.
-/

namespace SortedTables

/-- Whether and how raw dumps of tables can be had. -/
inductive Capability where
  /-- There are no dumps. -/
  | unavailable
  /-- Dumps are made by this library. -/
  | inProcess
  /-- Dumps are made by a tool. -/
  | external (tool : String)
deriving DecidableEq

/-- What a tool did: what it wrote, and the status it ended with, which is zero for success. -/
structure ToolRun where
  /-- What the tool wrote. -/
  output : Bytes
  /-- The status it ended with. -/
  status : Nat
deriving DecidableEq

/-- A program that is run on the files of a directory with a list of arguments, if it can be started with
them: a system can refuse that, for example if they are too long. -/
abbrev Tool : Type := Disk → List String → Option ToolRun

/-- The surroundings of a reader: the files, the tools that can be run, and the capability that was
found for the whole process. -/
structure Host where
  /-- The files. -/
  disk : Disk
  /-- The tools by name. -/
  tool? : String → Option Tool
  /-- The capability of readers that are not given one. -/
  detected : Capability

/-- Runs the tool of a name with arguments, if there is one and it can be started with them. -/
def Host.run? (host : Host) (tool : String) (arguments : List String) : Option ToolRun :=
  (host.tool? tool).bind fun run? => run? host.disk arguments

namespace Capability

/-- Whether a character is white space, in the sense of the Unicode property of that name. -/
def isBlank (c : Char) : Bool :=
  let n := c.toNat
  (0x09 ≤ n && n ≤ 0x0D) || n = 0x20 || n = 0x85 || n = 0xA0 || n = 0x1680 ||
    (0x2000 ≤ n && n ≤ 0x200A) || n = 0x2028 || n = 0x2029 || n = 0x202F || n = 0x205F ||
    n = 0x3000

/-- A text without the white space around it. -/
def trim (text : List Char) : List Char :=
  ((text.dropWhile isBlank).reverse.dropWhile isBlank).reverse

/-- The words that switch the capability on, whatever the case of their letters. -/
def enablingWords : List String := ["1", "true", "on"]

/-- Whether a setting switches the capability on. -/
def isEnabling (setting : String) : Bool :=
  enablingWords.contains (String.ofList ((trim setting.toList).map Char.toLower))

/-- The capability that settings ask for. An empty tool is the same as none; a tool that is not there
makes the capability unavailable. -/
def ofSettings (disk : Disk) (enabled tool : Option String) : Capability :=
  if enabled.any isEnabling then
    match tool with
    | none | some "" => inProcess
    | some tool => if disk.hasFile tool then external tool else unavailable
  else
    unavailable

/-- Whether dumps can be had at all. -/
def isAvailable : Capability → Bool
  | unavailable => false
  | inProcess | external _ => true

end Capability

end SortedTables
