import SortedTables.Dump.Line
import SortedTables.Table.Basic

/-!
# Faults of reading

Cursors fail for the reasons of `Fault`, and reading a set of files for those of `ReaderFault`. A
malformed dump is a reason of its own on both levels: whatever an operation was doing when it met
one, `ReaderFault.ofFault` reports the malformed dump itself.
-/

namespace SortedTables

/-- What is wrong with a line of a dump, or with the dump at that line. -/
inductive ScanComplaint where
  /-- The line is not valid UTF-8. -/
  | notUtf8
  /-- The line has no end. -/
  | truncatedLine
  /-- The line is no line of a dump. -/
  | line (fault : LineFault)
  /-- There is no line. -/
  | emptyOutput
  /-- The first line is no header. -/
  | missingHeader
  /-- A key does not stand behind the key before it. -/
  | notAscending
  /-- A key does not belong to the range in the header. -/
  | outsideRange
  /-- The trailer states another number of entries than were listed. -/
  | countMismatch (stated listed : Nat)
  /-- Something follows the trailer. -/
  | outputContinues
  /-- A line behind the first is a header. -/
  | unexpectedHeader
  /-- The lines end without a trailer. -/
  | missingTrailer
  /-- The header states another range than the one asked for. -/
  | otherRange (found wanted : KeyRange)
deriving DecidableEq

/-- The wording of a complaint. -/
def ScanComplaint.message : ScanComplaint → String
  | notUtf8 => "output is not valid UTF-8"
  | truncatedLine => "truncated line"
  | line fault => fault.message
  | emptyOutput => "empty output"
  | missingHeader => "missing header"
  | notAscending => "keys are not in ascending order"
  | outsideRange => "key outside the dumped range"
  | countMismatch stated listed =>
    s!"trailer reports {stated} entries but {listed} were listed"
  | outputContinues => "output continues after trailer"
  | unexpectedHeader => "unexpected header"
  | missingTrailer => "output ended without trailer"
  | otherRange found wanted =>
    "dump covers `" ++ String.ofList found.header ++ "`, expected `" ++
      String.ofList wanted.header ++ "`"

/-- The wording of a complaint about a line of the dump of a table. -/
def ScanComplaint.report (path : String) (lineNumber : Nat) (complaint : ScanComplaint) : String :=
  s!"malformed scan output for {path} at line {lineNumber}: {complaint.message}"

/-- What a cursor is asked to do. -/
inductive CursorOperation where
  /-- To go to the next entry. -/
  | advance
  /-- To go to a key. -/
  | seek
  /-- To release what it holds. -/
  | close
deriving DecidableEq

/-- The name of an operation. -/
def CursorOperation.name : CursorOperation → String
  | advance => "advance"
  | seek => "seek"
  | close => "close"

/-- Why an operation on a cursor failed. -/
inductive Fault where
  /-- A block could not be read for its live entries. -/
  | read (path : String) (fault : BlockReadFault)
  /-- A block could not be read for a dump. -/
  | dump (path : String) (fault : BlockReadFault)
  /-- A scan could not go on, because a block could not be read for its dump. -/
  | readDump (path : String) (fault : BlockReadFault)
  /-- A scan met a malformed dump. -/
  | malformed (path : String) (lineNumber : Nat) (complaint : ScanComplaint)
  /-- The tool whose dump was scanned to its end reported a failure. -/
  | toolExit (path : String) (status : Nat)
  /-- A scripted source failed as its script says. -/
  | scripted (name : String) (operation : CursorOperation)
  /-- The cursor has failed before. -/
  | alreadyFailed
deriving DecidableEq

/-- The wording of a fault. -/
def Fault.message : Fault → String
  | read path fault => s!"failed to read {path}: {fault.message}"
  | dump path fault => s!"failed to dump {path}: {fault.message}"
  | readDump path fault =>
    s!"failed to read dump of {path}: failed to dump {path}: {fault.message}"
  | malformed path lineNumber complaint => complaint.report path lineNumber
  | toolExit path status => s!"dump tool for {path} exited with exit status: {status}"
  | scripted name operation => s!"mock {name} failed to {operation.name}"
  | alreadyFailed => "Iterator has already errored"

/-- Why a file could not be opened for reading. -/
inductive SourceFault where
  /-- The file is not a table. -/
  | table (fault : OpenFault)
  /-- The first entry could not be reached. -/
  | position (fault : Fault)
  /-- The dump tool could not be started. -/
  | spawn (tool : String)
deriving DecidableEq

/-- The wording of a fault. -/
def SourceFault.message : SourceFault → String
  | table fault => fault.message
  | position fault => fault.message
  | spawn tool => s!"failed to spawn dump tool {tool}: {IoFault.notFound.message}"

/-- Why reading a set of files failed. -/
inductive ReaderFault where
  /-- A file could not be opened. -/
  | fileOpen (path : String) (cause : SourceFault)
  /-- Tombstones were asked for where they cannot be read. -/
  | capabilityUnavailable
  /-- A scan met a malformed dump. -/
  | malformed (path : String) (lineNumber : Nat) (complaint : ScanComplaint)
  /-- Reading on failed, possibly while the table at a path was brought into position. -/
  | read (positioning : Option String) (cause : Fault)
  /-- The sources of a stream could not be released before they were used up. -/
  | release (cause : Fault)
deriving DecidableEq

namespace ReaderFault

/-- Reports a fault of a cursor, met possibly while the table at a path was brought into position. -/
def ofFault (positioning : Option String) : Fault → ReaderFault
  | .malformed path lineNumber complaint => .malformed path lineNumber complaint
  | fault => .read positioning fault

/-- The wording of a fault. -/
def message : ReaderFault → String
  | fileOpen path cause => s!"failed to open table file {path}: {cause.message}"
  | capabilityUnavailable => "raw tombstone scan is not available"
  | malformed path lineNumber complaint => complaint.report path lineNumber
  | read none cause => s!"failed to read table files: {cause.message}"
  | read (some path) cause =>
    s!"failed to read table files: failed to position {path}: {cause.message}"
  | release cause =>
    s!"failed to release read session before it was fully consumed: {cause.message}"

end ReaderFault

end SortedTables
