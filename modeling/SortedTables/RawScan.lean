import SortedTables.Capability
import SortedTables.Cursor.Basic
import SortedTables.Dump.Stream

/-!
# Scanning a dump

The way to see tombstones: a cursor over the entries of a dump, which it reads line by line and does
not trust. The first line must be the header; keys must ascend and belong to the range of the header;
the trailer must state how many entries there were, and nothing may follow it. Only then is the scan
finished. The first complaint ends the scan: it shows no entry any more and never finishes.

The dump comes from this library, which renders it while it is scanned, or from a tool. A tool is
believed only if it states the range it was asked for, and if it reports success at the end.
-/

namespace SortedTables

/-- Where a scan takes its lines from. -/
inductive LineSource where
  /-- The rest of a text. -/
  | text (rest : Bytes)
  /-- A dump that is rendered while it is read. -/
  | dump (stream : DumpStream)
deriving DecidableEq

namespace LineSource

/-- The byte that ends a line. -/
def newline : UInt8 := 0x0A

/-- The first line of a text with its end, if it has one, and what follows. -/
def takeLine (text : Bytes) : Bytes × Bytes :=
  match text.dropWhile (· != newline) with
  | [] => (text, [])
  | ending :: rest => (text.takeWhile (· != newline) ++ [ending], rest)

/-- Reads a line, unless there is none. -/
def readLine (disk : Disk) : LineSource → Except BlockReadFault (Option Bytes) × LineSource
  | text [] => (.ok none, text [])
  | text (byte :: rest) =>
    let (line, rest) := takeLine (byte :: rest)
    (.ok (some line), text rest)
  | dump stream =>
    let (line?, stream) := stream.readLine disk
    (line?, dump stream)

/-- A bound on the lines that can still be read. -/
def linesLeft : LineSource → Nat
  | text rest => rest.length
  | dump stream => stream.linesLeft

/-- Reading a line leaves fewer of them. -/
theorem linesLeft_readLine_lt {disk : Disk} {source after : LineSource} {line : Bytes}
    (found : source.readLine disk = (.ok (some line), after)) :
    after.linesLeft < source.linesLeft := by
  unfold readLine at found
  split at found
  · simp at found
  · next byte rest =>
    have shorter := (List.dropWhile_suffix (· != newline) (l := byte :: rest)).length_le
    simp only [takeLine, Prod.mk.injEq] at found
    rw [← found.2]
    split
    · simp [linesLeft]
    · next dropped =>
      rw [dropped] at shorter
      simp only [linesLeft, List.length_cons] at shorter ⊢
      omega
  · next stream =>
    simp only [Prod.mk.injEq] at found
    rw [← found.2]
    exact DumpStream.linesLeft_readLine_lt (Prod.ext found.1 rfl)

end LineSource

/-- A cursor over the entries of a dump. -/
structure RawScan where
  /-- The path of the table. -/
  path : String
  /-- Where the lines come from. -/
  source : LineSource
  /-- The status of the tool that made the dump, until the tool is released. -/
  tool : Option Nat
  /-- The range that the header states. -/
  range : KeyRange
  /-- The number of the last line that was read. -/
  lineNumber : Nat
  /-- The current entry. -/
  current : Option Entry
  /-- The key of the last entry. -/
  lastKey : Option Key
  /-- The number of entries. -/
  listed : Nat
  /-- Whether the trailer was read and found right. -/
  finished : Bool
deriving DecidableEq

namespace RawScan

/-- The line that bytes stand for. -/
def decodeLine (bytes : Bytes) : Except ScanComplaint DumpLine :=
  match Utf8.decode? bytes with
  | none => .error .notUtf8
  | some line =>
    if line.getLast? = some '\n' then (DumpLine.parse line).mapError .line
    else .error .truncatedLine

/-- Complains about the last line. -/
def complaint (scan : RawScan) (complaint : ScanComplaint) : Fault :=
  .malformed scan.path scan.lineNumber complaint

/-- Reads a line, unless there is none. -/
def readLine (disk : Disk) (scan : RawScan) : Except Fault (Option DumpLine) × RawScan :=
  match scan.source.readLine disk with
  | (.error fault, source) => (.error (.readDump scan.path fault), { scan with source })
  | (.ok none, source) => (.ok none, { scan with source })
  | (.ok (some bytes), source) =>
    let scan := { scan with source, lineNumber := scan.lineNumber + 1 }
    match decodeLine bytes with
    | .error reason => (.error (scan.complaint reason), scan)
    | .ok line => (.ok (some line), scan)

/-- Takes an entry, if its key stands behind the last one and belongs to the range. -/
def acceptEntry (scan : RawScan) (entry : Entry) : Step RawScan Fault :=
  if scan.lastKey.any (entry.key ≤ ·) then
    .failed scan (scan.complaint .notAscending)
  else if scan.range.contains entry.key then
    .done
      { scan with
        current := some entry
        lastKey := some entry.key
        listed := scan.listed + 1 }
  else
    .failed scan (scan.complaint .outsideRange)

/-- Finishes the scan, if the trailer states the number of entries and nothing follows it. -/
def acceptTrailer (disk : Disk) (scan : RawScan) (stated : Nat) : Step RawScan Fault :=
  if stated = scan.listed then
    match scan.readLine disk with
    | (.error fault, scan) => .failed scan fault
    | (.ok (some _), scan) => .failed scan (scan.complaint .outputContinues)
    | (.ok none, scan) => .done { scan with finished := true }
  else
    .failed scan (scan.complaint (.countMismatch stated scan.listed))

/-- Goes to the entry on the next line, or finishes. -/
def advance (disk : Disk) (scan : RawScan) : Step RawScan Fault :=
  match { scan with current := none }.readLine disk with
  | (.error fault, scan) => .failed scan fault
  | (.ok (some (.entry entry)), scan) => scan.acceptEntry entry
  | (.ok (some (.trailer stated)), scan) => scan.acceptTrailer disk stated
  | (.ok (some (.header _)), scan) => .failed scan (scan.complaint .unexpectedHeader)
  | (.ok none, scan) => .failed scan (scan.complaint .missingTrailer)

/-- Reads the header. -/
def readHeader (disk : Disk) (scan : RawScan) : Step RawScan Fault :=
  match scan.readLine disk with
  | (.error fault, scan) => .failed scan fault
  | (.ok (some (.header range)), scan) => .done { scan with range }
  | (.ok none, scan) => .failed scan (scan.complaint .emptyOutput)
  | (.ok (some _), scan) => .failed scan (scan.complaint .missingHeader)

/-- The scan of a dump of which nothing was read. -/
def ofSource (path : String) (source : LineSource) (tool : Option Nat) : RawScan where
  path
  source
  tool
  range := .all
  lineNumber := 0
  current := none
  lastKey := none
  listed := 0
  finished := false

/-- Starts a scan: reads the header and goes to the first entry. -/
def start (disk : Disk) (path : String) (source : LineSource) (tool : Option Nat) :
    Except ReaderFault RawScan :=
  let step := ((ofSource path source tool).readHeader disk).andThen (advance disk)
  match step.fault with
  | some fault => .error (.ofFault none fault)
  | none => .ok step.state

/-- The arguments that ask a tool for the dump of a table within a range. -/
def toolArguments (path : String) (range : KeyRange) : List String :=
  let option (name : String) : Option Key → List String
    | none => []
    | some key => [name ++ String.ofList (Hex.encode key.bytes)]
  option "--from=" range.lower ++ option "--to=" range.upper ++ [path]

/-- Runs a tool on a table. The table is opened first, since a tool can report a bad file only by its
status. -/
def runTool (host : Host) (path tool : String) (range : KeyRange) : Except SourceFault ToolRun :=
  match Table.openPath host.disk path with
  | .error fault => .error (.table fault)
  | .ok _ =>
    match host.run? tool (toolArguments path range) with
    | none => .error (.spawn tool)
    | some run => .ok run

/-- Scans the table that a path stands for within a range, whatever range the dump states. -/
def openAny (host : Host) (capability : Capability) (path : String) (range : KeyRange) :
    Except ReaderFault RawScan :=
  match capability with
  | .unavailable => .error .capabilityUnavailable
  | .inProcess =>
    match Table.openPath host.disk path with
    | .error fault => .error (.fileOpen path (.table fault))
    | .ok table => start host.disk path (.dump (.ofTable table range)) none
  | .external tool =>
    match runTool host path tool range with
    | .error fault => .error (.fileOpen path fault)
    | .ok run => start host.disk path (.text run.output) (some run.status)

/-- Scans the table that a path stands for within a range, which the dump must state. -/
def openPath (host : Host) (capability : Capability) (path : String) (range : KeyRange) :
    Except ReaderFault RawScan :=
  match openAny host capability path range with
  | .error fault => .error fault
  | .ok scan =>
    if scan.range = range then .ok scan
    else .error (.malformed path 1 (.otherRange scan.range range))

/-- What the scan shows. -/
def view (scan : RawScan) : View :=
  match scan.current with
  | none => .blank
  | some entry => .ofEntry entry

/-- Goes to the next entry, unless there is no current one. -/
def next (disk : Disk) (scan : RawScan) : Step RawScan Fault :=
  if scan.current.isSome then scan.advance disk else .done scan

/-- Ends the scan. A tool that is still at work is stopped, and its status does not count; one whose
dump was scanned to its end must have reported success. -/
def close (scan : RawScan) : Step RawScan Fault :=
  let closed := { scan with current := none, source := .text [], tool := none }
  match scan.tool with
  | none => .done closed
  | some status =>
    if scan.finished ∧ status ≠ 0 then .failed closed (.toolExit scan.path status)
    else .done closed

/-- Reading a line that is one of a dump leaves fewer of them. -/
theorem linesLeft_readLine_lt {disk : Disk} {scan after : RawScan} {line : DumpLine}
    (found : scan.readLine disk = (.ok (some line), after)) :
    after.source.linesLeft < scan.source.linesLeft := by
  unfold readLine at found
  split at found
  · simp at found
  · simp at found
  · next bytes source read =>
    split at found
    · simp at found
    · simp only [Prod.mk.injEq] at found
      rw [← found.2]
      exact LineSource.linesLeft_readLine_lt read

/-- Reading a line does not touch the current entry. -/
theorem current_readLine (disk : Disk) (scan : RawScan) :
    (scan.readLine disk).2.current = scan.current := by
  unfold readLine
  split
  · rfl
  · rfl
  · dsimp only
    split <;> rfl

/-- Going to an entry reads a line. -/
theorem linesLeft_advance_lt {disk : Disk} {scan : RawScan}
    (reached : (scan.advance disk).state.current.isSome = true)
    (moved : (scan.advance disk).fault = none) :
    (scan.advance disk).state.source.linesLeft < scan.source.linesLeft := by
  unfold advance at reached moved ⊢
  split
  · next read => simp [read] at moved
  · next entry after read =>
    have fewer := linesLeft_readLine_lt read
    simp only [read] at moved ⊢
    unfold acceptEntry at moved ⊢
    split
    · simp_all
    · split
      · exact fewer
      · simp_all
  · next stated after read =>
    have lost : after.current = none := by
      simpa [read] using current_readLine disk { scan with current := none }
    simp only [read, acceptTrailer] at reached moved
    split at reached
    · next same =>
      have kept := current_readLine disk after
      rw [if_pos same] at moved
      split at reached
      · simp_all
      · simp_all
      · simp_all
    · next other => simp [other] at moved
  · next read => simp [read] at moved
  · next read => simp [read] at moved

/-- Goes to the first entry whose key is not below the given one, reading all lines up to it. -/
def seek (disk : Disk) (key : Key) (scan : RawScan) : Step RawScan Fault :=
  if scan.current.any (·.key < key) then
    let step := scan.advance disk
    if _moved : step.fault = none ∧ step.state.current.isSome then seek disk key step.state
    else step
  else
    .done scan
termination_by scan.source.linesLeft
decreasing_by exact linesLeft_advance_lt _moved.2 _moved.1

instance : Cursor RawScan where
  view := view
  next := next
  seek := seek
  close := close
  active _ := 1
  budget scan := scan.source.linesLeft
  budget_next_lt := by
    intro disk scan moved valid
    have shown (scan : RawScan) (valid : scan.view.valid = true) : scan.current.isSome = true := by
      cases current : scan.current with
      | none => simp [view, current, View.blank] at valid
      | some _ => rfl
    unfold next at moved valid ⊢
    by_cases standing : scan.current.isSome = true
    · simp only [standing, if_true] at moved valid ⊢
      exact linesLeft_advance_lt (shown _ valid) moved
    · simp only [standing, Bool.false_eq_true, if_false, Step.state_done] at valid
      exact absurd (shown _ valid) standing

end RawScan

end SortedTables
