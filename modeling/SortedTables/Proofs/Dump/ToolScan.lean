import SortedTables.Proofs.Cursor.Calls
import SortedTables.Proofs.Dump.Command
import SortedTables.Proofs.Dump.Lossless

/-!
# Scanning through a tool

The library renders a dump while it is scanned; the dump command writes all of it before the scan
starts. A scan cannot be told by its steps from one of the other kind: `openPath_dumpTool` says so of
any table, whatever is in its blocks, if the command can be started with the arguments that ask for the
range (`IsDumpTool`).

The two scans differ in nothing but the source of their lines and the tool. They read the same lines.
Where a block cannot be read, the one meets a fault and the other the end of the text, but this is a
fault too as no trailer was read before. And the command reports success where a trailer was written,
so closing a finished scan does not fail.
-/

namespace SortedTables

namespace RawScan

open Cursor LineSource

variable {disk : Disk} {scan own other : RawScan} {lines : List DumpLine}
  {ending : Option BlockReadFault} {status : Nat}

/-- The scan that stands where another one does, but reads the text of a tool. -/
def throughTool (scan : RawScan) (lines : List DumpLine) (status : Nat) : RawScan :=
  { scan with source := .text (lines.flatMap DumpLine.bytes), tool := some status }

/-- Lines are those that a source gives, and a status is that of a tool that has written them: it is
success if nothing is missing. If something is, there is no trailer among them. -/
structure Written (disk : Disk) (source : LineSource) (lines : List DumpLine)
    (ending : Option BlockReadFault) (status : Nat) : Prop where
  /-- The source gives the lines. -/
  gives : Gives disk source lines ending
  /-- Without a fault the tool reports success. -/
  succeeded : ending = none → status = 0
  /-- A trailer stands among the lines only if there is no fault. -/
  complete : ∀ line ∈ lines, ∀ count, decodeLine line.bytes = .ok (.trailer count) → ending = none

/-- What reading a line gives to a scan, and to the one that stands there through a tool. -/
inductive ReadAlike (disk : Disk) (scan : RawScan) (ending : Option BlockReadFault)
    (status : Nat) : Except Fault (Option DumpLine) × RawScan →
      Except Fault (Option DumpLine) × RawScan → Prop where
  /-- Both refuse the line. -/
  | refused {fault : Fault} {after : LineSource} {number : Nat} {later : List DumpLine} :
      ReadAlike disk scan ending status
        (.error fault, { scan with source := after, lineNumber := number })
        (.error fault, throughTool { scan with source := after, lineNumber := number } later status)
  /-- A block cannot be read, and the text of the tool is over. -/
  | cutOff {fault : Fault} {after : LineSource} {number : Nat} {later : List DumpLine}
      (failed : ending ≠ none) :
      ReadAlike disk scan ending status
        (.error fault, { scan with source := after, lineNumber := number })
        (.ok none, throughTool { scan with source := after, lineNumber := number } later status)
  /-- There is no line any more for both. -/
  | ended {after : LineSource} {number : Nat} {later : List DumpLine} :
      ReadAlike disk scan ending status
        (.ok none, { scan with source := after, lineNumber := number })
        (.ok none, throughTool { scan with source := after, lineNumber := number } later status)
  /-- Both read a line. -/
  | line {line : DumpLine} {after : LineSource} {number : Nat} {later : List DumpLine}
      (written : Written disk after later ending status)
      (complete : ∀ count, line = .trailer count → ending = none) :
      ReadAlike disk scan ending status
        (.ok (some line), { scan with source := after, lineNumber := number })
        (.ok (some line),
          throughTool { scan with source := after, lineNumber := number } later status)

/-- A scan and the one through a tool read alike. -/
theorem readLine_alike (written : Written disk scan.source lines ending status) :
    ReadAlike disk scan ending status (scan.readLine disk)
      ((scan.throughTool lines status).readLine disk) := by
  obtain ⟨gives, succeeded, complete⟩ := written
  cases gives with
  | @atEnd _ after read =>
    let behind : RawScan := { scan with source := after, lineNumber := scan.lineNumber }
    have fromOwn : scan.readLine disk = (.ok none, behind) := by simp [readLine, read, behind]
    have fromTool : (scan.throughTool [] status).readLine disk =
        (.ok none, behind.throughTool [] status) := rfl
    rw [fromOwn, fromTool]
    exact .ended
  | @fails _ after fault read =>
    let behind : RawScan := { scan with source := after, lineNumber := scan.lineNumber }
    have fromOwn : scan.readLine disk = (.error (.readDump scan.path fault), behind) := by
      simp [readLine, read, behind]
    have fromTool : (scan.throughTool [] status).readLine disk =
        (.ok none, behind.throughTool [] status) := rfl
    rw [fromOwn, fromTool]
    exact .cutOff (by simp)
  | @line _ after line later _ read rest =>
    have fromText := readLine_text disk line (later.flatMap DumpLine.bytes)
    have isText : (scan.throughTool (line :: later) status).source =
        .text (line.bytes ++ later.flatMap DumpLine.bytes) := rfl
    simp only [readLine, read, isText, fromText]
    cases decoded : decodeLine line.bytes with
    | error reason => exact .refused
    | ok found =>
      refine .line ⟨rest, succeeded, ?_⟩ ?_
      · exact fun other member => complete other (List.mem_cons_of_mem _ member)
      · rintro count rfl
        exact complete line List.mem_cons_self count decoded

/-- A scan of a dump that is rendered while it is read and one through a tool stand at the same place,
or both were closed. -/
inductive Alike (disk : Disk) : RawScan → RawScan → Prop where
  | goesOn {scan : RawScan} {lines : List DumpLine} {status : Nat} (noTool : scan.tool = none)
      (succeeded : scan.finished = true → status = 0)
      (written : scan.current ≠ none → ∃ ending, Written disk scan.source lines ending status) :
      Alike disk scan (scan.throughTool lines status)
  | closed {scan : RawScan} (noTool : scan.tool = none) (spent : scan.current = none) :
      Alike disk scan scan

/-- Two steps both succeed or both fail, and lead to the same place. -/
structure StepsAlike (disk : Disk) (own other : Step RawScan Fault) : Prop where
  /-- They fail together. -/
  fault : other.fault.isSome = own.fault.isSome
  /-- They lead to the same place. -/
  state : Alike disk own.state other.state

section Advancing

variable {fault otherFault : Fault} {entry : Entry} {stated : Nat} (noTool : scan.tool = none)
  (succeeded : scan.finished = true → status = 0)

include noTool succeeded

/-- Steps that fail at the same place, where there is no current entry. -/
theorem stepsAlike_of_failed (spent : scan.current = none) :
    StepsAlike disk (.failed scan fault) (.failed (scan.throughTool lines status) otherFault) :=
  ⟨rfl, .goesOn noTool succeeded fun standing => absurd spent standing⟩

/-- An entry is accepted or refused by both. -/
theorem acceptEntry_alike (spent : scan.current = none)
    (written : Written disk scan.source lines ending status) :
    StepsAlike disk (scan.acceptEntry entry)
      ((scan.throughTool lines status).acceptEntry entry) := by
  have sameLast : (scan.throughTool lines status).lastKey = scan.lastKey := rfl
  have sameRange : (scan.throughTool lines status).range = scan.range := rfl
  unfold acceptEntry
  rw [sameLast, sameRange]
  split
  · exact stepsAlike_of_failed noTool succeeded spent
  · split
    · exact ⟨rfl, .goesOn noTool succeeded fun _ => ⟨ending, written⟩⟩
    · exact stepsAlike_of_failed noTool succeeded spent

/-- A trailer is accepted or refused by both. -/
theorem acceptTrailer_alike (spent : scan.current = none)
    (written : Written disk scan.source lines none status) :
    StepsAlike disk (scan.acceptTrailer disk stated)
      ((scan.throughTool lines status).acceptTrailer disk stated) := by
  have sameListed : (scan.throughTool lines status).listed = scan.listed := rfl
  have read := readLine_alike written
  unfold acceptTrailer
  rw [sameListed]
  split
  · generalize scan.readLine disk = fromOwn at read ⊢
    generalize (scan.throughTool lines status).readLine disk = fromTool at read ⊢
    cases read with
    | refused => exact stepsAlike_of_failed noTool succeeded spent
    -- Behind a trailer the source has no fault, so that both find the end or both a line.
    | cutOff failed => exact absurd rfl failed
    | ended =>
      exact ⟨rfl, .goesOn noTool (fun _ => written.succeeded rfl) fun standing =>
        absurd spent standing⟩
    | line => exact stepsAlike_of_failed noTool succeeded spent
  · exact stepsAlike_of_failed noTool succeeded spent

/-- What a scan that advances makes of what it got from reading a line. -/
def proceed (disk : Disk) : Except Fault (Option DumpLine) × RawScan → Step RawScan Fault
  | (.error fault, scan) => .failed scan fault
  | (.ok (some (.entry entry)), scan) => scan.acceptEntry entry
  | (.ok (some (.trailer stated)), scan) => scan.acceptTrailer disk stated
  | (.ok (some (.header _)), scan) => .failed scan (scan.complaint .unexpectedHeader)
  | (.ok none, scan) => .failed scan (scan.complaint .missingTrailer)

/-- Advancing leads both to the same place. -/
theorem advance_alike (written : Written disk scan.source lines ending status) :
    StepsAlike disk (scan.advance disk) ((scan.throughTool lines status).advance disk) := by
  let cleared : RawScan := { scan with current := none }
  have read : ReadAlike disk cleared ending status (cleared.readLine disk)
      ((cleared.throughTool lines status).readLine disk) := readLine_alike written
  change StepsAlike disk (proceed disk (cleared.readLine disk))
    (proceed disk ((cleared.throughTool lines status).readLine disk))
  generalize cleared.readLine disk = fromOwn at read ⊢
  generalize (cleared.throughTool lines status).readLine disk = fromTool at read ⊢
  cases read with
  | refused => exact stepsAlike_of_failed noTool succeeded rfl
  | cutOff => exact stepsAlike_of_failed noTool succeeded rfl
  | ended => exact stepsAlike_of_failed noTool succeeded rfl
  | @line line after number later written complete =>
    cases line with
    | header range => exact stepsAlike_of_failed noTool succeeded rfl
    | entry entry => exact acceptEntry_alike noTool succeeded rfl written
    | trailer stated =>
      obtain rfl := complete stated rfl
      exact acceptTrailer_alike noTool succeeded rfl written

end Advancing

/-- Both have the same current entry. -/
theorem Alike.current_eq (alike : Alike disk own other) : other.current = own.current := by
  cases alike <;> rfl

/-- Both are finished or not. -/
theorem Alike.finished_eq (alike : Alike disk own other) : other.finished = own.finished := by
  cases alike <;> rfl

/-- Both have read the same range. -/
theorem Alike.range_eq (alike : Alike disk own other) : other.range = own.range := by
  cases alike <;> rfl

/-- One step succeeds if the other one does. -/
theorem StepsAlike.fault_eq_none_iff {step otherStep : Step RawScan Fault}
    (steps : StepsAlike disk step otherStep) : otherStep.fault = none ↔ step.fault = none := by
  rw [← Option.not_isSome_iff_eq_none, steps.fault, Option.not_isSome_iff_eq_none]

/-- One step succeeds and leads to an entry if the other one does. -/
theorem StepsAlike.moved_iff {step otherStep : Step RawScan Fault}
    (steps : StepsAlike disk step otherStep) :
    (otherStep.fault = none ∧ otherStep.state.current.isSome = true) ↔
      (step.fault = none ∧ step.state.current.isSome = true) := by
  rw [steps.state.current_eq, steps.fault_eq_none_iff]

namespace Alike

/-- From a current entry both advance to the same place. -/
theorem advance (alike : Alike disk own other) (standing : own.current ≠ none) :
    StepsAlike disk (own.advance disk) (other.advance disk) := by
  cases alike with
  | goesOn noTool succeeded written =>
    obtain ⟨ending, written⟩ := written standing
    exact advance_alike noTool succeeded written
  | closed _ spent => exact absurd spent standing

/-- Both go on to the same place. -/
theorem next (alike : Alike disk own other) :
    StepsAlike disk (RawScan.next disk own) (RawScan.next disk other) := by
  unfold RawScan.next
  rw [alike.current_eq]
  split
  · next standing => exact alike.advance (Option.isSome_iff_ne_none.mp standing)
  · exact ⟨rfl, alike⟩

/-- Both seek the same place. -/
theorem seek (key : Key) (alike : Alike disk own other) :
    StepsAlike disk (RawScan.seek disk key own) (RawScan.seek disk key other) := by
  have standing {scan : RawScan} (below : (scan.current.any fun entry => entry.key < key) = true) :
      scan.current ≠ none := by
    rintro spent
    simp [spent] at below
  -- The induction follows the one scan; the other one takes the same branch at each entry.
  fun_induction RawScan.seek disk key own generalizing other with
  | case1 own below step moved =>
    rename_i onward
    have steps := alike.advance (standing below)
    have moves : RawScan.seek disk key other =
        RawScan.seek disk key (other.advance disk).state := by
      rw [RawScan.seek, alike.current_eq, if_pos below]
      exact dif_pos (steps.moved_iff.mpr moved)
    rw [moves]
    exact onward steps.state
  | case2 own below step =>
    rename_i stays
    have steps := alike.advance (standing below)
    have stops : RawScan.seek disk key other = other.advance disk := by
      rw [RawScan.seek, alike.current_eq, if_pos below]
      exact dif_neg fun moved => stays (steps.moved_iff.mp moved)
    rw [stops]
    exact steps
  | case3 own reached =>
    have stays : RawScan.seek disk key other = .done other := by
      rw [RawScan.seek, alike.current_eq, if_neg reached]
    rw [stays]
    exact ⟨rfl, alike⟩

/-- Both are closed, and neither fails. -/
theorem close (alike : Alike disk own other) :
    StepsAlike disk (RawScan.close own) (RawScan.close other) ∧
      (RawScan.close own).fault = none := by
  cases alike with
  | @goesOn lines status noTool succeeded written =>
    have fine : ¬ (own.finished = true ∧ status ≠ 0) := fun failed => failed.2 (succeeded failed.1)
    have isOwn : RawScan.close own = .done { own with
        current := none, source := .text [], tool := none } := by
      simp only [RawScan.close, noTool]
    have isOther : RawScan.close (own.throughTool lines status) = .done { own with
        current := none, source := .text [], tool := none } := if_neg fine
    rw [isOwn, isOther]
    exact ⟨⟨rfl, .closed rfl rfl⟩, rfl⟩
  | closed noTool spent =>
    simp only [RawScan.close, noTool]
    exact ⟨⟨rfl, .closed rfl rfl⟩, rfl⟩

/-- Every call leads both to the same place. -/
theorem run (alike : Alike disk own other) (call : Call) :
    StepsAlike disk (call.run disk own) (call.run disk other) := by
  cases call with
  | next => exact alike.next
  | seek key => exact alike.seek key
  | close => exact alike.close.1

end Alike

/-- What can be told of two steps from outside is the same: whether they failed, what is shown, and
whether the scan is finished. Closing the scan does not fail on either side. -/
structure Matches (own other : Step RawScan Fault) : Prop where
  /-- They fail together. -/
  fault : other.fault.isSome = own.fault.isSome
  /-- They show the same. -/
  view : Cursor.view other.state = Cursor.view own.state
  /-- They are finished together. -/
  finished : other.state.finished = own.state.finished
  /-- Both can be closed. -/
  closes : (Cursor.close own.state).fault = none ∧ (Cursor.close other.state).fault = none

/-- Steps that lead to the same place cannot be told apart. -/
theorem StepsAlike.matches {step otherStep : Step RawScan Fault}
    (steps : StepsAlike disk step otherStep) : Matches step otherStep where
  fault := steps.fault
  view := by
    change RawScan.view _ = RawScan.view _
    unfold RawScan.view
    rw [steps.state.current_eq]
  finished := steps.state.finished_eq
  closes := by
    obtain ⟨closed, fine⟩ := steps.state.close
    exact ⟨fine, closed.fault_eq_none_iff.mpr fine⟩

/-- Two attempts to open a scan both fail, or lead to the same place. -/
inductive OpensAlike (disk : Disk) :
    Except ReaderFault RawScan → Except ReaderFault RawScan → Prop where
  | refused {fault otherFault : ReaderFault} :
      OpensAlike disk (.error fault) (.error otherFault)
  | opened {own other : RawScan} (alike : Alike disk own other) :
      OpensAlike disk (.ok own) (.ok other)

/-- Behind a header both are started alike. -/
theorem start_alike {source : LineSource} {range : KeyRange} (path : String)
    (written : Written disk source (.header range :: lines) ending status) :
    OpensAlike disk (start disk path source none)
      (start disk path (.text ((DumpLine.header range :: lines).flatMap DumpLine.bytes))
        (some status)) := by
  obtain ⟨gives, succeeded, complete⟩ := written
  obtain ⟨after, fromOwn, rest⟩ :=
    readLine_of_gives (ofSource path source none) gives (decodeLine_header range)
  let headed : RawScan := { ofSource path source none with source := after, lineNumber := 1, range }
  have ownHeader : (ofSource path source none).readHeader disk = .done headed := by
    rw [readHeader, fromOwn]
    rfl
  have toolHeader : (ofSource path (.text ((DumpLine.header range :: lines).flatMap
      DumpLine.bytes)) (some status)).readHeader disk = .done (headed.throughTool lines status) := by
    simp [readHeader, readLine, ofSource, readLine_text, decodeLine_header, throughTool, headed]
  have behind : ∀ line ∈ lines, ∀ count, decodeLine line.bytes = .ok (.trailer count) →
      ending = none := fun line member => complete line (List.mem_cons_of_mem _ member)
  have steps : StepsAlike disk (headed.advance disk)
      ((headed.throughTool lines status).advance disk) :=
    advance_alike rfl (fun finished => by cases finished) ⟨rest, succeeded, behind⟩
  unfold start
  simp only [ownHeader, toolHeader, Step.andThen, Step.fault_done, Step.state_done]
  cases fromOwn : (headed.advance disk).fault with
  | none =>
    rw [steps.fault_eq_none_iff.mpr fromOwn]
    exact .opened steps.state
  | some fault =>
    have together := steps.fault
    rw [fromOwn] at together
    obtain ⟨otherFault, fromTool⟩ := Option.isSome_iff_exists.mp together
    rw [fromTool]
    exact .refused

/-- Lines of entries are those that a tool has written, if its status tells whether they end with the
trailer. -/
theorem written_linesBehind {source : LineSource} {range : KeyRange} {entries : List Entry}
    (gives : Gives disk source (.header range :: DumpStream.linesBehind 0 entries ending) ending) :
    Written disk source (.header range :: DumpStream.linesBehind 0 entries ending) ending
      (if ending.isNone then 0 else 1) := by
  refine ⟨gives, fun fine => by rw [fine]; rfl, ?_⟩
  intro line member count decoded
  rcases List.mem_cons.mp member with rfl | behind
  · cases (decodeLine_header range).symm.trans decoded
  · rcases List.mem_append.mp behind with isEntry | isTrailer
    · obtain ⟨entry, _, rfl⟩ := List.mem_map.mp isEntry
      rw [decodeLine_entry] at decoded
      split at decoded <;> cases decoded
    · cases ending with
      | none => rfl
      | some fault => cases isTrailer

/-- A tool is the dump command: whenever it can be started, it does what the command does. -/
def IsDumpTool (tool : Tool) : Prop :=
  ∀ disk arguments run, tool disk arguments = some run → run = dumpTool disk arguments

/-- A host that has the dump command runs it, if it can be started. -/
theorem run?_eq_dumpTool {host : Host} {name : String} {tool : Tool} {arguments : List String}
    (named : host.tool? name = some tool) (isDump : IsDumpTool tool)
    (starts : (tool host.disk arguments).isSome = true) :
    host.run? name arguments = some (dumpTool host.disk arguments) := by
  obtain ⟨run, ran⟩ := Option.isSome_iff_exists.mp starts
  rw [Host.run?, named, Option.bind_some, ran, isDump _ _ _ ran]

/-- Let a path that does not begin with a dash lead to a table, whatever is in its blocks, and let the
dump command be a tool that can be started with the arguments that ask for a range of it. Either no scan
of the range can be opened, neither one of a dump by the library nor one through the dump command; or
both can. Then they cannot be told apart: under all calls, made in any order and also behind failed
ones, both show the same entries, fail at the same calls, are finished behind the same calls, and can
always be closed without a fault. -/
theorem openPath_dumpTool {host : Host} {path name : String} {tool : Tool} {table : Table}
    (opened : Table.openPath host.disk path = .ok table)
    (named : host.tool? name = some tool) (isDump : IsDumpTool tool)
    (plain : path.toList.head? ≠ some '-') (range : KeyRange)
    (starts : (tool host.disk (toolArguments path range)).isSome = true) :
    (∃ fault otherFault, openPath host .inProcess path range = .error fault ∧
        openPath host (.external name) path range = .error otherFault) ∨
      ∃ own other, openPath host .inProcess path range = .ok own ∧
        openPath host (.external name) path range = .ok other ∧
        ∀ calls, List.Forall₂ Matches (steps host.disk (.done own) calls)
          (steps host.disk (.done other) calls) := by
  obtain ⟨entries, ending, renders⟩ :=
    table.exists_renders host.disk range (DumpStream.firstBlock table range)
  have isRun := run?_eq_dumpTool named isDump starts
  rw [dumpTool_toolArguments opened plain renders] at isRun
  have gives := DumpStream.gives_of_header (DumpStream.gives_of_renders renders 0)
  have started := start_alike path (written_linesBehind gives)
  unfold openPath openAny runTool
  simp only [opened, isRun]
  generalize start host.disk path (.dump (.ofTable table range)) none = fromOwn at started ⊢
  generalize start host.disk path (.text _) _ = fromTool at started ⊢
  cases started with
  | refused => exact Or.inl ⟨_, _, rfl, rfl⟩
  | @opened own other alike =>
    simp only [alike.range_eq]
    split
    · refine Or.inr ⟨own, other, rfl, rfl, fun calls => ?_⟩
      have related : StepsAlike host.disk (.done own) (.done other) := ⟨rfl, alike⟩
      have all := forall₂_steps (fun _ _ steps call => steps.state.run call) related calls
      exact all.imp fun _ _ steps => steps.matches
    · exact Or.inl ⟨_, _, rfl, rfl⟩

/-- A host with the dump command and a file of two blocks, of which the second one cannot be read. -/
def cutShort : Host where
  disk :=
    { Disk.ofTables 40 [("t", halved)] with
      contents := [.ofBytes ((TableBuilder.imageOf 40 halved).set 60 255)] }
  tool? _ := some fun disk arguments => some (dumpTool disk arguments)
  detected := .unavailable

/-- A scan of this file is opened in both ways. The second move comes to the block that cannot be read,
and fails for both. -/
theorem openPath_dumpTool_cutShort :
    ∃ own other, openPath cutShort .inProcess "t" .all = .ok own ∧
      openPath cutShort (.external "sst-dump") "t" .all = .ok other ∧
      (∀ calls, List.Forall₂ Matches (steps cutShort.disk (.done own) calls)
        (steps cutShort.disk (.done other) calls)) ∧
      (steps cutShort.disk (.done own) [.next, .next]).map (fun step => step.fault.isSome) =
        [false, false, true] := by
  have isTable : (Table.openPath cutShort.disk "t").toBool = true := by decide +kernel
  have moves : (openPath cutShort .inProcess "t" .all).toOption.map (fun own =>
      (steps cutShort.disk (.done own) [.next, .next]).map fun step => step.fault.isSome) =
        some [false, false, true] := by decide +kernel
  cases opened : Table.openPath cutShort.disk "t" with
  | error fault => simp [opened, Except.toBool] at isTable
  | ok table =>
    let tool : Tool := fun disk arguments => some (dumpTool disk arguments)
    have named : cutShort.tool? "sst-dump" = some tool := rfl
    have isDump : IsDumpTool tool := fun _ _ _ ran => (Option.some.inj ran).symm
    rcases openPath_dumpTool opened named isDump (by decide) .all rfl with
      ⟨fault, _, refused, _⟩ | ⟨own, other, isOwn, isOther, alike⟩
    · simp [refused, Except.toOption] at moves
    · rw [isOwn] at moves
      exact ⟨own, other, isOwn, isOther, alike, Option.some.inj moves⟩

end RawScan

end SortedTables
