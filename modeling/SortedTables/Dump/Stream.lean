import SortedTables.Block.Cursor
import SortedTables.Dump.Line
import SortedTables.Step
import SortedTables.Table.Basic
import SortedTables.Utf8

/-!
# The dump of a table

The dump of a table within a range is rendered as it is read: first the header, then one block at a
time, then the trailer. It starts with the block that may hold the lower bound and stops at the
first block whose first key, or the first entry whose key, lies behind the range; other blocks are
not read. A block that cannot be read gives no text, and is tried again by the next reading.
-/

namespace SortedTables

/-- The bytes of a line of a dump. -/
def DumpLine.bytes (line : DumpLine) : Bytes :=
  Utf8.encode (line.render ++ ['\n'])

/-- How far a dump has been rendered. -/
inductive DumpStage where
  /-- Nothing was rendered. -/
  | header
  /-- The header and some blocks were rendered. -/
  | blocks
  /-- The trailer was rendered. -/
  | done
deriving DecidableEq

/-- A dump that is being read. -/
structure DumpStream where
  /-- The table. -/
  table : Table
  /-- The range of the dump. -/
  range : KeyRange
  /-- The next block to render. -/
  nextBlock : Nat
  /-- The number of entries rendered. -/
  listed : Nat
  /-- The lines that were rendered but not read; the first one may have been read in part. -/
  pending : List Bytes
  /-- How far the dump has been rendered. -/
  stage : DumpStage
deriving DecidableEq

namespace DumpStream

/-- The first block of a table that may hold keys of a range. -/
def firstBlock (table : Table) (range : KeyRange) : Nat :=
  match range.lower with
  | none => 0
  | some lower => table.findBlock lower

/-- The dump of a table within a range, of which nothing was read. -/
def ofTable (table : Table) (range : KeyRange) : DumpStream :=
  ⟨table, range, firstBlock table range, 0, [], .header⟩

/-- Whether the next block may hold keys before the end of the range. -/
def hasBlock (stream : DumpStream) : Bool :=
  match stream.table.blocks[stream.nextBlock]? with
  | none => false
  | some block => stream.range.beforeEnd block.firstKey

/-- The entries of the next block from the start of the range on. Only in the first block of a dump
can there be entries before it. -/
def fromStart (stream : DumpStream) (entries : List Entry) : List Entry :=
  match stream.range.lower with
  | none => entries
  | some lower =>
    if stream.nextBlock = firstBlock stream.table stream.range then
      entries.drop (Block.Cursor.lowerBound entries lower)
    else
      entries

/-- Renders the next block, whose entries are given. Rendering stops for good at an entry behind the
range. -/
def addBlock (stream : DumpStream) (entries : List Entry) : DumpStream :=
  let candidates := stream.fromStart entries
  let inside := candidates.takeWhile fun entry => stream.range.beforeEnd entry.key
  { stream with
    nextBlock :=
      if inside.length = candidates.length then stream.nextBlock + 1
      else stream.table.blockCount
    listed := stream.listed + inside.length
    pending := inside.map fun entry => (DumpLine.entry entry).bytes }

/-- Renders the next piece of a dump of which everything rendered was read. -/
def fill (disk : Disk) (stream : DumpStream) : Step DumpStream BlockReadFault :=
  match stream.stage with
  | .header =>
    .done { stream with pending := [(DumpLine.header stream.range).bytes], stage := .blocks }
  | .blocks =>
    if stream.hasBlock then
      match stream.table.readBlock disk stream.nextBlock with
      | .error fault => .failed stream fault
      | .ok entries => .done (stream.addBlock entries)
    else
      .done { stream with pending := [(DumpLine.trailer stream.listed).bytes], stage := .done }
  | .done => .done stream

/-- How many pieces can still be rendered. -/
def piecesLeft (stream : DumpStream) : Nat :=
  match stream.stage with
  | .header => stream.table.blockCount - stream.nextBlock + 2
  | .blocks => stream.table.blockCount - stream.nextBlock + 1
  | .done => 0

/-- A bound on the lines that can still be read. -/
def linesLeft (stream : DumpStream) : Nat :=
  stream.pending.length +
    match stream.stage with
    | .header => 65536 * (stream.table.blockCount - stream.nextBlock) + 2
    | .blocks => 65536 * (stream.table.blockCount - stream.nextBlock) + 1
    | .done => 0

theorem nextBlock_lt_of_hasBlock {stream : DumpStream} (more : stream.hasBlock = true) :
    stream.nextBlock < stream.table.blockCount := by
  unfold hasBlock at more
  split at more
  · cases more
  · next found => exact (List.getElem?_eq_some_iff.mp found).1

/-- A block has no more lines than entries. -/
theorem length_pending_addBlock_le (stream : DumpStream) (entries : List Entry) :
    (stream.addBlock entries).pending.length ≤ entries.length := by
  have candidates : (stream.fromStart entries).length ≤ entries.length := by
    unfold fromStart
    split
    · exact Nat.le_refl _
    · split
      · simp
      · exact Nat.le_refl _
  have inside := (List.takeWhile_sublist (l := stream.fromStart entries)
    fun entry => stream.range.beforeEnd entry.key).length_le
  simp only [addBlock, List.length_map]
  omega

/-- Rendering a block goes on behind it. -/
theorem nextBlock_lt_addBlock {stream : DumpStream} (entries : List Entry)
    (more : stream.hasBlock = true) :
    stream.nextBlock < (stream.addBlock entries).nextBlock := by
  have inside := nextBlock_lt_of_hasBlock more
  simp only [addBlock]
  split <;> omega

/-- Rendering a piece leaves fewer of them. -/
theorem piecesLeft_fill_lt {disk : Disk} {stream : DumpStream} (unfinished : stream.stage ≠ .done)
    (filled : (stream.fill disk).fault = none) :
    (stream.fill disk).state.piecesLeft < stream.piecesLeft := by
  unfold fill at filled ⊢
  split
  · next stage => simp [piecesLeft, stage]
  · next stage =>
    split
    · next more =>
      split
      · next failed => simp [stage, more, failed] at filled
      · next entries _ =>
        have inside := nextBlock_lt_of_hasBlock more
        have later := nextBlock_lt_addBlock entries more
        have same : (stream.addBlock entries).stage = stream.stage := rfl
        have table : (stream.addBlock entries).table = stream.table := rfl
        simp only [Step.state_done, piecesLeft, same, stage, table]
        omega
    · simp [piecesLeft, stage]
  · next stage => exact absurd stage unfinished

/-- Rendering a piece adds no more lines than were counted for it. -/
theorem linesLeft_fill_le {disk : Disk} {stream : DumpStream} (read : stream.pending = [])
    (filled : (stream.fill disk).fault = none) :
    (stream.fill disk).state.linesLeft ≤ stream.linesLeft := by
  unfold fill at filled ⊢
  split
  · next stage =>
    simp only [Step.state_done, linesLeft, stage, read, List.length_cons, List.length_nil]
    omega
  · next stage =>
    split
    · next more =>
      split
      · next failed => simp [stage, more, failed] at filled
      · next entries found =>
        have few := Table.length_of_readBlock found
        have lines := length_pending_addBlock_le stream entries
        have inside := nextBlock_lt_of_hasBlock more
        have later := nextBlock_lt_addBlock entries more
        have same : (stream.addBlock entries).stage = stream.stage := rfl
        have table : (stream.addBlock entries).table = stream.table := rfl
        simp only [Step.state_done, linesLeft, same, stage, table, read, List.length_nil]
        omega
    · simp only [Step.state_done, linesLeft, stage, read, List.length_cons, List.length_nil]
      omega
  · exact Nat.le_refl _

/-- Renders pieces until there is something to read or the dump is over. -/
def settle (disk : Disk) (stream : DumpStream) : Step DumpStream BlockReadFault :=
  if _read : stream.pending = [] ∧ stream.stage ≠ .done then
    let step := stream.fill disk
    if _filled : step.fault = none then settle disk step.state else step
  else
    .done stream
termination_by stream.piecesLeft
decreasing_by exact piecesLeft_fill_lt _read.2 _filled

section

variable {disk : Disk} {stream after : DumpStream}

/-- Where something is left to read, nothing is rendered. -/
theorem settle_of_pending (left : stream.pending ≠ []) : stream.settle disk = .done stream := by
  rw [settle, dif_neg (by simp [left])]

/-- Behind the trailer nothing is rendered. -/
theorem settle_of_done (finished : stream.stage = .done) : stream.settle disk = .done stream := by
  rw [settle, dif_neg (by simp [finished])]

/-- Where nothing is left to read, the next piece is rendered first. -/
theorem settle_of_fill (nothing : stream.pending = []) (unfinished : stream.stage ≠ .done)
    (filled : stream.fill disk = .done after) : stream.settle disk = after.settle disk := by
  rw [settle, dif_pos ⟨nothing, unfinished⟩]
  simp [filled]

/-- A piece that cannot be rendered fails the rendering. -/
theorem settle_of_failed {fault : BlockReadFault} (nothing : stream.pending = [])
    (unfinished : stream.stage ≠ .done) (failed : stream.fill disk = .failed after fault) :
    stream.settle disk = .failed after fault := by
  rw [settle, dif_pos ⟨nothing, unfinished⟩]
  simp [failed]

end

theorem linesLeft_settle_le {disk : Disk} {stream : DumpStream}
    (settled : (stream.settle disk).fault = none) :
    (stream.settle disk).state.linesLeft ≤ stream.linesLeft := by
  fun_induction settle disk stream with
  | case1 stream read step filled ih =>
    exact Nat.le_trans (ih settled) (linesLeft_fill_le read.1 filled)
  | case2 stream read step failed => exact absurd settled failed
  | case3 => exact Nat.le_refl _

/-- The first bytes of some pieces, and the pieces behind them. -/
def takeBytes : Nat → List Bytes → Bytes × List Bytes
  | _, [] => ([], [])
  | count, piece :: later =>
    if count < piece.length then
      (piece.take count, piece.drop count :: later)
    else
      let (front, rest) := takeBytes (count - piece.length) later
      (piece ++ front, rest)

/-- Reads up to a number of bytes, none only at the end of the dump or if none were asked for. What
is read at once never goes beyond one rendered piece. -/
def read (disk : Disk) (count : Nat) (stream : DumpStream) :
    Except BlockReadFault Bytes × DumpStream :=
  let step := stream.settle disk
  match step.fault with
  | some fault => (.error fault, step.state)
  | none =>
    let (front, rest) := takeBytes count step.state.pending
    (.ok front, { step.state with pending := rest })

section

variable {disk : Disk} {stream after : DumpStream}

/-- Where something is left to read, or the trailer was rendered, a front of the pieces is read. -/
theorem read_of_settled (settled : stream.settle disk = .done after) (count : Nat) :
    stream.read disk count = (.ok (takeBytes count after.pending).1,
      { after with pending := (takeBytes count after.pending).2 }) := by
  simp [read, settled]

/-- A piece that cannot be rendered fails the reading. -/
theorem read_of_failed {fault : BlockReadFault} (failed : stream.settle disk = .failed after fault)
    (count : Nat) : stream.read disk count = (.error fault, after) := by
  simp [read, failed]

end

/-- Reads the rest of a line, if the dump is not over. -/
def readLine (disk : Disk) (stream : DumpStream) :
    Except BlockReadFault (Option Bytes) × DumpStream :=
  let step := stream.settle disk
  match step.fault with
  | some fault => (.error fault, step.state)
  | none =>
    match step.state.pending with
    | [] => (.ok none, step.state)
    | line :: rest => (.ok (some line), { step.state with pending := rest })

section

variable {disk : Disk} {stream after : DumpStream}

/-- A line that was rendered is read without rendering more. -/
theorem readLine_of_pending {line : Bytes} {rest : List Bytes}
    (pending : stream.pending = line :: rest) :
    stream.readLine disk = (.ok (some line), { stream with pending := rest }) := by
  have left : stream.pending ≠ [] := by simp [pending]
  simp [readLine, settle_of_pending left, pending]

/-- Behind the trailer there is no line. -/
theorem readLine_of_done (nothing : stream.pending = []) (finished : stream.stage = .done) :
    stream.readLine disk = (.ok none, stream) := by
  simp [readLine, settle_of_done finished, nothing]

/-- Where nothing is left to read, the line is one of the next piece. -/
theorem readLine_of_fill (nothing : stream.pending = []) (unfinished : stream.stage ≠ .done)
    (filled : stream.fill disk = .done after) : stream.readLine disk = after.readLine disk := by
  rw [readLine, settle_of_fill nothing unfinished filled, readLine]

/-- A piece that cannot be rendered fails the reading of a line. -/
theorem readLine_of_failed {fault : BlockReadFault} (nothing : stream.pending = [])
    (unfinished : stream.stage ≠ .done) (failed : stream.fill disk = .failed after fault) :
    stream.readLine disk = (.error fault, after) := by
  simp [readLine, settle_of_failed nothing unfinished failed]

end

/-- Reading a line leaves fewer of them. -/
theorem linesLeft_readLine_lt {disk : Disk} {stream after : DumpStream} {line : Bytes}
    (found : stream.readLine disk = (.ok (some line), after)) :
    after.linesLeft < stream.linesLeft := by
  unfold readLine at found
  dsimp only at found
  split at found
  · simp at found
  · next settled =>
    split at found
    · simp at found
    · next line rest pending =>
      have bound := linesLeft_settle_le settled
      simp only [Prod.mk.injEq] at found
      rw [← found.2]
      simp only [linesLeft, pending, List.length_cons] at bound ⊢
      omega

/-- Reads the rest of a dump behind the lines read already, which are given the last one first: the
text, and the number of entries if the end was reached. -/
def drainAfter (disk : Disk) (lines : List Bytes) (stream : DumpStream) :
    Bytes × Except BlockReadFault Nat :=
  match _found : stream.readLine disk with
  | (.ok (some line), after) => drainAfter disk (line :: lines) after
  | (.ok none, after) => (lines.reverse.flatten, .ok after.listed)
  | (.error fault, _) => (lines.reverse.flatten, .error fault)
termination_by stream.linesLeft
decreasing_by exact linesLeft_readLine_lt _found

section

variable {disk : Disk} {lines : List Bytes} {stream after : DumpStream}

/-- A line that is read goes behind those read already. -/
theorem drainAfter_of_line {line : Bytes}
    (found : stream.readLine disk = (.ok (some line), after)) :
    drainAfter disk lines stream = drainAfter disk (line :: lines) after := by
  rw [drainAfter]
  split
  · next found' => cases found.symm.trans found'; rfl
  · next found' => cases found.symm.trans found'
  · next found' => cases found.symm.trans found'

/-- At the end of a dump its text is that of the lines read already. -/
theorem drainAfter_of_none (found : stream.readLine disk = (.ok none, after)) :
    drainAfter disk lines stream = (lines.reverse.flatten, .ok after.listed) := by
  rw [drainAfter]
  split
  · next found' => cases found.symm.trans found'
  · next found' => cases found.symm.trans found'; rfl
  · next found' => cases found.symm.trans found'

/-- A reading that fails ends the text behind the lines read already. -/
theorem drainAfter_of_error {fault : BlockReadFault}
    (found : stream.readLine disk = (.error fault, after)) :
    drainAfter disk lines stream = (lines.reverse.flatten, .error fault) := by
  rw [drainAfter]
  split
  · next found' => cases found.symm.trans found'
  · next found' => cases found.symm.trans found'
  · next found' => cases found.symm.trans found'; rfl

end

/-- The rest of a dump: the text, and the number of entries if the end was reached. -/
def drain (disk : Disk) (stream : DumpStream) : Bytes × Except BlockReadFault Nat :=
  drainAfter disk [] stream

end DumpStream

/-- Why a table could not be dumped. -/
inductive DumpFault where
  /-- There is no table. -/
  | table (fault : OpenFault)
  /-- A block could not be read. -/
  | block (path : String) (fault : BlockReadFault)
deriving DecidableEq

/-- The wording of a fault. -/
def DumpFault.message : DumpFault → String
  | table fault => fault.message
  | block path fault => s!"failed to dump {path}: {fault.message}"

/-- The dump of the table that a path stands for: the text, also if it ends early, and the number of
entries if it does not. -/
def Disk.dump (disk : Disk) (path : String) (range : KeyRange) : Bytes × Except DumpFault Nat :=
  match Table.openPath disk path with
  | .error fault => ([], .error (.table fault))
  | .ok table =>
    let (text, result) := (DumpStream.ofTable table range).drain disk
    (text, result.mapError (.block path))

end SortedTables
