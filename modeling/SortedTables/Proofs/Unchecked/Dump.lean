import SortedTables.Proofs.Dump.Portions
import SortedTables.Proofs.Unchecked.Walking

/-!
# Reading a dump by unchecked accesses

A reader of a dump renders one piece of it at a time into a buffer, and hands out the buffer in portions
of any size. It walks through each block that it renders. It can be read on behind a fault, and the
file may have changed from one reading to the next.
-/

namespace SortedTables.Unchecked

/-- A dump that is being read. -/
structure DumpReader where
  /-- The table. -/
  table : Table
  /-- The range of the dump. -/
  range : KeyRange
  /-- The first block that may hold keys of the range. -/
  firstBlock : Nat
  /-- The next block to render. -/
  nextBlock : Nat
  /-- The number of entries rendered. -/
  listed : Nat
  /-- The piece that was rendered last. -/
  buffer : Bytes
  /-- How much of the piece was read. -/
  position : Nat
  /-- How far the dump has been rendered. -/
  stage : DumpStage

namespace DumpReader

/-- The dump of a table within a range, of which nothing was read. -/
def ofTable (table : Table) (range : KeyRange) : DumpReader :=
  let firstBlock := (range.lower.map table.findBlock).getD 0
  ⟨table, range, firstBlock, firstBlock, 0, [], 0, .header⟩

/-- Whether the next block may hold keys before the end of the range. -/
def hasBlock (reader : DumpReader) : Bool :=
  (reader.table.blocks[reader.nextBlock]?).any fun block => reader.range.beforeEnd block.firstKey

/-- The place in the next block from which on it is rendered. -/
def place (reader : DumpReader) (block : Block) : Option Walker :=
  match reader.range.lower with
  | none => Walker.atFirst block
  | some lower =>
    if reader.nextBlock = reader.firstBlock then Walker.atKey lower block else Walker.atFirst block

/-- Renders the entries from a place on, behind a number of them that were rendered: whether an entry
was behind the range, the number of entries, and their lines. -/
def renderFrom (range : KeyRange) (walker : Walker) (listed : Nat) (buffer : Bytes) :
    Option (Bool × Nat × Bytes) :=
  if _standing : walker.isValid then
    if range.beforeEnd walker.key then
      match walker.value? with
      | none => none
      | some value =>
        let line := DumpLine.entry ⟨walker.key, walker.seq, walker.kind, value⟩
        match _goes : walker.next with
        | none => none
        | some after => renderFrom range after (listed + 1) (buffer ++ line.bytes)
    else
      some (true, listed, buffer)
  else
    some (false, listed, buffer)
termination_by walker.entriesLeft
decreasing_by exact Walker.entriesLeft_next_lt _standing _goes

/-- Renders the next piece of the dump into the buffer. -/
def fill (disk : Disk) (reader : DumpReader) : Option (Step DumpReader BlockReadFault) :=
  let cleared := { reader with buffer := [], position := 0 }
  match reader.stage with
  | .header =>
    some (.done { cleared with buffer := (DumpLine.header reader.range).bytes, stage := .blocks })
  | .blocks =>
    if reader.hasBlock then do
      match ← readBlock disk reader.table reader.nextBlock with
      | .error fault => some (.failed cleared fault)
      | .ok block =>
        let walker ← reader.place block
        let (ended, listed, buffer) ← renderFrom reader.range walker reader.listed []
        let nextBlock := if ended then reader.table.blockCount else reader.nextBlock + 1
        some (.done { cleared with nextBlock, listed, buffer })
    else
      some (.done { cleared with buffer := (DumpLine.trailer reader.listed).bytes, stage := .done })
  | .done => some (.done cleared)

/-- How many pieces can still be rendered. -/
def piecesLeft (reader : DumpReader) : Nat :=
  match reader.stage with
  | .header => reader.table.blockCount - reader.nextBlock + 2
  | .blocks => reader.table.blockCount - reader.nextBlock + 1
  | .done => 0

theorem nextBlock_lt_of_hasBlock {reader : DumpReader} (more : reader.hasBlock = true) :
    reader.nextBlock < reader.table.blockCount := by
  by_contra outside
  rw [hasBlock, List.getElem?_eq_none (Nat.le_of_not_lt outside)] at more
  cases more

/-- Rendering a piece leaves fewer of them. -/
theorem piecesLeft_fill_lt {disk : Disk} {reader : DumpReader} {step : Step DumpReader BlockReadFault}
    (unfinished : reader.stage ≠ .done) (fills : reader.fill disk = some step)
    (filled : step.fault = none) : step.state.piecesLeft < reader.piecesLeft := by
  cases stage : reader.stage with
  | header =>
    simp only [fill, stage] at fills
    cases fills
    simp [piecesLeft, stage]
  | blocks =>
    simp only [fill, stage] at fills
    split at fills
    · next more =>
      have inside := nextBlock_lt_of_hasBlock more
      obtain ⟨result, -, fills⟩ := Option.bind_eq_some_iff.mp fills
      cases result with
      | error fault =>
        cases fills
        cases filled
      | ok block =>
        obtain ⟨walker, -, fills⟩ := Option.bind_eq_some_iff.mp fills
        obtain ⟨⟨ended, listed, buffer⟩, -, fills⟩ := Option.bind_eq_some_iff.mp fills
        cases fills
        have later : reader.nextBlock <
            if ended then reader.table.blockCount else reader.nextBlock + 1 := by
          split <;> omega
        simp only [Step.state_done, piecesLeft, stage]
        omega
    · cases fills
      simp [piecesLeft, stage]
  | done => exact absurd stage unfinished

/-- Renders pieces until there is something to read or the dump is over. -/
def settle (disk : Disk) (reader : DumpReader) : Option (Step DumpReader BlockReadFault) :=
  if _read : reader.position = reader.buffer.length ∧ reader.stage ≠ .done then
    match _fills : reader.fill disk with
    | none => none
    | some step => if _filled : step.fault = none then settle disk step.state else some step
  else
    some (.done reader)
termination_by reader.piecesLeft
decreasing_by exact piecesLeft_fill_lt _read.2 _fills _filled

/-- Reads as many bytes as there is room for, but no more than are left in the buffer. -/
def read (disk : Disk) (room : Nat) (reader : DumpReader) :
    Option (Except BlockReadFault Bytes × DumpReader) := do
  let step ← reader.settle disk
  match step.fault with
  | some fault => some (.error fault, step.state)
  | none =>
    let reader := step.state
    let left ← minus? reader.buffer.length reader.position
    let count := min room left
    let _ ← minus? room count
    let chunk ← between? reader.position (reader.position + count) reader.buffer
    some (.ok chunk, { reader with position := reader.position + count })

/-- What is read by each of several readings, given how much room there is for it. -/
def answers (reader : DumpReader) : List (Disk × Nat) → Option (List (Except BlockReadFault Bytes))
  | [] => some []
  | (disk, room) :: later => do
    let (answer, after) ← reader.read disk room
    let rest ← answers after later
    some (answer :: rest)

/-! ## Rendering a block -/

/-- The entries before the first one that is behind the range. -/
def inside (range : KeyRange) (entries : List Entry) : List Entry :=
  entries.takeWhile fun entry => range.beforeEnd entry.key

/-- The lines of some entries. -/
def lines (entries : List Entry) : List Bytes :=
  entries.map fun entry => (DumpLine.entry entry).bytes

/-- At an entry before the end of the range its line is rendered, and the walker goes on. -/
theorem renderFrom_of_entry {range : KeyRange} {walker after : Walker} {entry : Entry}
    (standing : walker.isValid = true) (shows : walker.Shows entry)
    (goes : walker.next = some after) (before : range.beforeEnd entry.key = true) (listed : Nat)
    (buffer : Bytes) :
    renderFrom range walker listed buffer =
      renderFrom range after (listed + 1) (buffer ++ (DumpLine.entry entry).bytes) := by
  rw [renderFrom, dif_pos standing, shows.key, if_pos before, shows.value]
  dsimp only
  split
  · next stuck => cases goes.symm.trans stuck
  · next found =>
    cases goes.symm.trans found
    rw [shows.seq, shows.kind]

/-- Rendering from a place in a block has an outcome: the lines of the entries before the end of the
range. -/
theorem renderFrom_eq {range : KeyRange} {walker : Walker} {cursor : Block.Cursor}
    {rest : List Entry} (follows : walker.Follows cursor) (isRest : cursor.rest = rest)
    (listed : Nat) (buffer : Bytes) :
    renderFrom range walker listed buffer =
      some ((inside range rest).length != rest.length,
        listed + (inside range rest).length, buffer ++ (lines (inside range rest)).flatten) := by
  induction rest generalizing walker cursor listed buffer with
  | nil =>
    have behind : walker.isValid = false := follows.at_end (List.head?_eq_none_iff.mpr isRest)
    rw [renderFrom, dif_neg (by simp [behind])]
    simp [lines, inside]
  | cons entry later ih =>
    obtain ⟨standing, shows⟩ := follows.at_entry (List.head?_eq_some_iff.mpr ⟨later, isRest⟩)
    cases before : range.beforeEnd entry.key with
    | true =>
      obtain ⟨after, goes, followsNext⟩ := follows.exists_next
      have isNext : cursor.next.rest = later := congrArg List.tail isRest
      rw [renderFrom_of_entry standing shows goes before, ih followsNext isNext]
      simp [lines, inside, before, Nat.add_assoc, Nat.add_comm 1]
    | false =>
      rw [renderFrom, dif_pos standing, shows.key, if_neg (by simp [before])]
      simp [lines, inside, before]

/-! ## The reader and the stream -/

variable {disk : Disk} {reader : DumpReader} {pending : List Bytes}

/-- The stream that is where a reader is, given the lines that were rendered but not read. -/
def toStream (reader : DumpReader) (pending : List Bytes) : DumpStream :=
  ⟨reader.table, reader.range, reader.nextBlock, reader.listed, pending, reader.stage⟩

/-- Some lines are what was rendered but not read. -/
structure Holds (reader : DumpReader) (pending : List Bytes) : Prop where
  /-- No more was read than was rendered. -/
  bounded : reader.position ≤ reader.buffer.length
  /-- The lines are what is left of the buffer. -/
  left : reader.buffer.drop reader.position = pending.flatten
  /-- No line is empty. -/
  nonempty : ∀ line ∈ pending, line ≠ []
  /-- The first block is known. -/
  firstBlock : reader.firstBlock = DumpStream.firstBlock reader.table reader.range
  /-- The blocks of the table do not overlap. -/
  spaced : Spaced reader.table.toLayout

/-- There is an outcome, and it is that of the stream. -/
def Gives (result : Option (Step DumpReader BlockReadFault))
    (expected : Step DumpStream BlockReadFault) : Prop :=
  ∃ step pending, result = some step ∧ step.fault = expected.fault ∧
    step.state.toStream pending = expected.state ∧ step.state.Holds pending

/-- All lines are read if and only if all of the buffer is. -/
theorem Holds.read_iff (holds : reader.Holds pending) :
    reader.position = reader.buffer.length ↔ pending = [] := by
  have bounded := holds.bounded
  constructor
  · intro read
    have none : pending.flatten = [] := by
      rw [← holds.left, read, List.drop_length]
    cases pending with
    | nil => rfl
    | cons line later =>
      have isNil := (List.append_eq_nil_iff.mp none).1
      exact absurd isNil (holds.nonempty line List.mem_cons_self)
  · rintro rfl
    have none := List.drop_eq_nil_iff.mp holds.left
    omega

/-- Rendering lines into the buffer, whatever else it changes. -/
theorem Holds.filled {buffer : Bytes} {lines : List Bytes} (holds : reader.Holds pending)
    (isBuffer : buffer = lines.flatten) (nonempty : ∀ line ∈ lines, line ≠ [])
    (nextBlock listed : Nat) (stage : DumpStage) :
    Holds { reader with buffer, position := 0, nextBlock, listed, stage } lines :=
  ⟨Nat.zero_le _, isBuffer, nonempty, holds.firstBlock, holds.spaced⟩

/-- Both find a block in range or neither does. -/
theorem hasBlock_toStream : (reader.toStream pending).hasBlock = reader.hasBlock := by
  simp only [hasBlock, DumpStream.hasBlock, toStream]
  cases reader.table.blocks[reader.nextBlock]? <;> rfl

/-- The place in a block from which on it is rendered can be found. -/
theorem Holds.exists_place (holds : reader.Holds pending) {block : Block} {entries : List Entry}
    (reads : block.read = .ok entries) :
    ∃ walker cursor, reader.place block = some walker ∧ walker.Follows cursor ∧
      cursor.rest = (reader.toStream pending).fromStart entries := by
  obtain ⟨atFirst, makesFirst, followsFirst⟩ := Walker.exists_atFirst reads
  simp only [place, DumpStream.fromStart, toStream, holds.firstBlock]
  cases reader.range.lower with
  | none => exact ⟨atFirst, _, makesFirst, followsFirst, rfl⟩
  | some lower =>
    by_cases isFirst : reader.nextBlock = DumpStream.firstBlock reader.table reader.range
    · obtain ⟨atKey, makesKey, followsKey⟩ := Walker.exists_atKey lower reads
      simp only [if_pos isFirst]
      exact ⟨atKey, _, makesKey, followsKey, (if_pos isFirst).symm⟩
    · simp only [if_neg isFirst]
      exact ⟨atFirst, _, makesFirst, followsFirst, (if_neg isFirst).symm⟩

/-- What rendering a block does to a stream, in terms of a reader. -/
theorem addBlock_toStream (reader : DumpReader) (pending : List Bytes) (entries : List Entry)
    {candidates : List Entry}
    (isFromStart : (reader.toStream pending).fromStart entries = candidates) :
    (reader.toStream pending).addBlock entries =
      toStream
        { reader with
          nextBlock :=
            if (inside reader.range candidates).length != candidates.length then
              reader.table.blockCount
            else reader.nextBlock + 1
          listed := reader.listed + (inside reader.range candidates).length }
        (lines (inside reader.range candidates)) := by
  have goesOn : (if (inside reader.range candidates).length != candidates.length then
      reader.table.blockCount else reader.nextBlock + 1) =
      if (inside reader.range candidates).length = candidates.length then reader.nextBlock + 1
      else reader.table.blockCount := by
    by_cases all : (inside reader.range candidates).length = candidates.length <;> simp [all]
  rw [DumpStream.addBlock, isFromStart, goesOn]
  rfl

/-- Rendering a piece has an outcome. -/
theorem Holds.gives_fill (holds : reader.Holds []) (disk : Disk) :
    Gives (reader.fill disk) ((reader.toStream []).fill disk) := by
  have single (line : DumpLine) : ∀ piece ∈ [line.bytes], piece ≠ [] := by
    intro piece member
    rw [List.mem_singleton.mp member]
    exact line.bytes_ne_nil
  have more : (reader.toStream []).hasBlock = reader.hasBlock := hasBlock_toStream
  have adds (entries : List Entry) := addBlock_toStream reader [] entries rfl
  obtain ⟨result, reads, same, accepted⟩ := exists_readBlock holds.spaced disk reader.nextBlock
  rw [fill, DumpStream.fill, more]
  obtain ⟨table, range, firstBlock, nextBlock, listed, buffer, position, stage⟩ := reader
  cases stage with
  | header => exact ⟨_, _, rfl, rfl, rfl, holds.filled (List.append_nil _).symm (single _) _ _ _⟩
  | blocks =>
    have isRead : Table.readBlock table disk nextBlock = result.map Block.entries := same.symm
    dsimp only [toStream] at reads ⊢
    rw [isRead, reads]
    split
    · cases result with
      | error fault =>
        exact ⟨_, _, rfl, rfl, rfl, holds.filled rfl (List.forall_mem_nil _) _ _ _⟩
      | ok block =>
        obtain ⟨walker, cursor, makes, follows, isRest⟩ := holds.exists_place (accepted block rfl)
        simp only [Option.bind_eq_bind, Option.bind_some, makes, renderFrom_eq follows isRest]
        refine ⟨_, _, rfl, rfl, (adds block.entries).symm, holds.filled rfl ?_ _ _ _⟩
        intro line member
        obtain ⟨entry, -, rfl⟩ := List.mem_map.mp member
        exact DumpLine.bytes_ne_nil _
    · exact ⟨_, _, rfl, rfl, rfl, holds.filled (List.append_nil _).symm (single _) _ _ _⟩
  | done => exact ⟨_, _, rfl, rfl, rfl, holds.filled rfl (List.forall_mem_nil _) _ _ _⟩

/-- Where there is something to read, or the dump is over, there is nothing to render. -/
theorem settle_of_ready (ready : ¬ (reader.position = reader.buffer.length ∧ reader.stage ≠ .done)) :
    reader.settle disk = some (.done reader) := by
  rw [settle, dif_neg ready]

/-- Otherwise the next piece is rendered first. -/
theorem settle_of_read (read : reader.position = reader.buffer.length ∧ reader.stage ≠ .done) :
    reader.settle disk = (reader.fill disk).bind fun step =>
      if step.fault = none then settle disk step.state else some step := by
  rw [settle, dif_pos read]
  split
  · next fills => rw [fills]; rfl
  · next fills => rw [fills]; rfl

/-- Settling has an outcome. -/
theorem Holds.gives_settle (holds : reader.Holds pending) (disk : Disk) :
    Gives (reader.settle disk) ((reader.toStream pending).settle disk) := by
  generalize isStream : reader.toStream pending = stream
  fun_induction DumpStream.settle disk stream generalizing reader pending with
  | case1 stream read step filled =>
    rename_i ih
    subst isStream
    obtain rfl : pending = [] := read.1
    obtain ⟨own, later, fills, fault, isState, holdsFilled⟩ := holds.gives_fill disk
    rw [settle_of_read ⟨holds.read_iff.mpr rfl, read.2⟩, fills, Option.bind_some,
      if_pos (fault.trans filled)]
    exact ih holdsFilled isState
  | case2 stream read step =>
    rename_i failed
    subst isStream
    obtain rfl : pending = [] := read.1
    obtain ⟨own, later, fills, fault, isState, holdsFilled⟩ := holds.gives_fill disk
    rw [settle_of_read ⟨holds.read_iff.mpr rfl, read.2⟩, fills, Option.bind_some,
      if_neg fun done => failed (fault.symm.trans done)]
    exact ⟨own, later, rfl, fault, isState, holdsFilled⟩
  | case3 stream ready =>
    subst isStream
    rw [settle_of_ready fun read => ready ⟨holds.read_iff.mp read.1, read.2⟩]
    exact ⟨_, pending, rfl, rfl, rfl, holds⟩

/-- Reading has an outcome. -/
theorem Holds.exists_read (holds : reader.Holds pending) (disk : Disk) (room : Nat) :
    ∃ after later, reader.read disk room =
        some (((reader.toStream pending).read disk room).1, after) ∧
      after.toStream later = ((reader.toStream pending).read disk room).2 ∧ after.Holds later := by
  obtain ⟨step, lines, settles, fault, isState, settled⟩ := holds.gives_settle disk
  simp only [read, settles, DumpStream.read, ← fault, ← isState, Option.bind_eq_bind,
    Option.bind_some]
  cases step.fault with
  | some failure => exact ⟨step.state, lines, rfl, rfl, settled⟩
  | none =>
    obtain ⟨rest, takes, isRest, nonempty⟩ :=
      DumpStream.takeBytes_eq settled.nonempty room
    have bounded := settled.bounded
    have left : step.state.buffer.length - step.state.position = lines.flatten.length := by
      rw [← settled.left, List.length_drop]
    generalize isCount : min room lines.flatten.length = count
    have inside : step.state.position + count ≤ step.state.buffer.length := by omega
    have chunk : (step.state.buffer.take (step.state.position + count)).drop step.state.position =
        lines.flatten.take room := by
      rw [List.drop_take, Nat.add_sub_cancel_left, settled.left, ← isCount,
        ← List.take_eq_take_min]
    have behind : step.state.buffer.drop (step.state.position + count) =
        lines.flatten.drop room := by
      rw [← List.drop_drop, settled.left, ← isCount, ← List.drop_eq_drop_min]
    refine ⟨{ step.state with position := step.state.position + count }, rest, ?_, ?_, inside,
      behind.trans isRest.symm, nonempty, settled.firstBlock, settled.spaced⟩
    · have fits : count ≤ room := by omega
      simp only [minus?_eq bounded, Option.bind_some, left, isCount, minus?_eq fits,
        between?_eq (Nat.le_add_right _ count) inside, chunk, toStream, takes]
    · simp only [toStream, takes]

/-- What is read by each of several readings of a stream, given how much room there is for it. -/
def streamAnswers (stream : DumpStream) : List (Disk × Nat) → List (Except BlockReadFault Bytes)
  | [] => []
  | (disk, room) :: later =>
    let (answer, after) := stream.read disk room
    answer :: streamAnswers after later

/-- However a dump is read, each reading has an outcome, and that is what the stream gives. -/
theorem Holds.answers_eq (holds : reader.Holds pending) (readings : List (Disk × Nat)) :
    reader.answers readings = some (streamAnswers (reader.toStream pending) readings) := by
  induction readings generalizing reader pending with
  | nil => rfl
  | cons reading later ih =>
    obtain ⟨after, lines, reads, isAfter, holdsAfter⟩ := holds.exists_read reading.1 reading.2
    simp only [answers, reads, Option.bind_eq_bind, Option.bind_some, ih holdsAfter, isAfter]
    rfl

/-- A dump of which nothing was read starts as the stream does. -/
theorem holds_ofTable {table : Table} (spaced : Spaced table.toLayout) (range : KeyRange) :
    (ofTable table range).Holds [] ∧
      (ofTable table range).toStream [] = DumpStream.ofTable table range := by
  have firstBlock : (ofTable table range).firstBlock = DumpStream.firstBlock table range := by
    rw [ofTable, DumpStream.firstBlock]
    cases range.lower <;> rfl
  refine ⟨⟨Nat.le_refl _, rfl, List.forall_mem_nil _, firstBlock, spaced⟩, ?_⟩
  rw [toStream, DumpStream.ofTable, ← firstBlock]
  rfl

end DumpReader

end SortedTables.Unchecked
