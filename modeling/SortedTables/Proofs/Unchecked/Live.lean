import Mathlib.Data.Option.Basic
import SortedTables.Proofs.Unchecked.Walking
import SortedTables.Table.LiveCursor

/-!
# Reading the live entries of a table by unchecked accesses

A reader of live entries has at most one walker, over the block it is in. It can be moved in any
order, also behind a move that failed, and the file may have changed from one move to the next. No
move goes on forever, however many blocks are empty or hold tombstones only: each round of
`LiveReader.settle` leaves an entry or a block behind.
-/

namespace SortedTables.Unchecked

/-- A reader of the live entries of a table. -/
structure LiveReader where
  /-- The table. -/
  table : Table
  /-- The place in the block that was read last; none behind the last block. -/
  walker : Option Walker
  /-- The block that was read or tried last. -/
  blockIndex : Nat

/-- What a move does to a cursor over the live entries of a table. -/
def Move.ofLive (disk : Disk) (cursor : LiveCursor) : Move → Step LiveCursor Fault
  | first => cursor.seekFirst disk
  | next => cursor.next disk
  | seek key => cursor.seek disk key

/-- What is to be seen behind each of the moves of a cursor over the live entries of a table: the fault,
if the move failed, and what the cursor shows. -/
def liveAnswers (cursor : LiveCursor) : List (Disk × Move) → List (Option Fault × View)
  | [] => []
  | (disk, move) :: later =>
    let step := Move.ofLive disk cursor move
    (step.fault, step.state.view) :: liveAnswers step.state later

namespace LiveReader

/-- The reader that has not moved yet. -/
def ofTable (table : Table) : LiveReader := ⟨table, none, 0⟩

/-- Reads a block and takes a place in it. -/
def load (disk : Disk) (index : Nat) (place : Block → Option Walker) (reader : LiveReader) :
    Option (Step LiveReader Fault) :=
  if reader.table.blockCount ≤ index then
    some (.done { reader with blockIndex := index, walker := none })
  else do
    match ← readBlock disk reader.table index with
    | .error fault =>
      some (.failed { reader with blockIndex := index } (.read reader.table.path fault))
    | .ok block =>
      let walker ← place block
      some (.done { reader with blockIndex := index, walker := some walker })

/-- A bound on the blocks that are still to be left. -/
def blocksLeft (reader : LiveReader) : Nat :=
  if reader.walker.isSome then reader.table.blockCount - reader.blockIndex + 1 else 0

/-- The number of entries from the current one on. -/
def entriesLeft (reader : LiveReader) : Nat :=
  (reader.walker.map Walker.entriesLeft).getD 0

/-- Entering the next block leaves one behind. -/
theorem blocksLeft_load_lt {disk : Disk} {reader : LiveReader} {place : Block → Option Walker}
    {step : Step LiveReader Fault} (inside : reader.walker.isSome)
    (loads : reader.load disk (reader.blockIndex + 1) place = some step)
    (loaded : step.fault = none) : step.state.blocksLeft < reader.blocksLeft := by
  rw [blocksLeft, blocksLeft, if_pos inside]
  rw [load] at loads
  split at loads
  · cases loads
    exact Nat.succ_pos _
  · next more =>
    obtain ⟨result, -, loads⟩ := Option.bind_eq_some_iff.mp loads
    cases result with
    | error fault =>
      cases loads
      cases loaded
    | ok block =>
      obtain ⟨walker, -, loads⟩ := Option.bind_eq_some_iff.mp loads
      cases loads
      simp only [Step.state_done, Option.isSome_some, if_true]
      omega

/-- Moves the reader, unless it stands at a live entry, to the next one. -/
def settle (disk : Disk) (reader : LiveReader) : Option (Step LiveReader Fault) :=
  match _place : reader.walker with
  | none => some (.done reader)
  | some walker =>
    if _standing : walker.isValid then
      if walker.kind = .delete then
        match _goes : walker.next with
        | none => none
        | some after => settle disk { reader with walker := some after }
      else
        some (.done reader)
    else
      match _loads : reader.load disk (reader.blockIndex + 1) Walker.atFirst with
      | none => none
      | some step => if _loaded : step.fault = none then settle disk step.state else some step
termination_by (reader.blocksLeft, reader.entriesLeft)
decreasing_by
  · have fewer := Walker.entriesLeft_next_lt _standing _goes
    simp only [blocksLeft, entriesLeft, _place, Option.isSome_some, Option.map_some,
      Option.getD_some]
    exact .right _ fewer
  · exact .left _ _ (blocksLeft_load_lt (by rw [_place]; rfl) _loads _loaded)

/-- Goes to the first live entry. -/
def first (disk : Disk) (reader : LiveReader) : Option (Step LiveReader Fault) := do
  let step ← reader.load disk 0 Walker.atFirst
  if step.fault = none then settle disk step.state else some step

/-- Goes to the next live entry. -/
def next (disk : Disk) (reader : LiveReader) : Option (Step LiveReader Fault) :=
  match reader.walker with
  | none => reader.settle disk
  | some walker => do
    let after ← walker.next
    settle disk { reader with walker := some after }

/-- Goes to the first live entry whose key is not below the given one. -/
def seek (disk : Disk) (key : Key) (reader : LiveReader) : Option (Step LiveReader Fault) := do
  let step ← reader.load disk (reader.table.findBlock key) (Walker.atKey key)
  if step.fault = none then settle disk step.state else some step

/-- What the reader shows. -/
def view (reader : LiveReader) : Option View :=
  match reader.walker with
  | none => some .blank
  | some walker => do
    let value ← walker.value?
    some ⟨walker.isValid, walker.key, value, walker.seq, false⟩

/-- Makes a move. -/
def move (disk : Disk) (reader : LiveReader) : Move → Option (Step LiveReader Fault)
  | .first => reader.first disk
  | .next => reader.next disk
  | .seek key => reader.seek disk key

/-- What is to be seen behind each of the moves of a reader: the fault, if the move failed, and what the
reader shows. -/
def answers (reader : LiveReader) : List (Disk × Move) → Option (List (Option Fault × View))
  | [] => some []
  | (disk, move) :: later => do
    let step ← reader.move disk move
    let view ← step.state.view
    let rest ← answers step.state later
    some ((step.fault, view) :: rest)

/-! ## The reader and the cursor -/

/-- A reader is where a cursor over the live entries of the table is. -/
structure Alike (reader : LiveReader) (cursor : LiveCursor) : Prop where
  /-- They read the same table. -/
  table : reader.table = cursor.table
  /-- They tried the same block. -/
  blockIndex : reader.blockIndex = cursor.blockIndex
  /-- They have the same place in a block. -/
  place : Option.Rel Walker.Follows reader.walker cursor.block
  /-- The blocks of the table do not overlap. -/
  spaced : Spaced reader.table.toLayout

/-- There is an outcome, and it is that of the cursor. -/
def Gives (result : Option (Step LiveReader Fault)) (expected : Step LiveCursor Fault) : Prop :=
  ∃ step, result = some step ∧ step.fault = expected.fault ∧ step.state.Alike expected.state

variable {disk : Disk} {reader : LiveReader} {cursor : LiveCursor}

/-- Reading a block and taking a place in it has an outcome, if there is such a place. -/
theorem Alike.gives_load (alike : reader.Alike cursor) (disk : Disk) (index : Nat)
    {place : Block → Option Walker} {isPlace : List Entry → Block.Cursor}
    (places : ∀ (block : Block) (entries : List Entry), block.read = .ok entries →
      ∃ walker, place block = some walker ∧ walker.Follows (isPlace entries)) :
    Gives (reader.load disk index place) (cursor.load disk index isPlace) := by
  obtain ⟨table, blockIndex, walker, spaced⟩ := alike
  rw [load, LiveCursor.load, ← table]
  by_cases inside : index < reader.table.blockCount
  · rw [if_neg (Nat.not_le_of_lt inside), if_pos inside]
    obtain ⟨result, reads, same, accepted⟩ := exists_readBlock spaced disk index
    rw [reads, ← same]
    cases result with
    | error fault => exact ⟨_, rfl, rfl, rfl, rfl, walker, spaced⟩
    | ok block =>
      obtain ⟨walker, isWalker, follows⟩ := places block block.entries (accepted block rfl)
      refine ⟨.done { reader with blockIndex := index, walker := some walker }, ?_, rfl, ?_⟩
      · simp only [Option.bind_eq_bind, Option.bind_some, isWalker]
      · exact ⟨rfl, rfl, .some follows, spaced⟩
  · rw [if_pos (Nat.le_of_not_lt inside), if_neg inside]
    exact ⟨_, rfl, rfl, rfl, rfl, .none, spaced⟩

/-- Without a walker there is nowhere to go. -/
theorem settle_of_none (place : reader.walker = none) : reader.settle disk = some (.done reader) := by
  rw [settle]
  split
  · rfl
  · simp_all

variable {walker : Walker}

/-- At an entry the reader goes on if it is a tombstone and stays otherwise. -/
theorem settle_of_entry (place : reader.walker = some walker) (standing : walker.isValid = true) :
    reader.settle disk =
      if walker.kind = .delete then
        walker.next.bind fun after => settle disk { reader with walker := some after }
      else some (.done reader) := by
  rw [settle]
  split
  · simp_all
  · next found same =>
    cases place.symm.trans same
    rw [dif_pos standing]
    split
    · split <;> simp_all
    · rfl

/-- Behind the last entry of a block the reader goes on with the next block. -/
theorem settle_of_behind (place : reader.walker = some walker) (behind : walker.isValid = false) :
    reader.settle disk =
      (reader.load disk (reader.blockIndex + 1) Walker.atFirst).bind fun step =>
        if step.fault = none then settle disk step.state else some step := by
  rw [settle]
  split
  · simp_all
  · next found same =>
    cases place.symm.trans same
    rw [dif_neg (by simp [behind])]
    split
    · simp_all
    · next loads => rw [loads]; rfl

/-- Where the cursor has no place, there is no walker. -/
theorem Alike.nowhere (alike : reader.Alike cursor) (place : cursor.block = none) :
    reader.walker = none := by
  have places := alike.place
  rw [place] at places
  cases walker : reader.walker with
  | none => rfl
  | some walker =>
    rw [walker] at places
    cases places

/-- Where the cursor has a place, a walker follows it. -/
theorem Alike.exists_walker {block : Block.Cursor} (alike : reader.Alike cursor)
    (place : cursor.block = some block) :
    ∃ walker, reader.walker = some walker ∧ walker.Follows block := by
  have places := alike.place
  rw [place] at places
  cases walker : reader.walker with
  | none =>
    rw [walker] at places
    cases places
  | some walker =>
    rw [walker] at places
    cases places with
    | some follows => exact ⟨_, rfl, follows⟩

/-- Moving the walker as the cursor keeps them alike. -/
theorem Alike.moved {after : Walker} {block : Block.Cursor} (alike : reader.Alike cursor)
    (follows : after.Follows block) :
    Alike { reader with walker := some after } { cursor with block := some block } :=
  ⟨alike.table, alike.blockIndex, .some follows, alike.spaced⟩

/-- Settling has an outcome. -/
theorem Alike.gives_settle (disk : Disk) (alike : reader.Alike cursor) :
    Gives (reader.settle disk) (cursor.settle disk) := by
  fun_induction LiveCursor.settle disk cursor generalizing reader with
  | case1 cursor nowhere =>
    exact ⟨_, settle_of_none (alike.nowhere nowhere), rfl, alike⟩
  | case2 cursor block place entry here tombstone ih =>
    obtain ⟨walker, isWalker, follows⟩ := alike.exists_walker place
    obtain ⟨after, goes, followsNext⟩ := follows.exists_next
    obtain ⟨standing, shows⟩ := follows.at_entry here
    have isDelete : entry.kind = .delete := of_decide_eq_true tombstone
    rw [settle_of_entry isWalker standing, shows.kind, if_pos isDelete, goes, Option.bind_some]
    exact ih (alike.moved followsNext)
  | case3 cursor block place entry here live =>
    obtain ⟨walker, isWalker, follows⟩ := alike.exists_walker place
    obtain ⟨standing, shows⟩ := follows.at_entry here
    have notDelete : entry.kind ≠ .delete := of_decide_eq_false (eq_false_of_ne_true live)
    exact ⟨_, by rw [settle_of_entry isWalker standing, shows.kind, if_neg notDelete], rfl, alike⟩
  | case4 cursor block place here step loaded =>
    rename_i ih
    obtain ⟨walker, isWalker, follows⟩ := alike.exists_walker place
    obtain ⟨own, loads, fault, alikeLoaded⟩ :=
      alike.gives_load disk (cursor.blockIndex + 1) fun _ _ => Walker.exists_atFirst
    rw [settle_of_behind isWalker (follows.at_end here), alike.blockIndex, loads, Option.bind_some,
      if_pos (fault.trans loaded)]
    exact ih alikeLoaded
  | case5 cursor block place here step =>
    rename_i failed
    obtain ⟨walker, isWalker, follows⟩ := alike.exists_walker place
    obtain ⟨own, loads, fault, alikeLoaded⟩ :=
      alike.gives_load disk (cursor.blockIndex + 1) fun _ _ => Walker.exists_atFirst
    rw [settle_of_behind isWalker (follows.at_end here), alike.blockIndex, loads, Option.bind_some,
      if_neg (fault ▸ failed)]
    exact ⟨own, rfl, fault, alikeLoaded⟩

/-- Going on after a step that has an outcome has one, too. -/
theorem Gives.settled {result : Option (Step LiveReader Fault)} {expected : Step LiveCursor Fault}
    (gives : Gives result expected) :
    Gives (result.bind fun step => if step.fault = none then settle disk step.state else some step)
      (expected.andThen (LiveCursor.settle disk)) := by
  obtain ⟨step, rfl, fault, alike⟩ := gives
  rw [Option.bind_some, Step.andThen, ← fault]
  cases isFault : step.fault with
  | none => exact alike.gives_settle disk
  | some failure => exact ⟨step, rfl, fault, alike⟩

/-- Every move has an outcome. -/
theorem Alike.gives_move (disk : Disk) (alike : reader.Alike cursor) (move : Move) :
    Gives (reader.move disk move) (Move.ofLive disk cursor move) := by
  cases move with
  | first => exact (alike.gives_load disk 0 fun _ _ => Walker.exists_atFirst).settled
  | next =>
    change Gives (reader.next disk) (cursor.next disk)
    rw [next, LiveCursor.next]
    cases place : cursor.block with
    | none =>
      have nowhere := alike.nowhere place
      rw [nowhere, settle_of_none nowhere]
      exact ⟨_, rfl, rfl, alike⟩
    | some block =>
      obtain ⟨walker, isWalker, follows⟩ := alike.exists_walker place
      obtain ⟨after, goes, followsNext⟩ := follows.exists_next
      rw [isWalker]
      dsimp only
      rw [goes]
      exact (alike.moved followsNext).gives_settle disk
  | seek key =>
    change Gives (reader.seek disk key) (cursor.seek disk key)
    rw [seek, LiveCursor.seek, ← alike.table]
    exact (alike.gives_load disk _ fun _ _ => Walker.exists_atKey key).settled

/-- What the reader shows is what the cursor shows. -/
theorem Alike.view (alike : reader.Alike cursor) : reader.view = some cursor.view := by
  rw [LiveReader.view, LiveCursor.view]
  cases place : cursor.block with
  | none => rw [alike.nowhere place]
  | some block =>
    obtain ⟨walker, isWalker, follows⟩ := alike.exists_walker place
    rw [isWalker]
    simp only [follows.value, follows.isValid, follows.key, follows.seq, Option.bind_eq_bind,
      Option.bind_some]

/-- Whatever moves are made, each has an outcome, and that is what the cursor shows behind it. -/
theorem Alike.answers_eq (alike : reader.Alike cursor) (moves : List (Disk × Move)) :
    reader.answers moves = some (liveAnswers cursor moves) := by
  induction moves generalizing reader cursor with
  | nil => rfl
  | cons call later ih =>
    obtain ⟨step, moves, fault, alikeAfter⟩ := alike.gives_move call.1 call.2
    simp only [answers, moves, alikeAfter.view, ih alikeAfter, fault, Option.bind_eq_bind,
      Option.bind_some]
    rfl

/-- A reader of a table starts as a cursor over its live entries does. -/
theorem alike_ofTable {table : Table} (spaced : Spaced table.toLayout) :
    (ofTable table).Alike (LiveCursor.ofTable table) :=
  ⟨rfl, rfl, .none, spaced⟩

end LiveReader

end SortedTables.Unchecked
