import SortedTables.Block.Cursor
import SortedTables.Cursor.Basic

/-!
# Live entries of a table

The ordinary way to read a table: a cursor over its writes, with tombstones passed over. It reads one
block at a time, when it gets there. Passing over a run of tombstones can take it through any number
of blocks; a block that cannot be read ends the move with a fault, and the cursor shows no entry
until it is moved again, which then goes on with the block after that one.
-/

namespace SortedTables

/-- A cursor over the live entries of a table. -/
structure LiveCursor where
  /-- The table. -/
  table : Table
  /-- The block that was read or tried last. -/
  blockIndex : Nat
  /-- The place in the block that was read last; none behind the last block. -/
  block : Option Block.Cursor
deriving DecidableEq

namespace LiveCursor

/-- What the cursor shows. It never shows a tombstone. -/
def view (cursor : LiveCursor) : View :=
  match cursor.block with
  | none => .blank
  | some block => ⟨block.isValid, block.key, block.value, block.seq, false⟩

/-- A bound on the entries the cursor can still reach: those left in its block, and as many as a
block can have for the block and each one behind it. -/
def budget (cursor : LiveCursor) : Nat :=
  match cursor.block with
  | none => 0
  | some block =>
    block.rest.length + 65536 * (cursor.table.blockCount - cursor.blockIndex) + 1

/-- Reads a block and takes a place in it. Behind the last block there is no place. A block that
cannot be read counts as tried, and the old place is kept. -/
def load (disk : Disk) (index : Nat) (place : List Entry → Block.Cursor) (cursor : LiveCursor) :
    Step LiveCursor Fault :=
  if index < cursor.table.blockCount then
    match cursor.table.readBlock disk index with
    | .error fault => .failed { cursor with blockIndex := index } (.read cursor.table.path fault)
    | .ok entries => .done { cursor with blockIndex := index, block := some (place entries) }
  else
    .done { cursor with blockIndex := index, block := none }

/-- Going to the start of the next block uses up some of the bound. -/
theorem budget_load_lt {disk : Disk} {cursor : LiveCursor} {block : Block.Cursor}
    (place : cursor.block = some block)
    (loaded : (cursor.load disk (cursor.blockIndex + 1) .atFirst).fault = none) :
    (cursor.load disk (cursor.blockIndex + 1) .atFirst).state.budget < cursor.budget := by
  have before : cursor.budget =
      block.rest.length + 65536 * (cursor.table.blockCount - cursor.blockIndex) + 1 := by
    simp only [budget, place]
  rw [before]
  unfold load at loaded ⊢
  split
  · next inside =>
    split
    · next failed => simp [inside, failed] at loaded
    · next entries read =>
      have few := Table.length_of_readBlock read
      simp only [Step.state_done, budget, Block.Cursor.atFirst]
      omega
  · simp only [Step.state_done, budget]
    omega

/-- Moves the cursor, unless it stands at a live entry, to the next one. -/
def settle (disk : Disk) (cursor : LiveCursor) : Step LiveCursor Fault :=
  match _place : cursor.block with
  | none => .done cursor
  | some block =>
    match _here : block.current? with
    | some entry =>
      if entry.isTombstone then settle disk { cursor with block := some block.next }
      else .done cursor
    | none =>
      let step := cursor.load disk (cursor.blockIndex + 1) .atFirst
      if _loaded : step.fault = none then settle disk step.state else step
termination_by cursor.budget
decreasing_by
  · have standing : block.rest ≠ [] := by
      intro behind
      simp [Block.Cursor.current?, behind] at _here
    have fewer := block.length_rest_next
    have positive := List.length_pos_iff.mpr standing
    simp only [budget, _place, fewer]
    omega
  · exact budget_load_lt _place _loaded

/-- Behind the last block there is nowhere to go. -/
theorem settle_of_none {disk : Disk} {cursor : LiveCursor} (place : cursor.block = none) :
    cursor.settle disk = .done cursor := by
  rw [settle]
  split <;> simp_all

/-- At an entry the cursor goes on if it is a tombstone and stays otherwise. -/
theorem settle_of_entry {disk : Disk} {cursor : LiveCursor} {block : Block.Cursor} {entry : Entry}
    (place : cursor.block = some block) (here : block.current? = some entry) :
    cursor.settle disk =
      if entry.isTombstone then settle disk { cursor with block := some block.next }
      else .done cursor := by
  rw [settle]
  split
  · simp_all
  · next found same =>
    cases place.symm.trans same
    split <;> simp_all

/-- Behind the last entry of a block the cursor goes on with the next block. -/
theorem settle_of_behind {disk : Disk} {cursor : LiveCursor} {block : Block.Cursor}
    (place : cursor.block = some block) (here : block.current? = none) :
    cursor.settle disk =
      (cursor.load disk (cursor.blockIndex + 1) .atFirst).andThen (settle disk) := by
  rw [settle]
  split
  · simp_all
  · next found same =>
    cases place.symm.trans same
    split
    · simp_all
    · simp only [Step.andThen]
      split <;> split <;> simp_all

/-- Goes to the next live entry. -/
def next (disk : Disk) (cursor : LiveCursor) : Step LiveCursor Fault :=
  match cursor.block with
  | none => .done cursor
  | some block => settle disk { cursor with block := some block.next }

/-- Goes to the first live entry. -/
def seekFirst (disk : Disk) (cursor : LiveCursor) : Step LiveCursor Fault :=
  (cursor.load disk 0 .atFirst).andThen (settle disk)

/-- Goes to the first live entry whose key is not below the given one. -/
def seek (disk : Disk) (key : Key) (cursor : LiveCursor) : Step LiveCursor Fault :=
  (cursor.load disk (cursor.table.findBlock key) fun entries =>
    (Block.Cursor.atFirst entries).seek key).andThen (settle disk)

/-- The cursor that has not moved yet. -/
def ofTable (table : Table) : LiveCursor := ⟨table, 0, none⟩

/-- A cursor at the first live entry, or at the first one whose key is not below the given one. -/
def start (disk : Disk) (table : Table) (key? : Option Key) : Except Fault LiveCursor :=
  let step :=
    match key? with
    | none => (ofTable table).seekFirst disk
    | some key => (ofTable table).seek disk key
  match step.fault with
  | some fault => .error fault
  | none => .ok step.state

/-- Settling never adds to the bound. -/
theorem budget_settle_le (disk : Disk) (cursor : LiveCursor) :
    (cursor.settle disk).state.budget ≤ cursor.budget := by
  fun_induction settle disk cursor with
  | case1 => exact Nat.le_refl _
  | case2 cursor block place entry here tombstone ih =>
    have fewer := block.length_rest_next
    refine Nat.le_trans ih ?_
    simp only [budget, place, fewer]
    omega
  | case3 => exact Nat.le_refl _
  | case4 cursor block place here step loaded ih =>
    exact Nat.le_trans ih (Nat.le_of_lt (budget_load_lt place loaded))
  | case5 cursor block place here step failed =>
    have before : cursor.budget =
        block.rest.length + 65536 * (cursor.table.blockCount - cursor.blockIndex) + 1 := by
      simp only [budget, place]
    rw [before]
    simp only [step, load] at failed ⊢
    split
    · split
      · simp only [Step.state_failed, budget, place]
        omega
      · next read => simp_all
    · simp_all

/-- Settling behind the last entry of a block uses up some of the bound. -/
theorem budget_settle_lt {disk : Disk} {cursor : LiveCursor} {block : Block.Cursor}
    (place : cursor.block = some block) (here : block.current? = none)
    (settled : (cursor.settle disk).fault = none) :
    (cursor.settle disk).state.budget < cursor.budget := by
  rw [settle_of_behind place here, Step.andThen] at settled ⊢
  split at settled
  · next loaded =>
    exact Nat.lt_of_le_of_lt (budget_settle_le _ _) (budget_load_lt place loaded)
  · next failed => simp [failed] at settled

instance : Cursor LiveCursor where
  view := view
  next := next
  seek := seek
  close cursor := .done cursor
  active _ := 1
  budget := budget
  budget_next_lt := by
    intro disk cursor moved valid
    cases place : cursor.block with
    | none => simp [next, place, view, View.blank] at valid
    | some block =>
      simp only [next, place] at moved valid ⊢
      have fewer := block.length_rest_next
      by_cases standing : block.rest = []
      · have behind : block.next.current? = none := by
          simp [Block.Cursor.current?, Block.Cursor.next, standing]
        refine Nat.lt_of_lt_of_le (budget_settle_lt rfl behind moved) ?_
        simp only [budget, place, fewer]
        omega
      · have positive := List.length_pos_iff.mpr standing
        refine Nat.lt_of_le_of_lt (budget_settle_le _ _) ?_
        simp only [budget, place, fewer]
        omega

end LiveCursor

end SortedTables
