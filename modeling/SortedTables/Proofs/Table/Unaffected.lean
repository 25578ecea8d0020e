import SortedTables.Proofs.Table.LiveReading

/-!
# Live reading that is unaffected by other blocks

A cursor over the live entries of a table goes back only if it seeks. Until then it reads no block
before the one that it has come to. If the blocks from there on read alike in two directories, the
cursor does the same in both, whatever the blocks before hold (`LiveCursor.next_unaffected`). Started
at a lower end, it has come to the block that the index names for that (`LiveCursor.start_unaffected`).

The lemmas say of each operation that it does the same in both directories, and leaves a cursor that is
unaffected again.
-/

namespace SortedTables

/-- Steps that go on alike behind steps that are alike. -/
theorem Step.andThen_unaffected {σ ε : Type} (Kept : σ → Prop) {step otherStep : Step σ ε}
    {next otherNext : σ → Step σ ε} (same : otherStep = step) (kept : Kept step.state)
    (onward : ∀ state, Kept state → otherNext state = next state ∧ Kept (next state).state) :
    otherStep.andThen otherNext = step.andThen next ∧ Kept (step.andThen next).state := by
  rw [same, andThen, andThen]
  split
  · exact onward step.state kept
  · exact ⟨rfl, kept⟩

/-- The blocks of a table that hold nothing between two ends: those before the block that the index
names for the lower one, and those that start at the upper one or behind. -/
def Table.Outside (table : Table) (lower upper : Option Key) (index : Nat) : Prop :=
  index < table.firstBlock lower ∨
    ∃ key block, upper = some key ∧ table.blocks[index]? = some block ∧ key ≤ block.firstKey

/-- Blocks of a table from one on read alike in two directories. -/
def Table.SameFrom (table : Table) (disk other : Disk) (first : Nat) : Prop :=
  ∀ index, first ≤ index → table.readBlock other index = table.readBlock disk index

namespace LiveCursor

variable {disk other : Disk} {table : Table} {cursor : LiveCursor}

/-- What a cursor over a table may still read without seeking is the same in two directories. -/
structure Unaffected (disk other : Disk) (table : Table) (cursor : LiveCursor) : Prop where
  /-- The cursor is over the table. -/
  ofTable : cursor.table = table
  /-- The blocks from the one on that it has come to read alike. -/
  same : table.SameFrom disk other cursor.blockIndex

/-- A block is loaded alike. -/
theorem load_unaffected {index : Nat} (isTable : cursor.table = table)
    (same : table.SameFrom disk other index) (place : List Entry → Block.Cursor) :
    cursor.load other index place = cursor.load disk index place ∧
      (cursor.load disk index place).state.Unaffected disk other table := by
  subst isTable
  unfold load
  rw [same index (Nat.le_refl _)]
  refine ⟨rfl, ?_⟩
  split
  · split <;> exact ⟨rfl, same⟩
  · exact ⟨rfl, same⟩

/-- A cursor settles alike. -/
theorem settle_unaffected (unaffected : cursor.Unaffected disk other table) :
    cursor.settle other = cursor.settle disk ∧
      (cursor.settle disk).state.Unaffected disk other table := by
  have onward (cursor : LiveCursor) (unaffected : cursor.Unaffected disk other table) :=
    load_unaffected unaffected.ofTable
      (fun index behind => unaffected.same index (Nat.le_of_succ_le behind)) Block.Cursor.atFirst
  fun_induction settle disk cursor with
  | case1 cursor place => exact ⟨settle_of_none place, unaffected⟩
  | case2 cursor block place entry here tombstone ih =>
    rw [settle_of_entry place here, if_pos tombstone]
    exact ih ⟨unaffected.ofTable, unaffected.same⟩
  | case3 cursor block place entry here live =>
    rw [settle_of_entry place here, if_neg live]
    exact ⟨rfl, unaffected⟩
  | case4 cursor block place here step loaded ih =>
    obtain ⟨same, still⟩ := onward cursor unaffected
    rw [settle_of_behind place here, same, Step.andThen, show step.fault = none from loaded]
    exact ih still
  | case5 cursor block place here step failed =>
    obtain ⟨same, still⟩ := onward cursor unaffected
    rw [settle_of_behind place here, same, Step.andThen]
    cases fault : step.fault with
    | none => exact absurd fault failed
    | some _ => exact ⟨rfl, still⟩

/-- A cursor goes on alike. -/
theorem next_unaffected (unaffected : cursor.Unaffected disk other table) :
    cursor.next other = cursor.next disk ∧
      (cursor.next disk).state.Unaffected disk other table := by
  unfold next
  split
  · exact ⟨rfl, unaffected⟩
  · exact settle_unaffected ⟨unaffected.ofTable, unaffected.same⟩

/-- A cursor settles alike in a block that is loaded alike. -/
theorem load_andThen_unaffected {index : Nat} (isTable : cursor.table = table)
    (same : table.SameFrom disk other index) (place : List Entry → Block.Cursor) :
    (cursor.load other index place).andThen (settle other) =
        (cursor.load disk index place).andThen (settle disk) ∧
      ((cursor.load disk index place).andThen (settle disk)).state.Unaffected disk other table := by
  obtain ⟨loaded, still⟩ := load_unaffected isTable same place
  exact Step.andThen_unaffected _ loaded still fun _ => settle_unaffected

/-- A cursor seeks alike if the blocks from the one on that the index names read alike. -/
theorem seek_unaffected {key : Key} (isTable : cursor.table = table)
    (same : table.SameFrom disk other (table.findBlock key)) :
    cursor.seek other key = cursor.seek disk key ∧
      (cursor.seek disk key).state.Unaffected disk other table := by
  subst isTable
  exact load_andThen_unaffected rfl same _

/-- A cursor goes to a lower end alike if the blocks from the one on that reading starts with read
alike. -/
theorem goTo_unaffected {lower : Option Key} (isTable : cursor.table = table)
    (same : table.SameFrom disk other (table.firstBlock lower)) :
    cursor.goTo other lower = cursor.goTo disk lower ∧
      (cursor.goTo disk lower).state.Unaffected disk other table := by
  cases lower with
  | none => exact load_andThen_unaffected isTable same .atFirst
  | some key => exact seek_unaffected isTable same

/-- A cursor starts alike if the blocks from the one on that reading starts with read alike. -/
theorem start_unaffected {lower : Option Key}
    (same : table.SameFrom disk other (table.firstBlock lower)) :
    start other table lower = start disk table lower ∧
      ∀ cursor, start disk table lower = .ok cursor → cursor.Unaffected disk other table := by
  have isTable : (ofTable table).table = table := rfl
  obtain ⟨goes, kept⟩ := goTo_unaffected isTable same
  cases outcome : ((ofTable table).goTo disk lower).fault with
  | some fault =>
    have failed := outcome
    rw [← goes] at failed
    rw [start_of_failed outcome, start_of_failed failed]
    exact ⟨rfl, fun cursor started => by cases started⟩
  | none =>
    have fine := outcome
    rw [← goes] at fine
    rw [start_of_done outcome, start_of_done fine, goes]
    refine ⟨rfl, fun cursor started => ?_⟩
    cases started
    exact kept

end LiveCursor

end SortedTables
