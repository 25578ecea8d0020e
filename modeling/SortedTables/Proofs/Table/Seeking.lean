import SortedTables.Proofs.Cursor.Draining
import SortedTables.Proofs.Table.LiveReading

/-!
# Seeking among the live entries of a table

A cursor over the live entries of a table that a builder has made can be sent anywhere from anywhere.
Whatever moves it has made, going to a key brings it to the first write whose key is not below that
one, and from there it is drained of exactly these writes (`LiveCursor.goes_of_reached`). No move of
such a cursor fails, since every block can be read.

Seeking reads the block that the index names for the key, so nothing of the earlier place enters. A
move to the next entry does start from the earlier place: it is enough to know that a cursor at rest
has no block any more or stands at a write (`LiveCursor.AtRest`), which settling always brings about.
-/

namespace SortedTables

namespace Table

/-- A table is what a builder has made of entries: it was built of them and its file is as it was then,
or it was opened from a file that a builder has left. -/
inductive Made (disk : Disk) (entries : List Entry) : Table → Prop where
  | built {blockSize : Nat} {builder : TableBuilder} {before after : Disk} {path : String}
      {table : Table} (taken : (TableBuilder.ofBlockSize blockSize).addAll entries = .done builder)
      (sound : before.Sound) (built : builder.build before path = .ok (table, after))
      (kept : disk.content table.file = after.content table.file) : Made disk entries table
  | opened {path : String} {table : Table} (held : disk.HoldsRun path entries)
      (opened : openPath disk path = .ok table) : Made disk entries table

variable {disk : Disk} {table : Table} {entries : List Entry} {groups : List (List Entry)}

/-- A table that a builder has made holds its entries, and every block can be read. -/
theorem Made.holds (made : Made disk entries table) :
    ∃ groups, groups.flatten = entries ∧ table.Holds disk groups ∧ table.Readable disk := by
  cases made with
  | built taken sound built kept =>
    obtain ⟨groups, describes, whole, _, content⟩ :=
      TableBuilder.describes_of_build taken sound built
    have reads {index : Nat} {group : List Entry} (found : groups[index]? = some group) :
        table.readBlock disk index = .ok group :=
      describes.readBlock_of_content (kept.trans content) found
    refine ⟨groups, whole, describes.holds fun _ _ found => Or.inl (reads found), ?_⟩
    intro index inside
    rw [describes.blockCount] at inside
    exact ⟨_, reads (List.getElem?_eq_getElem inside)⟩
  | opened held opened =>
    obtain ⟨own, groups, isOwn, whole, holds, readable⟩ := held.opens
    cases opened.symm.trans isOwn
    exact ⟨groups, whole, holds, readable⟩

/-- Where every block can be read, reading from a block on meets all that is stored from there on. -/
theorem Holds.reads_of_readable (holds : table.Holds disk groups) (readable : table.Readable disk)
    (index : Nat) :
    table.Reads disk (fun _ => true) index (groups.drop index).flatten none := by
  obtain ⟨met, ending, reads⟩ := table.exists_reads disk (fun _ => true) index
  obtain rfl := holds.eq_none_of_readable readable reads
  obtain ⟨count, isMet, _, spent, _⟩ := holds.spec_of_reads reads
  have behind : table.blocks[index + count]? = none := by
    cases inside : table.blocks[index + count]? with
    | none => rfl
    | some block => cases spent rfl block inside
  have all : (groups.drop index).take count = groups.drop index := by
    rw [List.getElem?_eq_none_iff, holds.length_blocks] at behind
    apply List.take_of_length_le
    rw [List.length_drop]
    omega
  rwa [isMet, all] at reads

end Table

namespace LiveCursor

open Cursor

variable {disk : Disk} {table : Table} {cursor : LiveCursor} {entries : List Entry}

/-- The cursors over a table that moves lead to, in any order and number. -/
inductive Reached (disk : Disk) (table : Table) : LiveCursor → Prop where
  | start : Reached disk table (ofTable table)
  | first {cursor : LiveCursor} (reached : Reached disk table cursor) :
      Reached disk table (cursor.seekFirst disk).state
  | seek {cursor : LiveCursor} (reached : Reached disk table cursor) (key : Key) :
      Reached disk table (cursor.seek disk key).state
  | next {cursor : LiveCursor} (reached : Reached disk table cursor) :
      Reached disk table (cursor.next disk).state

/-- A cursor over a table that has no block any more, or stands at a write. -/
structure AtRest (table : Table) (cursor : LiveCursor) : Prop where
  /-- The cursor is one over the table. -/
  table_eq : cursor.table = table
  /-- In a block it stands at a write. -/
  atWrite : ∀ block, cursor.block = some block →
    ∃ entry, block.current? = some entry ∧ entry.isTombstone = false

/-- A step of a cursor over a table that does not fail and leaves the cursor at rest. -/
structure Settles (table : Table) (step : Step LiveCursor Fault) : Prop where
  /-- The step does not fail. -/
  fine : step.fault = none
  /-- The cursor that is left is at rest. -/
  atRest : AtRest table step.state

/-- A cursor at rest that is not valid has no block any more. -/
theorem AtRest.block_eq_none (rests : AtRest table cursor) (spent : isValid cursor = false) :
    cursor.block = none := by
  cases place : cursor.block with
  | none => rfl
  | some block =>
    obtain ⟨entry, here, _⟩ := rests.atWrite block place
    obtain ⟨later, isRest⟩ := List.head?_eq_some_iff.mp here
    change (LiveCursor.view cursor).valid = false at spent
    simp [LiveCursor.view, place, Block.Cursor.isValid, isRest] at spent

/-- Where every block can be read, loading a block does not fail. -/
theorem fault_load (readable : cursor.table.Readable disk) (index : Nat)
    (place : List Entry → Block.Cursor) :
    (cursor.load disk index place).fault = none ∧
      (cursor.load disk index place).state.table = cursor.table := by
  unfold load
  split
  · next inside =>
    obtain ⟨group, read⟩ := readable index inside
    rw [read]
    exact ⟨rfl, rfl⟩
  · exact ⟨rfl, rfl⟩

/-- Where every block can be read, settling does not fail. It goes on until the cursor is at rest. -/
theorem settles_settle (readable : table.Readable disk) (isOver : cursor.table = table) :
    Settles table (cursor.settle disk) := by
  fun_induction settle disk cursor with
  | case1 cursor place =>
    refine ⟨rfl, isOver, fun block isBlock => ?_⟩
    cases place.symm.trans isBlock
  | case2 cursor block place entry here tombstone ih => exact ih isOver
  | case3 cursor block place entry here live =>
    refine ⟨rfl, isOver, fun other isOther => ?_⟩
    cases place.symm.trans isOther
    exact ⟨entry, here, Bool.eq_false_iff.mpr live⟩
  | case4 cursor block place here step loaded ih =>
    subst isOver
    exact ih (fault_load readable _ _).2
  | case5 cursor block place here step failed =>
    subst isOver
    exact absurd (fault_load readable _ _).1 failed

/-- Loading a block and settling does not fail and leaves the cursor at rest. -/
theorem settles_of_load (readable : table.Readable disk) (isOver : cursor.table = table) (index : Nat)
    (place : List Entry → Block.Cursor) :
    Settles table ((cursor.load disk index place).andThen (settle disk)) := by
  subst isOver
  obtain ⟨fine, same⟩ := fault_load readable index place
  rw [Step.andThen, fine]
  exact settles_settle readable same

/-- From rest a cursor goes to the next entry without a fault and is at rest again. -/
theorem AtRest.settles_next (rests : AtRest table cursor) (readable : table.Readable disk) :
    Settles table (cursor.next disk) := by
  rw [next]
  cases place : cursor.block with
  | none => exact ⟨rfl, rests⟩
  | some block => exact settles_settle readable rests.table_eq

/-- Whatever moves it has made, a cursor is at rest. -/
theorem Reached.atRest (reached : Reached disk table cursor) (readable : table.Readable disk) :
    AtRest table cursor := by
  induction reached with
  | start => exact ⟨rfl, fun _ isBlock => by cases isBlock⟩
  | first _ ih => exact (settles_of_load readable ih.table_eq 0 _).atRest
  | seek _ key ih => exact (settles_of_load readable ih.table_eq _ _).atRest
  | next _ ih => exact (ih.settles_next readable).atRest

/-- A step that succeeds and leaves a cursor at the first of some entries, or at none if there are none.
From there the cursor is drained of these entries, and is not valid any more then. -/
def GoesTo (disk : Disk) (step : Step LiveCursor Fault) (entries : List Entry) : Prop :=
  ∃ found last, step = .done found ∧ showing? found = entries.head? ∧
    Drains disk showing? found entries last ∧ isValid last = false

/-- The writes from a lower end on are stored from the block on that the index names for it. -/
theorem writes_of_drop {groups : List (List Entry)} (holds : table.Holds disk groups)
    (lower : Option Key) :
    writes ((groups.drop (table.firstBlock lower)).flatten.filter fun entry =>
        Key.reaches lower entry.key) =
      groups.flatten.filter fun entry => !entry.isTombstone && Key.reaches lower entry.key := by
  have before : ((groups.take (table.firstBlock lower)).flatten.filter fun entry =>
      !entry.isTombstone && Key.reaches lower entry.key) = [] :=
    List.filter_eq_nil_iff.mpr fun entry early => by simp [holds.reaches_of_take lower entry early]
  have split : groups.flatten = (groups.take (table.firstBlock lower)).flatten ++
      (groups.drop (table.firstBlock lower)).flatten := by
    rw [← List.flatten_append, List.take_append_drop]
  rw [split, List.filter_append, before, List.nil_append, writes, List.filter_filter]

/-- Wherever a cursor over a readable table stands, it goes to a lower end. -/
theorem goesTo_goTo {groups : List (List Entry)} (holds : cursor.table.Holds disk groups)
    (readable : cursor.table.Readable disk) (lower : Option Key) :
    GoesTo disk (cursor.goTo disk lower)
      (groups.flatten.filter fun entry => !entry.isTombstone && Key.reaches lower entry.key) := by
  have fine : (cursor.goTo disk lower).fault = none := by
    cases lower with
    | none => exact (settles_of_load readable rfl _ _).fine
    | some low => exact (settles_of_load readable rfl _ _).fine
  have walks := walks_of_settled
    (settled_goTo holds (holds.reads_of_readable readable (cursor.table.firstBlock lower)))
  rw [fine, writes_of_drop holds lower] at walks
  obtain ⟨last, drains⟩ := walks.exists_drains
  refine ⟨_, last, congrArg (Step.mk _) fine, walks.head?_eq.symm, drains, ?_⟩
  exact valid_of_showing?_eq_none drains.look_last

/-- Let a cursor over a table that a builder has made have been moved in any way. The keys of the table
ascend. Going to one brings the cursor to the first write whose key is not below it, or to none if there
is none, and it is drained of exactly the writes from there on. Going to the first entry admits every
key. Where the cursor stands nowhere, it stays as it is when it is sent to the next entry. -/
theorem goes_of_reached (made : table.Made disk entries) (reached : Reached disk table cursor) :
    Ascending entries ∧
    (∀ key, GoesTo disk (cursor.seek disk key)
      (entries.filter fun entry => !entry.isTombstone && key ≤ entry.key)) ∧
    GoesTo disk (cursor.seekFirst disk) (entries.filter fun entry => !entry.isTombstone) ∧
    (isValid cursor = false → cursor.next disk = .done cursor) := by
  obtain ⟨groups, rfl, holds, readable⟩ := made.holds
  have rests := reached.atRest readable
  obtain rfl := rests.table_eq
  refine ⟨holds.ascends, fun key => goesTo_goTo holds readable (some key), ?_, fun spent => ?_⟩
  · have goes := goesTo_goTo holds readable none
    simpa only [goTo, Key.reaches, Option.all_none, Bool.and_true] using goes
  · rw [next, rests.block_eq_none spent]

/-- Two writes with two tombstones between them. One tombstone is the last entry of its block, the other
one the first entry of the next block. -/
def buried : List Entry :=
  [⟨⟨[]⟩, 3, .put, [0, 255]⟩, ⟨⟨[10]⟩, 9, .delete, []⟩, ⟨⟨[10, 0]⟩, 4, .delete, []⟩,
    ⟨⟨[20, 1]⟩, 0, .put, []⟩]

/-- A cursor that was sent behind the last entry stands nowhere. Sent to a key between the first two
entries, it passes over the tombstones in both blocks. -/
theorem goes_of_reached_buried :
    ∃ table cursor, Table.Made (.ofTables 40 [("t", buried)]) buried table ∧ table.blockCount = 2 ∧
      Reached (.ofTables 40 [("t", buried)]) table cursor ∧ isValid cursor = false ∧
      GoesTo (.ofTables 40 [("t", buried)]) (cursor.seek (.ofTables 40 [("t", buried)]) ⟨[9]⟩)
        [⟨⟨[20, 1]⟩, 0, .put, []⟩] := by
  let disk : Disk := .ofTables 40 [("t", buried)]
  have held : disk.HoldsRun "t" buried := by
    refine Disk.holdsRun_of_content 40 0 ?_ ?_ ?_ ?_
    all_goals first | exact ByteStore.bytes_ofBytes _ | decide +kernel
  obtain ⟨table, _, opened, _, _, _⟩ := held.opens
  have blocks : (Table.openPath disk "t").toOption.map Table.blockCount = some 2 := by
    decide +kernel
  rw [opened] at blocks
  have made : table.Made disk buried := .opened held opened
  have begins : Reached disk table (ofTable table) := .start
  obtain ⟨found, _, does, shows, _⟩ := (goes_of_reached made begins).2.1 ⟨[21]⟩
  have behind : Reached disk table found := by
    have reached := Reached.seek begins ⟨[21]⟩
    rwa [does] at reached
  have spent : isValid found = false := valid_of_showing?_eq_none shows
  refine ⟨table, found, made, Option.some.inj blocks, behind, spent, ?_⟩
  exact (goes_of_reached made behind).2.1 ⟨[9]⟩

end LiveCursor

end SortedTables
