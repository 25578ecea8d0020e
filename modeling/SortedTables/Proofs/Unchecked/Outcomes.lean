import SortedTables.Proofs.Unchecked.Dump
import SortedTables.Proofs.Unchecked.Live

/-!
# Every access is in range

A file of any content is opened. If it opens as a table, its blocks are read and walked through, and
its live entries and its dumps are read. None of this ever makes an access out of range, also if the
file has changed by then. The keys need not be in order for it, and the index and the blocks need not
agree.
-/

namespace SortedTables.Unchecked

/-- Whatever the bytes of a file are, opening it has an outcome. If it opens, so has whatever is done
with the table, at any time and in any order: reading a block and walking through it, moving a reader
of its live entries, and reading a dump in portions. All outcomes are those of the library. -/
theorem exists_outcomes (disk : Disk) (path : String) (file : FileId) :
    openTable disk path file = some ((Table.openFile disk path file).mapError .table) ∧
      ∀ table, Table.openFile disk path file = .ok table →
        (∀ (later : Disk) (index : Nat), ∃ result, readBlock later table index = some result ∧
          result.map Block.entries = table.readBlock later index ∧
          ∀ block, result = .ok block → ∀ (key? : Option Key) (moves : List Move),
            ∃ walker, Walker.walk block key? moves = some walker ∧
              walker.Follows (cursorBehind block.entries key? moves)) ∧
        (∀ moves : List (Disk × Move), (LiveReader.ofTable table).answers moves =
          some (liveAnswers (.ofTable table) moves)) ∧
        ∀ (range : KeyRange) (readings : List (Disk × Nat)),
          (DumpReader.ofTable table range).answers readings =
            some (DumpReader.streamAnswers (.ofTable table range) readings) := by
  refine ⟨openTable_eq disk path file, fun table opens => ?_⟩
  have spaced : Spaced table.toLayout := by
    rw [Table.openFile] at opens
    split at opens
    · cases opens
    · next stated =>
      cases opens
      exact spaced_of_ofFile stated
  refine ⟨fun later index => ?_, fun moves => ?_, fun range readings => ?_⟩
  · obtain ⟨result, reads, same, accepted⟩ := exists_readBlock spaced later index
    refine ⟨result, reads, same, fun block isBlock key? moves => ?_⟩
    exact Walker.exists_walk (accepted block isBlock) key? moves
  · exact (LiveReader.alike_ofTable spaced).answers_eq moves
  · obtain ⟨holds, isStream⟩ := DumpReader.holds_ofTable spaced range
    rw [holds.answers_eq readings, isStream]

/-- Entries that are not in order. -/
def unsorted : List Entry := [⟨⟨[9]⟩, 1, .delete, []⟩, ⟨⟨[3]⟩, 2, .put, [7]⟩]

/-- A file of three blocks: one without entries, one whose entries are not in order, and one that does
not have the checksum behind it. What the index says about their keys is not true of any of them. -/
def unruly : Bytes :=
  let data := Block.stored [] ++ Block.stored unsorted ++ [1, 2, 3, 4, 5]
  let offsets := [0, (Block.stored []).length, (Block.stored [] ++ Block.stored unsorted).length]
  let index := BlockMeta.encodeIndex (offsets.map fun offset => ⟨offset, ⟨[5]⟩, ⟨[4]⟩⟩)
  data ++ index ++ Footer.encode index data.length .empty

/-- The directory with this file. -/
def unrulyDisk : Disk := .ofFile "t" unruly

/-- The file opens as a table. A reader passes over the empty block and the tombstone, reports the block
that is damaged, and ends behind it. A dump lists what it can and reports this block each time. -/
theorem exists_outcomes_unruly :
    ∃ table, openTable unrulyDisk "t" 0 = some (.ok table) ∧
      (∃ block, readBlock unrulyDisk table 1 = some (.ok block) ∧ block.entries = unsorted) ∧
      (LiveReader.ofTable table).answers
          [(unrulyDisk, .first), (unrulyDisk, .next), (unrulyDisk, .next)] =
        some [(none, ⟨true, ⟨[3]⟩, [7], 2, false⟩),
          (some (.read "t" (.checksum 2)), ⟨false, .empty, [], 2, false⟩), (none, .blank)] ∧
      (DumpReader.ofTable table .all).answers
          [(unrulyDisk, 99), (unrulyDisk, 99), (unrulyDisk, 99), (unrulyDisk, 0)] =
        some [.ok (DumpLine.header .all).bytes,
          .ok (unsorted.flatMap fun entry => (DumpLine.entry entry).bytes),
          .error (.checksum 2), .error (.checksum 2)] := by
  obtain ⟨opens, outcomes⟩ := exists_outcomes unrulyDisk "t" 0
  have live : (Table.openFile unrulyDisk "t" 0).toOption.map (fun table =>
      liveAnswers (.ofTable table)
        [(unrulyDisk, .first), (unrulyDisk, .next), (unrulyDisk, .next)]) =
      some [(none, ⟨true, ⟨[3]⟩, [7], 2, false⟩),
        (some (.read "t" (.checksum 2)), ⟨false, .empty, [], 2, false⟩), (none, .blank)] := by
    decide +kernel
  have dump : (Table.openFile unrulyDisk "t" 0).toOption.map (fun table =>
      DumpReader.streamAnswers (.ofTable table .all)
        [(unrulyDisk, 99), (unrulyDisk, 99), (unrulyDisk, 99), (unrulyDisk, 0)]) =
      some [.ok (DumpLine.header .all).bytes,
        .ok (unsorted.flatMap fun entry => (DumpLine.entry entry).bytes),
        .error (.checksum 2), .error (.checksum 2)] := by
    decide +kernel
  have reads : (Table.openFile unrulyDisk "t" 0).toOption.map (fun table =>
      table.readBlock unrulyDisk 1) = some (.ok unsorted) := by
    decide +kernel
  cases opened : Table.openFile unrulyDisk "t" 0 with
  | error fault =>
    rw [opened] at live
    cases live
  | ok table =>
    rw [opened] at opens live dump reads
    obtain ⟨blocks, moves, readings⟩ := outcomes table opened
    obtain ⟨result, isResult, same, -⟩ := blocks unrulyDisk 1
    refine ⟨table, opens, ?_, ?_, ?_⟩
    · have isRead : table.readBlock unrulyDisk 1 = .ok unsorted := Option.some.inj reads
      rw [isRead] at same
      cases result with
      | error fault => cases same
      | ok block => exact ⟨block, isResult, Except.ok.inj same⟩
    · exact (moves _).trans live
    · exact (readings _ _).trans dump

end SortedTables.Unchecked
