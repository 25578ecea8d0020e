import SortedTables.Proofs.FileSet.Reading

/-!
# Reading files with unreadable blocks

When bytes of some blocks were overwritten, so that these cannot be read, a stream must not leave keys
out without saying so. It may still come to its end without a fault: a stream between two ends need
not read all blocks.

What the files offer to a stream is a front of what they offered before, and the merge of fronts is a
front of the merge (`Merged.isPrefix`). A block with a key between the ends is never passed over,
since all of them must have been read where a source ended without a fault.
-/

namespace SortedTables

namespace FileSet

open KeyStream

variable {host : Host} {files : FileSet} {tables : List (List Entry)} {mode : ReadMode}
  {lower upper : Option Key}

/-- Files that hold runs and were damaged in place open as the tables they were before. -/
theorem opens_of_damaged {disk other : Disk} {paths : List String} {bad : String → Nat → Prop}
    (held : List.Forall₂ disk.HoldsRun paths tables) (places : other.places = disk.places)
    (damaged : ∀ path ∈ paths, ∀ table, Table.openPath disk path = .ok table →
      table.Damaged disk other (bad path)) :
    ∃ listed, List.Forall₂ (Opens disk) paths listed ∧ List.Forall₂ (Opens other) paths listed ∧
      (listed.map fun stored => stored.2.flatten) = tables := by
  induction held with
  | nil => exact ⟨[], .nil, .nil, rfl⟩
  | cons here _ ih =>
    obtain ⟨listed, opens, opensOther, wholes⟩ :=
      ih fun path member => damaged path (List.mem_cons_of_mem _ member)
    obtain ⟨table, groups, opened, openedOther, whole, holds, holdsOther⟩ :=
      here.opens_damaged places (damaged _ List.mem_cons_self)
    refine ⟨(table, groups) :: listed, .cons ⟨opened, holds⟩ opens,
      .cons ⟨openedOther, holdsOther⟩ opensOther, ?_⟩
    rw [List.map_cons, whole, wholes]

/-- A stream over files of which some blocks may be unreadable has seen a front of what there is to
see, and all of it if it ended without a fault. -/
theorem Delivers.isPrefix {disk : Disk} {policy : DuplicatePolicy} {listed : List Stored}
    {stream : KeyStream FileSetCursor} {runs : Runs} {seen all : List (Nat × Entry)}
    {ending : Option Fault}
    (delivers : Delivers disk policy mode lower upper listed stream runs seen ending)
    (holds : ∀ stored ∈ listed, stored.1.Holds disk stored.2)
    (merged : Merged policy
      (allRuns mode lower upper (listed.map fun stored => stored.2.flatten)) all none) :
    seen <+: all ∧ (ending = none → seen = all) := by
  apply delivers.merged.isPrefix merged
  · intro rank
    cases isStored : listed[rank]? with
    | none =>
      rw [allRuns_of_none isStored]
      exact List.Pairwise.nil
    | some stored =>
      rw [allRuns_of_some isStored]
      exact ascending_selected (holds stored (List.mem_of_getElem? isStored))
  · intro rank
    cases isStored : listed[rank]? with
    | none =>
      rw [delivers.spent rank (List.getElem?_eq_none_iff.mp isStored)]
      exact List.nil_prefix
    | some stored =>
      rw [allRuns_of_some isStored]
      exact (delivers.offers rank stored isStored).isPrefix
  · intro rank ended
    cases isStored : listed[rank]? with
    | none =>
      rw [allRuns_of_none isStored, delivers.spent rank (List.getElem?_eq_none_iff.mp isStored)]
    | some stored =>
      rw [allRuns_of_some isStored]
      exact (delivers.offers rank stored isStored).whole ended

/-- Where a stream ended without a fault, no block that cannot be read any more had a key between the
ends. -/
theorem Delivers.not_within_of_bad {disk other : Disk} {policy : DuplicatePolicy}
    {listed : List Stored} {stream : KeyStream FileSetCursor} {runs : Runs}
    {seen : List (Nat × Entry)} {bad : Nat → Prop}
    (delivers : Delivers other policy mode lower upper listed stream runs seen none)
    {stored : Stored} (member : stored ∈ listed) (holds : stored.1.Holds disk stored.2)
    (damaged : stored.1.Damaged disk other bad) {index : Nat} {entries : List Entry}
    (isBad : bad index) (read : stored.1.readBlock disk index = .ok entries) :
    ∀ entry ∈ entries, Key.isWithin lower upper entry.key = false := by
  intro entry isEntry
  have isGroup := holds.reads index entries read
  have inside : index < stored.1.blockCount := by
    rw [Table.blockCount, holds.length_blocks]
    exact (List.getElem?_eq_some_iff.mp isGroup).1
  have unreadable := (damaged.unreadable index inside).mp isBad
  by_contra within
  rw [Bool.not_eq_false] at within
  exact delivers.ending_ne_none member
    (Or.inl ⟨index, entries, isGroup, ⟨inside, unreadable⟩, entry, isEntry, within⟩) rfl

/-- Let a stream be read over files of which some blocks, the bad ones, were overwritten in place so
that they cannot be read. Either it cannot be opened; or it hands out a front of what it handed out
before, then a fault, and then nothing; or it hands out all of it and no fault. The last is
possible only if no bad block had a key between the ends. -/
theorem keys_of_damaged {other : Disk} {bad : String → Nat → Prop}
    (held : List.Forall₂ host.disk.HoldsRun files.paths tables)
    (bare : ∀ entries ∈ tables, ∀ entry ∈ entries, entry.kind = .delete → entry.value = [])
    (places : other.places = host.disk.places)
    (damaged : ∀ path ∈ files.paths, ∀ table, Table.openPath host.disk path = .ok table →
      table.Damaged host.disk other (bad path))
    (mode : ReadMode) (capable : mode = .withTombstones → files.capability host = .inProcess)
    (lower upper : Option Key) :
    ∃ stream pulled, files.keys host mode lower upper = .ok stream ∧
      stream.HandsOut host.disk pulled none ∧
      ((∃ fault, files.keys { host with disk := other } mode lower upper = .error fault) ∨
        ∃ after, files.keys { host with disk := other } mode lower upper = .ok after ∧
          ((∃ front fault, front <+: pulled ∧ after.HandsOut other front (some fault)) ∨
            (after.HandsOut other pulled none ∧
              ∀ path ∈ files.paths, ∀ table, Table.openPath host.disk path = .ok table →
                ∀ index entries, bad path index → table.readBlock host.disk index = .ok entries →
                  ∀ entry ∈ entries, Key.isWithin lower upper entry.key = false))) := by
  obtain ⟨listed, opens, opensOther, rfl⟩ := opens_of_damaged held places damaged
  obtain ⟨stream, all, opened, merged, handsOut⟩ := exists_stream_of_holdsRun mode held capable
    fun entries isTable => not_refuses fun entry member _ => bare entries isTable entry member
  refine ⟨stream, _, opened, handsOut, ?_⟩
  have delivers := delivers_of_keys { host with disk := other } opensOther capable lower upper
  cases reads : files.keys { host with disk := other } mode lower upper with
  | error fault => exact Or.inl ⟨fault, rfl⟩
  | ok after =>
    rw [reads] at delivers
    obtain ⟨runs, seen, ending, delivers⟩ := delivers
    have holds : ∀ stored ∈ listed, stored.1.Holds other stored.2 := by
      intro stored member
      obtain ⟨rank, isStored⟩ := List.getElem?_of_mem member
      obtain ⟨_, _, opens⟩ := exists_getElem?_of_forall₂ opensOther.flip isStored
      exact opens.holds
    obtain ⟨isFront, isWhole⟩ := delivers.isPrefix holds merged
    refine Or.inr ⟨after, rfl, ?_⟩
    cases ending with
    | some fault => exact Or.inl ⟨_, _, isFront.map _, delivers.handsOut⟩
    | none =>
      have whole := isWhole rfl
      subst whole
      refine Or.inr ⟨delivers.handsOut, ?_⟩
      intro path member table isTable index entries isBad read
      obtain ⟨rank, isPath⟩ := List.getElem?_of_mem member
      obtain ⟨stored, isStored, here⟩ := exists_getElem?_of_forall₂ opens isPath
      cases here.opened.symm.trans isTable
      exact delivers.not_within_of_bad (List.mem_of_getElem? isStored) here.holds
        (damaged path member _ isTable) isBad read

/-- A file of two blocks with an entry each. -/
def twoBlocks : List (String × List Entry) :=
  [("t", [⟨⟨[1]⟩, 1, .put, [7]⟩, ⟨⟨[2]⟩, 2, .delete, []⟩])]

/-- A builder makes this file. -/
theorem holdsRun_twoBlocks :
    List.Forall₂ (Disk.ofTables 0 twoBlocks).HoldsRun (twoBlocks.map Prod.fst)
      (twoBlocks.map Prod.snd) := by
  refine .cons (Disk.holdsRun_of_content 0 0 ?_ ?_ ?_ ?_) .nil
  all_goals first | exact ByteStore.bytes_ofBytes _ | decide +kernel

/-- The same file with a byte of the second block overwritten. -/
def secondBlockDamaged : Disk :=
  { Disk.ofTables 0 twoBlocks with
    contents := twoBlocks.map fun (_, entries) =>
      .ofBytes ((TableBuilder.imageOf 0 entries).set 30 255) }

/-- The second block, and no other one, cannot be read any more. -/
theorem damaged_secondBlock (table : Table)
    (opened : Table.openPath (.ofTables 0 twoBlocks) "t" = .ok table) :
    table.Damaged (.ofTables 0 twoBlocks) secondBlockDamaged (· = 1) := by
  have checked : (Table.openPath (.ofTables 0 twoBlocks) "t").toOption.all (fun table =>
      table.file = 0 ∧ table.blockCount = 2 ∧ 30 < table.blockEnd 1 ∧
      (table.blocks[1]?.any fun block => block.offset ≤ 30) ∧
      (table.readBlock secondBlockDamaged 0).toBool ∧
      (table.readBlock secondBlockDamaged 1).toBool = false) = true := by
    decide +kernel
  rw [opened] at checked
  simp only [Except.toOption, Option.all_some, decide_eq_true_eq] at checked
  obtain ⟨isFile, count, stop, start, first, second⟩ := checked
  obtain ⟨block, inside, start⟩ := (Option.any_eq_true _ _).mp start
  refine ⟨?_, ?_, ?_⟩
  · rw [isFile]
    exact List.length_set
  · intro position outside
    have other : 30 ≠ position := by
      rintro rfl
      exact outside 1 block rfl inside ⟨of_decide_eq_true start, stop⟩
    rw [isFile]
    exact List.getElem?_set_ne other
  · intro index bound
    rw [count] at bound
    match index with
    | 0 =>
      cases read : table.readBlock secondBlockDamaged 0 with
      | error fault => simp [read, Except.toBool] at first
      | ok entries => simp
    | 1 =>
      cases read : table.readBlock secondBlockDamaged 1 with
      | error fault => simp
      | ok entries => simp [read, Except.toBool] at second

/-- Without ends, a stream over the damaged file cannot be opened or ends with a fault, since the block
that cannot be read has a key. -/
theorem keys_of_damaged_secondBlock :
    ∃ stream pulled,
      (FileSet.ofPaths ["t"]).keys ⟨.ofTables 0 twoBlocks, fun _ => none, .inProcess⟩
          .withTombstones none none = .ok stream ∧
        stream.HandsOut (.ofTables 0 twoBlocks) pulled none ∧
      ((∃ fault, (FileSet.ofPaths ["t"]).keys ⟨secondBlockDamaged, fun _ => none, .inProcess⟩
          .withTombstones none none = .error fault) ∨
        ∃ after front fault,
          (FileSet.ofPaths ["t"]).keys ⟨secondBlockDamaged, fun _ => none, .inProcess⟩
              .withTombstones none none = .ok after ∧
            front <+: pulled ∧ after.HandsOut secondBlockDamaged front (some fault)) := by
  let host : Host := ⟨.ofTables 0 twoBlocks, fun _ => none, .inProcess⟩
  let bad : String → Nat → Prop := fun _ index => index = 1
  have held : List.Forall₂ host.disk.HoldsRun (FileSet.ofPaths ["t"]).paths
    (twoBlocks.map Prod.snd) := holdsRun_twoBlocks
  have places : secondBlockDamaged.places = host.disk.places := rfl
  have damaged : ∀ path ∈ (FileSet.ofPaths ["t"]).paths, ∀ table,
      Table.openPath host.disk path = .ok table →
      table.Damaged host.disk secondBlockDamaged (bad path) := by
    intro path member table opened
    cases List.mem_singleton.mp member
    exact damaged_secondBlock table opened
  obtain ⟨stream, pulled, opened, handsOut, outcome⟩ :=
    keys_of_damaged held (by decide) places damaged .withTombstones (fun _ => rfl) none none
  refine ⟨stream, pulled, opened, handsOut, ?_⟩
  rcases outcome with fails | ⟨after, afterOpened, ⟨front, fault, isFront, ends⟩ | ⟨_, noKey⟩⟩
  · exact Or.inl fails
  · exact Or.inr ⟨after, front, fault, afterOpened, isFront, ends⟩
  · have stored : (Table.openPath host.disk "t").toOption.any (fun table =>
        (table.readBlock host.disk 1).toOption = some [⟨⟨[2]⟩, 2, .delete, []⟩]) = true := by
      decide +kernel
    cases isTable : Table.openPath host.disk "t" with
    | error fault => simp [isTable, Except.toOption] at stored
    | ok table =>
      cases read : table.readBlock host.disk 1 with
      | error fault => simp [isTable, read, Except.toOption] at stored
      | ok entries =>
        have isEntry : entries = [⟨⟨[2]⟩, 2, .delete, []⟩] := by
          simpa [isTable, read, Except.toOption] using stored
        have outside := noKey "t" List.mem_cons_self table isTable 1 entries rfl read
          ⟨⟨[2]⟩, 2, .delete, []⟩ (isEntry ▸ List.mem_cons_self)
        cases outside

end FileSet

end SortedTables
