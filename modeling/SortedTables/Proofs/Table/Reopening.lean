import SortedTables.Proofs.Table.Reading

/-!
# A table that was built opens as what was built

`Table.reopens` is the round trip of a whole table: whatever entries a builder has taken, and whatever
the size of its blocks, the file that it writes opens with the index, the keys and the properties of
the table that building has returned. The properties sum up the entries, the index states where each
block lies and between which keys, and the blocks in order have all the entries.

The proof puts together what is known of the parts: how a builder deals out entries
(`TableBuilder.describes_of_build`), what opening reads from the end of a file (`Layout.ofFile_tail`),
and that a stored block reads back (`Table.Describes.readBlock_of_content`).
-/

namespace SortedTables

/-- A file that was written is found under its path, unless a slash stands behind it. -/
theorem Disk.find_of_write {disk after : Disk} {path : String} {bytes : Bytes} {file : FileId}
    {parsed : Path} (written : disk.write path bytes = .ok (after, file))
    (isPath : Path.parse path = .ok parsed) (noSlash : parsed.endsWithSlash = false) :
    after.find path = .ok file := by
  simp only [write, isPath, noSlash, Bool.false_eq_true, false_and, if_false] at written
  simp only [find, isPath, noSlash, Bool.false_eq_true, if_false]
  split at written
  · next present found =>
    cases written
    rw [found]
  · split at written
    · next name _ isName _ =>
      cases written
      rw [isName]
      simp
    · cases written

namespace Dealt

variable {groups : List (List Entry)}

/-- The first key in the index is that of the first entry. -/
theorem firstKey_describe (dealt : Dealt groups) :
    ((BlockMeta.describe 0 groups).head?.map BlockMeta.firstKey).getD .empty =
      (groups.flatten.head?.map Entry.key).getD .empty := by
  cases groups with
  | nil => rfl
  | cons group later =>
    obtain ⟨first, rest, rfl⟩ :=
      List.exists_cons_of_ne_nil (dealt.nonempty group List.mem_cons_self)
    rfl

/-- The last key in the index is that of the last entry. -/
theorem lastKey_describe (dealt : Dealt groups) :
    ((BlockMeta.describe 0 groups).getLast?.map BlockMeta.lastKey).getD .empty =
      (groups.flatten.getLast?.map Entry.key).getD .empty := by
  rcases List.eq_nil_or_concat' groups with rfl | ⟨before, group, rfl⟩
  · rfl
  · obtain ⟨front, last, rfl⟩ := (List.eq_nil_or_concat' group).resolve_left
      (dealt.nonempty group (by simp))
    rw [BlockMeta.describe_append]
    simp [BlockMeta.describe]

end Dealt

namespace Table

variable {table : Table} {disk : Disk} {groups : List (List Entry)}

/-- A table lists groups of entries: all its blocks can be read, each has the entries of a group, and
the index states the keys that these start and end with. -/
structure Lists (table : Table) (disk : Disk) (groups : List (List Entry)) : Prop where
  /-- There is a block for each group. -/
  count : table.blockCount = groups.length
  /-- A block has the entries of its group. -/
  reads : ∀ (index : Nat) (group : List Entry), groups[index]? = some group →
    table.readBlock disk index = .ok group
  /-- The index states the keys at the ends of a group. -/
  keys : ∀ (index : Nat) (block : BlockMeta) (group : List Entry),
    table.blocks[index]? = some block → groups[index]? = some group →
      group.head?.map Entry.key = some block.firstKey ∧
        group.getLast?.map Entry.key = some block.lastKey
  /-- A block starts behind those before it. -/
  offsets : table.blocks.Pairwise fun left right => left.offset < right.offset

/-- A table lists what its index describes, if its file starts with the stored blocks. -/
theorem Describes.lists (describes : table.Describes groups) {rest : Bytes}
    (content : disk.content table.file = Block.storedAll groups ++ rest) :
    table.Lists disk groups where
  count := describes.blockCount
  reads _ _ found := describes.readBlock_of_content content found
  keys := by
    intro index block group described found
    rw [describes.blocks, Dealt.getElem?_describe, found] at described
    cases described
    have nonempty := describes.dealt.nonempty group (List.mem_of_getElem? found)
    constructor
    · simp [List.head?_eq_some_head nonempty]
    · simp [List.getLast?_eq_some_getLast nonempty]
  offsets := by
    apply List.pairwise_iff_getElem.mpr
    intro left right isLeft isRight before
    rw [describes.offset (List.getElem?_eq_getElem isLeft),
      describes.offset (List.getElem?_eq_getElem isRight)]
    have inside := isLeft
    rw [← Table.blockCount, describes.blockCount] at inside
    have room := Dealt.checksumSize_lt_length_stored groups[left]
    have upTo := congrArg List.length (Dealt.storedAll_take_succ (List.getElem?_eq_getElem inside))
    have bound := Dealt.length_storedAll_take_le groups (Nat.succ_le_of_lt before)
    rw [List.length_append] at upTo
    simp only [Nat.succ_eq_add_one] at bound
    omega

/-- The first and the last key of a table that was built are those of the entries. -/
theorem keys_of_build {blockSize : Nat} {entries : List Entry} {builder : TableBuilder}
    {after : Disk} {path : String}
    (taken : (TableBuilder.ofBlockSize blockSize).addAll entries = .done builder)
    (built : builder.build disk path = .ok (table, after)) :
    table.firstKey = (entries.head?.map Entry.key).getD .empty ∧
      table.lastKey = (entries.getLast?.map Entry.key).getD .empty := by
  have finished : builder.finish.firstKey = builder.firstKey ∧
      builder.finish.lastKey = builder.lastKey := by
    unfold TableBuilder.finish
    split <;> exact ⟨rfl, rfl⟩
  obtain ⟨firstKey, lastKey⟩ := TableBuilder.keys_of_addAll taken
  obtain ⟨_, _, _, isFirst, isLast⟩ := TableBuilder.of_build built
  constructor
  · rw [isFirst, finished.1, firstKey]
    rfl
  · rw [isLast, finished.2, lastKey]
    rfl

/-- Let a builder take entries and build a table of them. Wherever the bytes that were written are
found, they open as a table with the same index, the same keys and the same properties. The
properties sum up the entries, and the entries in the blocks, in order, are those that the builder
has taken. -/
theorem reopens {blockSize : Nat} {entries : List Entry} {builder : TableBuilder} {after : Disk}
    {path : String} (taken : (TableBuilder.ofBlockSize blockSize).addAll entries = .done builder)
    (sound : disk.Sound) (built : builder.build disk path = .ok (table, after)) :
    table.properties.Sums entries ∧
      (∀ parsed, Path.parse path = .ok parsed → parsed.endsWithSlash = false →
        after.find path = .ok table.file) ∧
      ∃ groups, groups.flatten = entries ∧ table.Lists after groups ∧
        ∀ (other : Disk) (place : String),
          other.read place = .ok (after.content table.file) →
            ∃ opened, openPath other place = .ok opened ∧ opened.toLayout = table.toLayout ∧
              opened.firstKey = table.firstKey ∧ opened.lastKey = table.lastKey ∧
              opened.Lists other groups := by
  obtain ⟨groups, describes, rfl, sums, content⟩ :=
    TableBuilder.describes_of_build taken sound built
  obtain ⟨firstKey, lastKey⟩ := keys_of_build taken built
  obtain ⟨_, written, _⟩ := TableBuilder.of_build built
  refine ⟨sums, fun parsed => Disk.find_of_write written, groups, rfl, describes.lists content, ?_⟩
  intro other place read
  obtain ⟨file, found, same⟩ := Disk.read_eq_ok_iff.mp read
  rw [content] at same
  have stated : Layout.ofFile (other.content file) = .ok table.toLayout := by
    rw [same, Layout.ofFile_tail describes.dealt sums rfl, ← describes.blocks,
      ← describes.metaOffset]
  let opened := ofLayout place file (other.content file).length table.toLayout
  have opens : openPath other place = .ok opened :=
    openPath_eq_ok_iff.mpr ⟨file, table.toLayout, found, stated, rfl⟩
  have openedDescribes : opened.Describes groups :=
    ⟨describes.dealt, describes.blocks, describes.metaOffset⟩
  refine ⟨opened, opens, rfl, ?_, ?_, openedDescribes.lists same⟩
  · rw [firstKey, ← describes.dealt.firstKey_describe, ← describes.blocks]
    rfl
  · rw [lastKey, ← describes.dealt.lastKey_describe, ← describes.blocks]
    rfl

/-- Entries for which blocks of 40 bytes are too small. -/
def spread : List Entry :=
  [⟨⟨[]⟩, 3, .put, [0, 255]⟩, ⟨⟨[10]⟩, 9, .delete, []⟩, ⟨⟨[10, 0]⟩, 4, .put, [10]⟩]

/-- A table of two blocks is built of them and opens again. -/
theorem reopens_spread :
    ∃ table after opened groups,
      ((TableBuilder.ofBlockSize 40).addAll spread).state.build .empty "t" = .ok (table, after) ∧
        table.properties.Sums spread ∧ openPath after "t" = .ok opened ∧
        opened.toLayout = table.toLayout ∧ groups.flatten = spread ∧ groups.length = 2 ∧
        opened.Lists after groups := by
  have noFault : ((TableBuilder.ofBlockSize 40).addAll spread).fault = none := by decide +kernel
  have taken : (TableBuilder.ofBlockSize 40).addAll spread =
      .done ((TableBuilder.ofBlockSize 40).addAll spread).state :=
    congrArg (Step.mk ((TableBuilder.ofBlockSize 40).addAll spread).state) noFault
  have isPath : Path.parse "t" = .ok ⟨["t"], false⟩ := by decide +kernel
  cases built : ((TableBuilder.ofBlockSize 40).addAll spread).state.build .empty "t" with
  | error fault =>
    have succeeds : (((TableBuilder.ofBlockSize 40).addAll spread).state.build .empty "t").toBool =
        true := by decide +kernel
    rw [built] at succeeds
    cases succeeds
  | ok result =>
    obtain ⟨table, after⟩ := result
    obtain ⟨sums, finds, groups, whole, lists, opens⟩ := reopens taken Disk.sound_empty built
    have found := finds _ isPath rfl
    obtain ⟨opened, isOpened, sameLayout, _, _, openedLists⟩ :=
      opens after "t" (Disk.read_eq_ok_iff.mpr ⟨_, found, rfl⟩)
    have blocks : (((TableBuilder.ofBlockSize 40).addAll spread).state.build .empty "t").toOption.map
        (fun result => result.1.blockCount) = some 2 := by decide +kernel
    rw [built] at blocks
    have count : groups.length = 2 := lists.count.symm.trans (Option.some.inj blocks)
    exact ⟨table, after, opened, groups, rfl, sums, isOpened, sameLayout, whole, count, openedLists⟩

end Table

end SortedTables
