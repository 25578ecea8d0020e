import SortedTables.Proofs.Table.Opening

/-!
# Reading a table that a builder has written

`Disk.HoldsRun` says that a path leads to the bytes that a successful run of a builder has left.
Such a file opens, its blocks read as the entries that were dealt out to them, and this is all that
the cursors over a table need: `Table.Holds` states it without the bytes. It leaves open which
blocks can be read, so that it also holds after some of them were overwritten in place and cannot be
read any more (`Table.Damaged`). Of a file that was overwritten inside of some blocks, in whatever way
(`Table.Overwritten`), the other blocks read as before.
-/

namespace SortedTables

namespace Disk

/-- Every place in use leads to a file that has a content. -/
def Sound (disk : Disk) : Prop :=
  ∀ place ∈ disk.places, place.2 < disk.contents.length

/-- The directory without files has no places. -/
theorem sound_empty : Sound empty := by
  intro place member
  cases member

/-- A file that was written has the bytes it was given. -/
theorem content_of_write {disk after : Disk} {path : String} {bytes : Bytes} {file : FileId}
    (sound : disk.Sound) (written : disk.write path bytes = .ok (after, file)) :
    after.content file = bytes := by
  unfold write at written
  split at written
  · cases written
  · next parsed _ =>
    split at written
    · cases written
    · split at written
      · next present found =>
        obtain ⟨front, rest, places, _⟩ := List.lookup_eq_some_iff.mp found
        have inside := sound (parsed.names, present) (by rw [places]; simp)
        cases written
        simp [content, store, inside]
      · split at written
        · cases written
          simp [content, store]
        · cases written

/-- Where a path leads is decided by the places alone. -/
theorem find_of_places_eq {disk other : Disk} (same : other.places = disk.places) (path : String) :
    other.find path = disk.find path := by
  cases disk
  cases other
  cases same
  rfl

/-- The bytes that a path leads to are the content of a file that is found there. -/
theorem read_eq_ok_iff {disk : Disk} {path : String} {bytes : Bytes} :
    disk.read path = .ok bytes ↔ ∃ file, disk.find path = .ok file ∧ disk.content file = bytes := by
  unfold read
  cases disk.find path <;> simp [Except.map]

end Disk

/-- The bytes that a successful run of a builder leaves in a file: all entries were taken in order,
then the table was built. -/
def TableBuilder.Run (entries : List Entry) (bytes : Bytes) : Prop :=
  ∃ (blockSize : Nat) (builder : TableBuilder) (disk after : Disk) (path : String) (table : Table),
    (TableBuilder.ofBlockSize blockSize).addAll entries = .done builder ∧ disk.Sound ∧
      builder.build disk path = .ok (table, after) ∧ after.content table.file = bytes

/-- A path leads to what a successful run of a builder has left. -/
def Disk.HoldsRun (disk : Disk) (path : String) (entries : List Entry) : Prop :=
  ∃ bytes, TableBuilder.Run entries bytes ∧ disk.read path = .ok bytes

/-- The bytes that a builder makes of entries. -/
def TableBuilder.imageOf (blockSize : Nat) (entries : List Entry) : Bytes :=
  ((TableBuilder.ofBlockSize blockSize).addAll entries).state.finish.image

/-- A builder that takes all entries is run successfully, if the blocks are not too long. Whatever
directory it writes to, it leaves the same bytes. -/
theorem TableBuilder.run_imageOf {blockSize : Nat} {entries : List Entry}
    (taken : ((TableBuilder.ofBlockSize blockSize).addAll entries).fault = none)
    (small : ((TableBuilder.ofBlockSize blockSize).addAll entries).state.finish.closedLength <
      UInt32.size) :
    TableBuilder.Run entries (imageOf blockSize entries) := by
  cases added : (TableBuilder.ofBlockSize blockSize).addAll entries with
  | mk builder fault =>
    rw [added] at taken small
    simp only at taken small
    subst taken
    have written (bytes : Bytes) :
        Disk.empty.write "table" bytes = .ok (Disk.empty.create "table" bytes) := rfl
    let created := Disk.empty.create "table" builder.finish.image
    have built : ∃ table, builder.build .empty "table" = .ok (table, created.1) ∧
        table.file = created.2 := by
      unfold build
      dsimp only
      rw [if_neg (Nat.not_le_of_lt small), written]
      exact ⟨_, rfl, rfl⟩
    obtain ⟨table, isBuilt, isFile⟩ := built
    refine ⟨blockSize, builder, .empty, created.1, "table", table, added, Disk.sound_empty,
      isBuilt, ?_⟩
    rw [imageOf, added, isFile]
    exact Disk.content_of_write Disk.sound_empty (written builder.finish.image)

/-- A directory with a file for each name, which a builder has made of entries. -/
def Disk.ofTables (blockSize : Nat) (tables : List (String × List Entry)) : Disk where
  places := tables.zipIdx.map fun ((name, _), file) => ([name], file)
  contents := tables.map fun (_, entries) => .ofBytes (TableBuilder.imageOf blockSize entries)

/-- A path that leads to the bytes that a builder makes of entries holds a run, if the builder takes
these. -/
theorem Disk.holdsRun_of_content {disk : Disk} {path : String} {entries : List Entry}
    (blockSize : Nat) (file : FileId) (found : disk.find path = .ok file)
    (content : disk.content file = TableBuilder.imageOf blockSize entries)
    (taken : ((TableBuilder.ofBlockSize blockSize).addAll entries).fault = none)
    (small : ((TableBuilder.ofBlockSize blockSize).addAll entries).state.finish.closedLength <
      UInt32.size) :
    disk.HoldsRun path entries :=
  ⟨_, TableBuilder.run_imageOf taken small, Disk.read_eq_ok_iff.mpr ⟨file, found, content⟩⟩

/-- A table whose index describes blocks of entries. -/
structure Table.Describes (table : Table) (groups : List (List Entry)) : Prop where
  /-- The entries are dealt out as a builder does it. -/
  dealt : Dealt groups
  /-- The index describes the blocks. -/
  blocks : table.blocks = BlockMeta.describe 0 groups
  /-- The index starts behind the blocks. -/
  metaOffset : table.metaOffset = (Block.storedAll groups).length

/-- A table that was built: its file was written, and it shows what the finished builder has. -/
theorem TableBuilder.of_build {builder : TableBuilder} {disk after : Disk} {path : String}
    {table : Table} (built : builder.build disk path = .ok (table, after)) :
    builder.finish.closedLength < UInt32.size ∧
      disk.write path builder.finish.image = .ok (after, table.file) ∧
      table.toLayout =
        ⟨builder.finish.blocks, builder.finish.closedLength, builder.finish.properties⟩ ∧
      table.firstKey = builder.finish.firstKey ∧ table.lastKey = builder.finish.lastKey := by
  unfold build at built
  dsimp only at built
  split at built
  · cases built
  · next small =>
    split at built
    · cases built
    · next written =>
      cases built
      exact ⟨Nat.lt_of_not_le small, written, rfl, rfl, rfl⟩

/-- A builder that has taken entries deals them out to blocks, and a table that it builds describes
these. -/
theorem TableBuilder.describes_of_build {blockSize : Nat} {entries : List Entry}
    {builder : TableBuilder} {disk after : Disk} {path : String} {table : Table}
    (taken : (ofBlockSize blockSize).addAll entries = .done builder) (sound : disk.Sound)
    (built : builder.build disk path = .ok (table, after)) :
    ∃ groups, table.Describes groups ∧ groups.flatten = entries ∧ table.properties.Sums entries ∧
      after.content table.file = Block.storedAll groups ++ Table.tail groups table.properties := by
  obtain ⟨groups, filled⟩ := (filled_ofBlockSize blockSize).addAll taken
  obtain ⟨groups, finished, whole⟩ := filled.finish
  rw [List.nil_append] at whole finished
  obtain ⟨small, written, shows, _⟩ := of_build built
  have blocks : table.blocks = BlockMeta.describe 0 groups := by
    rw [shows]
    exact finished.blocks
  have metaOffset : table.metaOffset = (Block.storedAll groups).length := by
    rw [shows]
    exact finished.closedLength
  have properties : table.properties = builder.finish.properties := by rw [shows]
  have data : builder.finish.data = Block.storedAll groups := by
    rw [TableBuilder.data, finished.data, Block.storedAll]
  have length : builder.finish.closedLength = (Block.storedAll groups).length :=
    finished.closedLength
  have dealt : Dealt groups := {
    nonempty := fun group member => (finished.closed group member).1
    storable := fun group member => (finished.closed group member).2
    ascends := by rw [whole]; exact finished.ascends
    small := by rwa [← length] }
  refine ⟨groups, ⟨dealt, blocks, metaOffset⟩, whole, ?_, ?_⟩
  · rw [properties, finished.properties]
    exact Properties.sums_foldl entries
  · rw [Disk.content_of_write sound written, image, data, length, finished.blocks, Table.tail,
      properties, List.append_assoc]

/-- A run deals its entries out to blocks, and leaves those with their index and footer. -/
theorem TableBuilder.Run.dealt {entries : List Entry} {bytes : Bytes}
    (run : TableBuilder.Run entries bytes) :
    ∃ groups written, Dealt groups ∧ groups.flatten = entries ∧ written.Sums entries ∧
      bytes = Block.storedAll groups ++ Table.tail groups written := by
  obtain ⟨blockSize, builder, disk, after, path, table, taken, sound, built, rfl⟩ := run
  obtain ⟨groups, describes, whole, sums, content⟩ := describes_of_build taken sound built
  exact ⟨groups, table.properties, describes.dealt, whole, sums, content⟩

/-- Reading a block with a checksum behind it. -/
theorem Block.decodeStored_append {index : Nat} {bytes stated : Bytes}
    (length : stated.length = Layout.checksumSize) :
    decodeStored index (bytes ++ stated) =
      if (Crc32.checksum bytes).toNat ≠ Bytes.ofBigEndian stated then .error (.checksum index)
      else
        match decode bytes with
        | .error fault => .error (.corrupted index fault)
        | .ok block => .ok block.entries := by
  have place : (bytes ++ stated).length - Layout.checksumSize = bytes.length := by
    rw [List.length_append, length, Nat.add_sub_cancel]
  cases decoded : decode bytes <;>
    simp only [decodeStored, place, List.take_left, List.drop_left, decoded]

/-- A stored block reads as the entries it was laid out from. -/
theorem Block.decodeStored_stored {index : Nat} {entries : List Entry}
    (storable : Block.Storable entries) :
    decodeStored index (Block.stored entries) = .ok entries := by
  have checksum : Bytes.ofBigEndian (Bytes.bigEndian 4
      (Crc32.checksum (ofEntries entries).encode).toNat) =
        (Crc32.checksum (ofEntries entries).encode).toNat :=
    Bytes.ofBigEndian_of_lt (UInt32.toNat_lt _)
  rw [Block.stored, decodeStored_append (Bytes.length_bigEndian 4 _), checksum]
  simp only [ne_eq, not_true_eq_false, if_false, decode_encode_ofEntries storable,
    entries_ofEntries storable]

namespace Table.Describes

variable {table : Table} {groups : List (List Entry)}

/-- The table has as many blocks as were dealt out. -/
theorem blockCount (describes : table.Describes groups) : table.blockCount = groups.length := by
  rw [Table.blockCount, describes.blocks, Dealt.length_describe]

/-- A block starts where the blocks before it end. -/
theorem offset (describes : table.Describes groups) {index : Nat} {block : BlockMeta}
    (found : table.blocks[index]? = some block) :
    block.offset = (Block.storedAll (groups.take index)).length := by
  rw [describes.blocks, Dealt.getElem?_describe] at found
  obtain ⟨group, _, rfl⟩ := Option.map_eq_some_iff.mp found
  exact Nat.zero_add _

/-- A block ends where the blocks up to it do. -/
theorem blockEnd (describes : table.Describes groups) (index : Nat) :
    table.blockEnd index = (Block.storedAll (groups.take (index + 1))).length := by
  rw [Layout.blockEnd, describes.blocks, describes.metaOffset, Dealt.getElem?_describe]
  cases next : groups[index + 1]? with
  | some group => exact Nat.zero_add _
  | none =>
    have last := List.getElem?_eq_none_iff.mp next
    rw [List.take_of_length_le last]
    rfl

/-- Reading a block decodes what is stored where it was written. -/
theorem readBlock_eq (describes : table.Describes groups) {disk : Disk} {index : Nat}
    {group : List Entry} {stored : Bytes} (found : groups[index]? = some group)
    (length : stored.length = (Block.stored group).length)
    (bytes : ((disk.content table.file).drop (Block.storedAll (groups.take index)).length).take
      (Block.stored group).length = stored) :
    table.readBlock disk index = Block.decodeStored index stored := by
  have counted : index < table.blocks.length := by
    rw [describes.blocks, Dealt.length_describe]
    exact (List.getElem?_eq_some_iff.mp found).1
  have described : table.blocks[index]? = some table.blocks[index] :=
    List.getElem?_eq_getElem counted
  have size : table.blockEnd index - table.blocks[index].offset = (Block.stored group).length := by
    rw [describes.blockEnd index, describes.offset described, Dealt.storedAll_take_succ found,
      List.length_append, Nat.add_sub_cancel_left]
  have range : disk.readRange table.file table.blocks[index].offset
      (table.blockEnd index - table.blocks[index].offset) = .ok stored := by
    rw [size, Disk.readRange_eq_ok_iff, describes.offset described]
    exact ⟨bytes.symm, length⟩
  unfold Table.readBlock
  simp only [described, range]

/-- A block reads as its entries if its bytes are as written. -/
theorem readBlock (describes : table.Describes groups) {disk : Disk} {index : Nat}
    {group : List Entry} (found : groups[index]? = some group)
    (bytes : ((disk.content table.file).drop (Block.storedAll (groups.take index)).length).take
      (Block.stored group).length = Block.stored group) :
    table.readBlock disk index = .ok group := by
  rw [describes.readBlock_eq found rfl bytes]
  exact Block.decodeStored_stored (describes.dealt.storable group (List.mem_of_getElem? found))

/-- Every block of a file that starts with the stored blocks reads as its entries. -/
theorem readBlock_of_content (describes : table.Describes groups) {disk : Disk} {rest : Bytes}
    (content : disk.content table.file = Block.storedAll groups ++ rest) {index : Nat}
    {group : List Entry} (found : groups[index]? = some group) :
    table.readBlock disk index = .ok group := by
  apply describes.readBlock found
  rw [content, Dealt.drop_take_storedAll found]

end Table.Describes

/-- What the cursors over a table rely on: the entries of its blocks, of which some may be
unreadable. -/
structure Table.Holds (table : Table) (disk : Disk) (groups : List (List Entry)) : Prop where
  /-- No block is empty. -/
  nonempty : ∀ group ∈ groups, group ≠ []
  /-- Keys ascend through the blocks. -/
  ascends : Ascending groups.flatten
  /-- The number of entries can be stated in 64 bits. -/
  few : groups.flatten.length < UInt64.size
  /-- The index has the first key of each block. -/
  firstKeys : table.blocks.map BlockMeta.firstKey =
    groups.map fun group => (group.head?.map Entry.key).getD .empty
  /-- A block that can be read has its entries. -/
  reads : ∀ index entries, table.readBlock disk index = .ok entries → groups[index]? = some entries

/-- A table holds the blocks that its index describes, if those that can be read are as written. -/
theorem Table.Describes.holds {table : Table} {disk : Disk} {groups : List (List Entry)}
    (describes : table.Describes groups)
    (reads : ∀ index group, groups[index]? = some group →
      table.readBlock disk index = .ok group ∨ ∃ fault, table.readBlock disk index = .error fault) :
    table.Holds disk groups where
  nonempty := describes.dealt.nonempty
  ascends := describes.dealt.ascends
  few := by
    have bytes := Dealt.length_flatten_le groups
    have small := describes.dealt.small
    have sizes : UInt32.size < UInt64.size := by decide
    omega
  firstKeys := by
    apply List.ext_getElem?
    intro index
    rw [describes.blocks, List.getElem?_map, List.getElem?_map, Dealt.getElem?_describe]
    cases groups[index]? <;> rfl
  reads := by
    intro index entries read
    cases found : groups[index]? with
    | some group =>
      rcases reads index group found with same | ⟨fault, failed⟩
      · cases read.symm.trans same
        rfl
      · cases read.symm.trans failed
    | none =>
      have behind : table.blocks[index]? = none := by
        rw [describes.blocks, Dealt.getElem?_describe, found]
        rfl
      unfold Table.readBlock at read
      simp [behind] at read

/-- What a run has left opens, with properties that sum up the entries. So does what has the same length
and the same end, at the same place. -/
theorem Disk.HoldsRun.describes {disk : Disk} {path : String} {entries : List Entry}
    (held : disk.HoldsRun path entries) :
    ∃ table groups written, Table.openPath disk path = .ok table ∧ groups.flatten = entries ∧
      table.Describes groups ∧ table.properties.Sums entries ∧
      disk.content table.file = Block.storedAll groups ++ Table.tail groups written ∧
      ∀ (other : Disk) (data : Bytes), other.places = disk.places →
        other.content table.file = data ++ Table.tail groups written →
        data.length = (Block.storedAll groups).length →
        Table.openPath other path = .ok table := by
  obtain ⟨bytes, run, read⟩ := held
  obtain ⟨groups, written, dealt, rfl, sums, rfl⟩ := run.dealt
  obtain ⟨file, found, content⟩ := Disk.read_eq_ok_iff.mp read
  let layout : Layout := ⟨BlockMeta.describe 0 groups, (Block.storedAll groups).length, written⟩
  let table := Table.ofLayout path file (disk.content file).length layout
  have opens (other : Disk) (data : Bytes) (same : other.places = disk.places)
      (isContent : other.content file = data ++ Table.tail groups written)
      (length : data.length = (Block.storedAll groups).length) :
      Table.openPath other path = .ok table := by
    have size : (other.content file).length = (disk.content file).length := by
      rw [isContent, content, List.length_append, List.length_append, length]
    rw [Table.openPath_eq_ok_iff]
    refine ⟨file, layout, (Disk.find_of_places_eq same path).trans found, ?_, by rw [size]⟩
    rw [isContent]
    exact Layout.ofFile_tail dealt sums length
  exact ⟨table, groups, written, opens disk _ rfl content rfl, rfl, ⟨dealt, rfl, rfl⟩, sums,
    content, opens⟩

/-- Every block of a table can be read. -/
def Table.Readable (table : Table) (disk : Disk) : Prop :=
  ∀ index, index < table.blockCount → ∃ group, table.readBlock disk index = .ok group

/-- What a run has left opens, and all its blocks can be read. -/
theorem Disk.HoldsRun.opens {disk : Disk} {path : String} {entries : List Entry}
    (held : disk.HoldsRun path entries) :
    ∃ table groups, Table.openPath disk path = .ok table ∧ groups.flatten = entries ∧
      table.Holds disk groups ∧ table.Readable disk := by
  obtain ⟨table, groups, written, opened, whole, describes, _, content, _⟩ := held.describes
  refine ⟨table, groups, opened, whole, ?_, ?_⟩
  · exact describes.holds fun _ _ found => Or.inl (describes.readBlock_of_content content found)
  · intro index inside
    rw [describes.blockCount] at inside
    exact ⟨_, describes.readBlock_of_content content (List.getElem?_eq_getElem inside)⟩

/-- The file of a table was overwritten in place, inside of some blocks only. -/
structure Table.Overwritten (table : Table) (before after : Disk) (touched : Nat → Prop) : Prop where
  /-- The length is as before. -/
  length : (after.content table.file).length = (before.content table.file).length
  /-- Bytes outside of the blocks that were touched are as before. -/
  elsewhere : ∀ position, (∀ index block, touched index → table.blocks[index]? = some block →
      ¬ (block.offset ≤ position ∧ position < table.blockEnd index)) →
    (after.content table.file)[position]? = (before.content table.file)[position]?

/-- The file of a table was overwritten in place, inside of some blocks only, and exactly these
cannot be read any more. -/
structure Table.Damaged (table : Table) (before after : Disk) (bad : Nat → Prop) : Prop where
  /-- The length is as before. -/
  length : (after.content table.file).length = (before.content table.file).length
  /-- Bytes outside of the bad blocks are as before. -/
  elsewhere : ∀ position, (∀ index block, bad index → table.blocks[index]? = some block →
      ¬ (block.offset ≤ position ∧ position < table.blockEnd index)) →
    (after.content table.file)[position]? = (before.content table.file)[position]?
  /-- The bad blocks are those that cannot be read. -/
  unreadable : ∀ index, index < table.blockCount →
    (bad index ↔ ∃ fault, table.readBlock after index = .error fault)

/-- A file with a byte of a block overwritten was overwritten inside of that block. -/
theorem Table.overwritten_of_set {table : Table} {before after : Disk} {touched : Nat → Prop}
    {position index : Nat} {block : BlockMeta} {value : UInt8} (isTouched : touched index)
    (content : after.content table.file = (before.content table.file).set position value)
    (inside : table.blocks[index]? = some block) (start : block.offset ≤ position)
    (stop : position < table.blockEnd index) : table.Overwritten before after touched where
  length := by rw [content, List.length_set]
  elsewhere := by
    intro other outside
    have differs : position ≠ other := by
      rintro rfl
      exact outside index block isTouched inside ⟨start, stop⟩
    rw [content]
    exact List.getElem?_set_ne differs

/-- The bytes of more blocks are not fewer. -/
theorem Dealt.length_storedAll_take_le (groups : List (List Entry)) {few many : Nat}
    (ordered : few ≤ many) :
    (Block.storedAll (groups.take few)).length ≤ (Block.storedAll (groups.take many)).length := by
  obtain ⟨rest, whole⟩ := List.take_prefix_take_left ordered (l := groups)
  rw [← whole, Block.storedAll, Block.storedAll, List.map_append, List.flatten_append,
    List.length_append]
  exact Nat.le_add_right _ _

/-- The bytes of blocks that were not touched are as before. The bytes of two blocks do not overlap. -/
theorem Table.Overwritten.drop_take_eq {table : Table} {before after : Disk}
    {groups : List (List Entry)} {touched : Nat → Prop} (describes : table.Describes groups)
    (overwritten : table.Overwritten before after touched) {index : Nat} {group : List Entry}
    (found : groups[index]? = some group) (spared : ¬ touched index) :
    ((after.content table.file).drop (Block.storedAll (groups.take index)).length).take
        (Block.stored group).length =
      ((before.content table.file).drop (Block.storedAll (groups.take index)).length).take
        (Block.stored group).length := by
  have ends : (Block.storedAll (groups.take (index + 1))).length =
      (Block.storedAll (groups.take index)).length + (Block.stored group).length := by
    rw [Dealt.storedAll_take_succ found, List.length_append]
  apply List.ext_getElem?
  intro place
  simp only [List.getElem?_take, List.getElem?_drop]
  split
  · next within =>
    apply overwritten.elsewhere
    rintro other block isTouched described ⟨starts, behind⟩
    rw [describes.offset described] at starts
    rw [describes.blockEnd other] at behind
    rcases Nat.lt_trichotomy other index with below | rfl | above
    · have bound := Dealt.length_storedAll_take_le groups (Nat.succ_le_of_lt below)
      simp only [Nat.succ_eq_add_one] at bound
      omega
    · exact spared isTouched
    · have bound := Dealt.length_storedAll_take_le groups (Nat.succ_le_of_lt above)
      simp only [Nat.succ_eq_add_one] at bound
      omega
  · rfl

/-- The bytes behind the blocks are as before. -/
theorem Table.Overwritten.drop_eq {table : Table} {before after : Disk}
    {groups : List (List Entry)} {touched : Nat → Prop} (describes : table.Describes groups)
    (overwritten : table.Overwritten before after touched) :
    (after.content table.file).drop (Block.storedAll groups).length =
      (before.content table.file).drop (Block.storedAll groups).length := by
  apply List.ext_getElem?
  intro place
  simp only [List.getElem?_drop]
  apply overwritten.elsewhere
  rintro index block _ _ ⟨_, behind⟩
  have bound := Dealt.length_storedAll_take_le groups (Nat.le_max_left (index + 1) groups.length)
  rw [describes.blockEnd index] at behind
  rw [List.take_of_length_le (Nat.le_max_right _ _)] at bound
  omega

/-- A table opens as before if its file was overwritten inside of blocks, and blocks that were not
touched read as before. -/
theorem Disk.HoldsRun.opens_overwritten {disk other : Disk} {path : String} {entries : List Entry}
    (held : disk.HoldsRun path entries) (places : other.places = disk.places)
    (touched : Table → Nat → Prop)
    (overwritten : ∀ table, Table.openPath disk path = .ok table →
      table.Overwritten disk other (touched table)) :
    ∃ table groups, Table.openPath disk path = .ok table ∧ Table.openPath other path = .ok table ∧
      groups.flatten = entries ∧ table.Describes groups ∧
      (∀ index group, groups[index]? = some group → table.readBlock disk index = .ok group) ∧
      ∀ index, ¬ touched table index →
        table.readBlock other index = table.readBlock disk index := by
  obtain ⟨table, groups, written, opened, whole, describes, _, content, opens⟩ := held.describes
  have isOverwritten := overwritten table opened
  have tail := isOverwritten.drop_eq describes
  rw [content, List.drop_left] at tail
  have split := List.take_append_drop (Block.storedAll groups).length (other.content table.file)
  rw [tail] at split
  have length : ((other.content table.file).take (Block.storedAll groups).length).length =
      (Block.storedAll groups).length := by
    have same := isOverwritten.length
    rw [content, List.length_append] at same
    rw [List.length_take, same]
    omega
  refine ⟨table, groups, opened, opens other _ places split.symm length, whole, describes,
    fun _ _ found => describes.readBlock_of_content content found, ?_⟩
  intro index spared
  cases found : groups[index]? with
  | some group =>
    rw [describes.readBlock_of_content content found]
    apply describes.readBlock found
    rw [isOverwritten.drop_take_eq describes found spared, content, Dealt.drop_take_storedAll found]
  | none =>
    have behind : table.blocks[index]? = none := by
      rw [describes.blocks, Dealt.getElem?_describe, found]
      rfl
    simp only [Table.readBlock, behind]

/-- A table that was damaged in place opens as before, and what can be read of it is as before. -/
theorem Disk.HoldsRun.opens_damaged {disk other : Disk} {path : String} {entries : List Entry}
    {bad : Nat → Prop} (held : disk.HoldsRun path entries) (places : other.places = disk.places)
    (damaged : ∀ table, Table.openPath disk path = .ok table → table.Damaged disk other bad) :
    ∃ table groups, Table.openPath disk path = .ok table ∧ Table.openPath other path = .ok table ∧
      groups.flatten = entries ∧ table.Holds disk groups ∧ table.Holds other groups := by
  obtain ⟨table, groups, opened, openedOther, whole, describes, reads, same⟩ :=
    held.opens_overwritten places (fun _ => bad) fun table opened =>
      ⟨(damaged table opened).length, (damaged table opened).elsewhere⟩
  refine ⟨table, groups, opened, openedOther, whole, ?_, ?_⟩
  · exact describes.holds fun index group found => Or.inl (reads index group found)
  · refine describes.holds fun index group found => ?_
    have inside := (List.getElem?_eq_some_iff.mp found).1
    rw [← describes.blockCount] at inside
    by_cases isBad : bad index
    · exact Or.inr (((damaged table opened).unreadable index inside).mp isBad)
    · exact Or.inl ((same index isBad).trans (reads index group found))

end SortedTables
