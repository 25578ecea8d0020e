import SortedTables.Proofs.Table.Filling

/-!
# A written table opens again

The file of a finished table is its blocks, its index and its footer. Opening looks at the last two
only, so `Layout.ofFile_tail` asks nothing of the blocks but their total length: a file whose blocks
were overwritten in place has the same layout.
-/

namespace SortedTables

namespace BlockMeta

/-- Offset and key lengths of a block that its description can state. -/
structure Describable (block : BlockMeta) : Prop where
  /-- The offset has four bytes. -/
  offset : block.offset < Bytes.capacity 4
  /-- The length of the first key has two bytes. -/
  firstKey : block.firstKey.size < Bytes.capacity 2
  /-- The length of the last key has two bytes. -/
  lastKey : block.lastKey.size < Bytes.capacity 2

/-- A key reads back, whatever follows it. -/
theorem decodeKey_encodeKey {key : Key} (small : key.size < Bytes.capacity 2) (rest : Bytes) :
    decodeKey (encodeKey key ++ rest) = .ok (key, rest) := by
  have length := Bytes.cut?_append 2 (Bytes.bigEndian 2 key.size)
    (key.bytes ++ rest) (by simp)
  have whole : Bytes.cut? key.size (key.bytes ++ rest) = some (key.bytes, rest) :=
    Bytes.cut?_append _ _ rest rfl
  rw [encodeKey, List.append_assoc, decodeKey]
  simp only [length, Bytes.ofBigEndian_of_lt small, whole]

/-- The description of a block reads back, whatever follows it. -/
theorem decode_encode {block : BlockMeta} (describable : block.Describable) (rest : Bytes) :
    decode (encode block ++ rest) = .ok (block, rest) := by
  have whole : encode block ++ rest =
      Bytes.bigEndian 4 block.offset ++
        (encodeKey block.firstKey ++ (encodeKey block.lastKey ++ rest)) := by
    simp [encode]
  have fixed : ∃ cut, Bytes.cut? 6 (encode block ++ rest) = some cut := by
    apply Option.ne_none_iff_exists'.mp
    intro short
    have length := Bytes.cut?_eq_none_iff.mp short
    simp only [whole, List.length_append, Bytes.length_bigEndian, encodeKey] at length
    omega
  obtain ⟨cut, found⟩ := fixed
  rw [decode, found, whole]
  simp only [List.drop_left' (Bytes.length_bigEndian 4 _),
    List.take_left' (Bytes.length_bigEndian 4 _), decodeKey_encodeKey describable.firstKey,
    decodeKey_encodeKey describable.lastKey, bind, Except.bind, pure, Except.pure,
    Bytes.ofBigEndian_of_lt describable.offset]

/-- The descriptions of blocks are used up exactly. What stands behind them is left over. -/
theorem decodeMany_flatMap {blocks : List BlockMeta} (read : List BlockMeta) (rest : Bytes)
    (describable : ∀ block ∈ blocks, block.Describable) :
    decodeMany (blocks.flatMap encode ++ rest) read blocks.length =
      if rest = [] then .ok (read.reverse ++ blocks) else .error .trailingBytes := by
  induction blocks generalizing read with
  | nil => simp [decodeMany]
  | cons block later ih =>
    have here := decode_encode (describable block List.mem_cons_self)
      (later.flatMap encode ++ rest)
    have behind := ih (block :: read)
      fun block member => describable block (List.mem_cons_of_mem _ member)
    simp only [List.flatMap_cons, List.append_assoc, List.length_cons, decodeMany, here, behind,
      List.reverse_cons, List.cons_append, List.nil_append]

/-- An index reads back, and nothing may stand behind it. -/
theorem decodeIndex_append {blocks : List BlockMeta} (few : blocks.length < Bytes.capacity 4)
    (describable : ∀ block ∈ blocks, block.Describable) (rest : Bytes) :
    decodeIndex (encodeIndex blocks ++ rest) =
      if rest = [] then .ok blocks else .error .trailingBytes := by
  have number := Bytes.cut?_append 4 (Bytes.bigEndian 4 blocks.length)
    (blocks.flatMap encode ++ rest) (by simp)
  rw [encodeIndex, List.append_assoc, decodeIndex]
  simp only [number, Bytes.ofBigEndian_of_lt few, decodeMany_flatMap [] rest describable,
    List.reverse_nil, List.nil_append]

/-- An index reads back. -/
theorem decodeIndex_encodeIndex {blocks : List BlockMeta} (few : blocks.length < Bytes.capacity 4)
    (describable : ∀ block ∈ blocks, block.Describable) :
    decodeIndex (encodeIndex blocks) = .ok blocks := by
  simpa using decodeIndex_append few describable []

end BlockMeta

/-- The bytes of blocks of entries, one behind the other. -/
def Block.storedAll (groups : List (List Entry)) : Bytes :=
  (groups.map Block.stored).flatten

/-- Entries dealt out to the blocks of a table, as they are when it has been written. -/
structure Dealt (groups : List (List Entry)) : Prop where
  /-- No block is empty. -/
  nonempty : ∀ group ∈ groups, group ≠ []
  /-- Every block keeps its limits. -/
  storable : ∀ group ∈ groups, Block.Storable group
  /-- Keys ascend through the blocks. -/
  ascends : Ascending groups.flatten
  /-- The offset of the index fits the footer. -/
  small : (Block.storedAll groups).length < UInt32.size

namespace Dealt

variable {groups : List (List Entry)}

/-- A stored block has room for its checksum. -/
theorem checksumSize_lt_length_stored (entries : List Entry) :
    Layout.checksumSize < (Block.stored entries).length := by
  simp only [Layout.checksumSize, Block.stored, Block.encode, List.length_append,
    Bytes.length_littleEndian, Bytes.length_bigEndian]
  omega

/-- The description of a block: it starts behind the blocks before it. -/
theorem getElem?_describe (start index : Nat) (groups : List (List Entry)) :
    (BlockMeta.describe start groups)[index]? = groups[index]?.map fun group =>
      { offset := start + (Block.storedAll (groups.take index)).length
        firstKey := (group.head?.map Entry.key).getD .empty
        lastKey := (group.getLast?.map Entry.key).getD .empty } := by
  induction groups generalizing start index with
  | nil => rfl
  | cons first later ih =>
    cases index with
    | zero => simp [BlockMeta.describe, Block.storedAll]
    | succ index => simp [BlockMeta.describe, Block.storedAll, ih, Nat.add_assoc]

/-- There is one description for each block. -/
theorem length_describe (start : Nat) (groups : List (List Entry)) :
    (BlockMeta.describe start groups).length = groups.length := by
  induction groups generalizing start with
  | nil => rfl
  | cons first later ih => simp [BlockMeta.describe, ih]

/-- The bytes of the blocks around one block. -/
theorem storedAll_eq_of_getElem? {index : Nat} {group : List Entry}
    (found : groups[index]? = some group) :
    Block.storedAll groups = Block.storedAll (groups.take index) ++
      (Block.stored group ++ Block.storedAll (groups.drop (index + 1))) := by
  have stored : (groups.map Block.stored)[index]? = some (Block.stored group) := by
    rw [List.getElem?_map, found]
    rfl
  rw [Block.storedAll, Block.storedAll, Block.storedAll, flatten_eq_of_getElem? stored, List.map_take,
    List.map_drop]

/-- The bytes of one block among those of all blocks. -/
theorem drop_take_storedAll {index : Nat} {group : List Entry} (found : groups[index]? = some group)
    (rest : Bytes) :
    ((Block.storedAll groups ++ rest).drop (Block.storedAll (groups.take index)).length).take
      (Block.stored group).length = Block.stored group := by
  rw [storedAll_eq_of_getElem? found, List.append_assoc, List.drop_left, List.append_assoc,
    List.take_left]

/-- The bytes of the blocks up to one block are those before it and its own. -/
theorem storedAll_take_succ {index : Nat} {group : List Entry}
    (found : groups[index]? = some group) :
    Block.storedAll (groups.take (index + 1)) =
      Block.storedAll (groups.take index) ++ Block.stored group := by
  rw [List.take_add_one, found]
  simp [Block.storedAll]

/-- A table has fewer blocks than bytes. -/
theorem length_le_storedAll (groups : List (List Entry)) :
    groups.length ≤ (Block.storedAll groups).length := by
  induction groups with
  | nil => exact Nat.le_refl 0
  | cons first later ih =>
    have positive := checksumSize_lt_length_stored first
    simp only [Block.storedAll, List.map_cons, List.flatten_cons, List.length_append,
      List.length_cons] at ih ⊢
    omega

/-- There are no more entries than bytes. -/
theorem length_flatten_le (groups : List (List Entry)) :
    groups.flatten.length ≤ (Block.storedAll groups).length := by
  induction groups with
  | nil => exact Nat.le_refl 0
  | cons first later ih =>
    have positions := Block.length_flatMap_positions (Block.ofEntries first).positions
    have count : (Block.ofEntries first).positions.length = first.length := by
      simp [Block.ofEntries, Block.length_positionsFrom, Block.length_recordsOf]
    have here : first.length ≤ (Block.stored first).length := by
      simp only [Block.stored, Block.encode, List.length_append, positions, count]
      omega
    simp only [Block.storedAll, List.map_cons, List.flatten_cons, List.length_append] at ih ⊢
    omega

/-- The index of a table can be stated. -/
theorem describable (dealt : Dealt groups) :
    ∀ block ∈ BlockMeta.describe 0 groups, block.Describable := by
  intro block member
  obtain ⟨index, found⟩ := List.mem_iff_getElem?.mp member
  rw [getElem?_describe] at found
  obtain ⟨group, isGroup, rfl⟩ := Option.map_eq_some_iff.mp found
  have groupMember := List.mem_of_getElem? isGroup
  have bound (entry : Entry) (member : entry ∈ group) : entry.key.size < Bytes.capacity 2 := by
    have fits := ((dealt.storable group groupMember).fits entry member).key
    have capacity : Bytes.capacity 2 = 65536 := rfl
    simp only [maxKeySize] at fits
    omega
  have empty : Key.empty.size < Bytes.capacity 2 := by decide
  refine ⟨?_, ?_, ?_⟩
  · have capacity : Bytes.capacity 4 = UInt32.size := rfl
    have lengths := congrArg List.length (storedAll_eq_of_getElem? isGroup)
    have small := dealt.small
    rw [List.length_append] at lengths
    dsimp only
    omega
  · cases first : group.head? with
    | none => exact empty
    | some entry => exact bound entry (List.mem_of_mem_head? first)
  · cases last : group.getLast? with
    | none => exact empty
    | some entry => exact bound entry (List.mem_of_mem_getLast? last)

/-- Every block starts behind the one before it and has room for its checksum. -/
theorem checkOffsets_describe (metaOffset start previous : Nat) (groups : List (List Entry))
    (ordered : previous ≤ start) (room : start + (Block.storedAll groups).length ≤ metaOffset) :
    Layout.checkOffsets metaOffset previous (BlockMeta.describe start groups) = .ok () := by
  induction groups generalizing start previous with
  | nil => rfl
  | cons first later ih =>
    have positive := checksumSize_lt_length_stored first
    simp only [Block.storedAll, List.map_cons, List.flatten_cons, List.length_append] at room ih
    have here : previous ≤ start ∧ start + Layout.checksumSize ≤ metaOffset := by omega
    rw [BlockMeta.describe, Layout.checkOffsets]
    simp only [here.1, here.2, and_self, if_true]
    exact ih _ _ (by omega) (by omega)

end Dealt

namespace Footer

variable (index : Bytes) (offset : Nat) (written : Properties)

/-- A footer has the length of all footers. -/
theorem length_encode : (encode index offset written).length = size := by
  simp [encode, encodeHead, size]

/-- The head of a footer is what it starts with. -/
theorem head_encode : head (encode index offset written) = encodeHead offset written := by
  have length : (encodeHead offset written).length = 28 := by simp [encodeHead]
  rw [head, encode, List.append_assoc, List.take_left' length]

/-- A footer states the checksum of the index and its own head. -/
theorem statedChecksum_encode : statedChecksum (encode index offset written) =
    checksum index (head (encode index offset written)) := by
  have length : (encodeHead offset written).length = 28 := by simp [encodeHead]
  have bounded : checksum index (encodeHead offset written) < Bytes.capacity 4 :=
    UInt32.toNat_lt _
  rw [head_encode, statedChecksum, encode, List.append_assoc, List.drop_left' length,
    List.take_left' (Bytes.length_bigEndian 4 _), Bytes.ofBigEndian_of_lt bounded]

/-- A footer ends with the number that marks a table. -/
theorem statedMagic_encode : statedMagic (encode index offset written) = magic := by
  have length : (encodeHead offset written ++
      Bytes.bigEndian 4 (checksum index (encodeHead offset written))).length = 32 := by
    simp [encodeHead]
  rw [statedMagic, encode, List.drop_left' length]
  exact Bytes.ofBigEndian_of_lt (by decide)

variable {offset} in
/-- A footer states where the index starts. -/
theorem metaOffset_encode (small : offset < Bytes.capacity 4) :
    metaOffset (encode index offset written) = offset := by
  rw [metaOffset, encode, encodeHead]
  simp only [List.append_assoc]
  rw [List.take_left' (Bytes.length_littleEndian 4 _), Bytes.ofLittleEndian_of_lt small]

/-- A footer states the properties, if the numbers of entries and tombstones have 64 bits. -/
theorem properties_encode (entries : written.entries < Bytes.capacity 8)
    (tombstones : written.tombstones < Bytes.capacity 8) :
    properties (encode index offset written) = written := by
  have maxSeq : written.maxSeq.toNat < Bytes.capacity 8 := UInt64.toNat_lt _
  have piece (front rest : Bytes) {n : Nat} (small : n < Bytes.capacity 8) : Bytes.ofLittleEndian
      (((front ++ (Bytes.littleEndian 8 n ++ rest)).drop front.length).take 8) = n := by
    rw [List.drop_left, List.take_left' (Bytes.length_littleEndian 8 n),
      Bytes.ofLittleEndian_of_lt small]
  let ending := Bytes.bigEndian 4 (checksum index (encodeHead offset written)) ++
    Bytes.bigEndian 4 magic
  have first := piece (Bytes.littleEndian 4 offset) (Bytes.littleEndian 8 written.tombstones ++
    (Bytes.littleEndian 8 written.maxSeq.toNat ++ ending)) entries
  have second := piece (Bytes.littleEndian 4 offset ++ Bytes.littleEndian 8 written.entries)
    (Bytes.littleEndian 8 written.maxSeq.toNat ++ ending) tombstones
  have third := piece (Bytes.littleEndian 4 offset ++ Bytes.littleEndian 8 written.entries ++
    Bytes.littleEndian 8 written.tombstones) ending maxSeq
  simp only [List.length_append, Bytes.length_littleEndian, List.append_assoc, Nat.reduceAdd,
    ending] at first second third
  simp only [properties, encode, encodeHead, List.append_assoc] at first second third ⊢
  rw [first, second, third, UInt64.ofNat_toNat]

end Footer

/-- What follows the blocks in the file of a table: the index and the footer. -/
def Table.tail (groups : List (List Entry)) (written : Properties) : Bytes :=
  let index := BlockMeta.encodeIndex (BlockMeta.describe 0 groups)
  index ++ Footer.encode index (Block.storedAll groups).length written

/-- The layout of a file that consists of data, an index where the footer says, and the footer. -/
theorem Layout.ofFile_append {data index footer : Bytes} (length : footer.length = Footer.size)
    (offset : Footer.metaOffset footer = data.length) :
    Layout.ofFile (data ++ index ++ footer) =
      if Footer.statedMagic footer ≠ Footer.magic then
        .error (.badMagic (Footer.statedMagic footer))
      else if Footer.checksum index (Footer.head footer) ≠ Footer.statedChecksum footer then
        .error .checksum
      else
        match BlockMeta.decodeIndex index with
        | .error fault => .error (.index fault)
        | .ok blocks =>
          match checkOffsets data.length 0 blocks with
          | .error fault => .error fault
          | .ok () => .ok ⟨blocks, data.length, Footer.properties footer⟩ := by
  have whole : (data ++ index ++ footer).length = (data ++ index).length + Footer.size := by
    rw [List.length_append, length]
  have isFooter : (data ++ index ++ footer).drop
      ((data ++ index).length + Footer.size - Footer.size) = footer := by
    rw [Nat.add_sub_cancel, List.drop_left]
  have isIndex : ((data ++ index ++ footer).drop data.length).take
      ((data ++ index).length - data.length) = index := by
    rw [List.append_assoc, List.drop_left, List.length_append, Nat.add_sub_cancel_left,
      List.take_left]
  have noShorter : ¬ (data ++ index).length + Footer.size < Footer.size := by omega
  have ordered : ¬ (data ++ index).length < data.length := by
    rw [List.length_append]
    omega
  rw [Layout.ofFile, whole, isFooter]
  cases decoded : BlockMeta.decodeIndex index with
  | error fault =>
    simp only [noShorter, if_false, Nat.add_sub_cancel, Layout.decodeIndex, offset, ordered, isIndex,
      decoded]
  | ok blocks =>
    cases checked : checkOffsets data.length 0 blocks <;>
      simp only [noShorter, if_false, Nat.add_sub_cancel, Layout.decodeIndex, offset, ordered,
        isIndex, decoded, checked]

/-- The layout is read from the end of the file. Of the blocks only the total length matters. -/
theorem Layout.ofFile_tail {groups : List (List Entry)} {written : Properties} {data : Bytes}
    (dealt : Dealt groups) (sums : written.Sums groups.flatten)
    (sameLength : data.length = (Block.storedAll groups).length) :
    Layout.ofFile (data ++ Table.tail groups written) =
      .ok ⟨BlockMeta.describe 0 groups, (Block.storedAll groups).length, written⟩ := by
  have small : (Block.storedAll groups).length < Bytes.capacity 4 := dealt.small
  have few : (BlockMeta.describe 0 groups).length < Bytes.capacity 4 := by
    rw [Dealt.length_describe]
    exact Nat.lt_of_le_of_lt (Dealt.length_le_storedAll groups) small
  have offsets := Dealt.checkOffsets_describe data.length 0 0 groups (Nat.le_refl 0) (by omega)
  have entries := Dealt.length_flatten_le groups
  have tombstones := List.countP_le_length (p := Entry.isTombstone) (l := groups.flatten)
  rw [← sums.count] at entries tombstones
  rw [← sums.tombstones] at tombstones
  have sizes : Bytes.capacity 4 < Bytes.capacity 8 := by decide
  rw [Table.tail, ← List.append_assoc, ← sameLength,
    Layout.ofFile_append (Footer.length_encode _ _ _)
      (Footer.metaOffset_encode _ _ (by omega)), Footer.statedMagic_encode,
    Footer.statedChecksum_encode, Footer.properties_encode _ _ _ (by omega) (by omega)]
  simp only [ne_eq, not_true_eq_false, if_false,
    BlockMeta.decodeIndex_encodeIndex few dealt.describable, offsets]

/-- The open table of a layout. -/
def Table.ofLayout (path : String) (file : FileId) (size : Nat) (layout : Layout) : Table :=
  { layout with
    path, file, size
    firstKey := (layout.blocks.head?.map BlockMeta.firstKey).getD .empty
    lastKey := (layout.blocks.getLast?.map BlockMeta.lastKey).getD .empty }

/-- Opening a table finds a file and reads its layout. -/
theorem Table.openPath_eq_ok_iff {disk : Disk} {path : String} {table : Table} :
    openPath disk path = .ok table ↔ ∃ file layout, disk.find path = .ok file ∧
      Layout.ofFile (disk.content file) = .ok layout ∧
        ofLayout path file (disk.content file).length layout = table := by
  unfold openPath openFile
  cases disk.find path with
  | error fault => simp
  | ok file =>
    dsimp only
    cases stated : Layout.ofFile (disk.content file) with
    | error fault => simp [stated]
    | ok layout => simp [stated, ofLayout]

/-- A file without a layout does not open. -/
theorem Table.openPath_of_error {disk : Disk} {path : String} {file : FileId} {fault : TableFault}
    (found : disk.find path = .ok file)
    (refused : Layout.ofFile (disk.content file) = .error fault) :
    openPath disk path = .error (.table path fault) := by
  simp only [openPath, openFile, found, refused]

end SortedTables
