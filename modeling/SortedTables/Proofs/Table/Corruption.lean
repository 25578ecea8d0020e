import SortedTables.Proofs.Checksum
import SortedTables.Proofs.Table.Reading

/-!
# A byte of a table that was overwritten is noticed

Every byte that a builder writes lies under exactly one checksum, or in one, or in the number that ends
the file; only the place of the index, with which the footer starts, is not looked at on its own.
`TableBuilder.Run.overwritten` follows a single byte that was overwritten with another one: behind the
blocks, the file does not open any more; in a block, the file opens as before, that block cannot be
read, and all others read as before.

That a checksum is another one for another byte is `Crc32.checksum_set_ne`, and that the stated number
is another one is `Bytes.ofBigEndian_set_ne`. What remains is which bytes each of them is about.
-/

namespace SortedTables

namespace Bytes

/-- Byte strings of one length state different numbers. -/
theorem eq_of_ofBigEndian_eq {left right : Bytes} (length : left.length = right.length)
    (same : ofBigEndian left = ofBigEndian right) : left = right := by
  rw [← bigEndian_of_length length, same, bigEndian_of_length rfl]

/-- A byte string states another number when one of its bytes is overwritten with another one. -/
theorem ofBigEndian_set_ne {bytes : Bytes} {position : Nat} {old value : UInt8}
    (stood : bytes[position]? = some old) (differs : value ≠ old) :
    ofBigEndian (bytes.set position value) ≠ ofBigEndian bytes := by
  intro same
  have unchanged := eq_of_ofBigEndian_eq List.length_set same
  have inside := (List.getElem?_eq_some_iff.mp stood).1
  have here := List.getElem?_set_self (a := value) inside
  rw [unchanged, stood] at here
  exact differs (Option.some.inj here).symm

end Bytes

/-- A stored block with a byte that was overwritten does not have its checksum any more. -/
theorem Block.decodeStored_set {index place : Nat} {entries : List Entry} {old value : UInt8}
    (stood : (Block.stored entries)[place]? = some old) (differs : value ≠ old) :
    decodeStored index ((Block.stored entries).set place value) = .error (.checksum index) := by
  have stated : Bytes.ofBigEndian (Bytes.bigEndian 4
      (Crc32.checksum (ofEntries entries).encode).toNat) =
        (Crc32.checksum (ofEntries entries).encode).toNat :=
    Bytes.ofBigEndian_of_lt (UInt32.toNat_lt _)
  rw [Block.stored] at stood ⊢
  by_cases inside : place < (ofEntries entries).encode.length
  · rw [List.getElem?_append_left inside] at stood
    have other := Crc32.checksum_set_ne stood differs
    rw [List.set_append_left _ _ inside, decodeStored_append (by simp [Layout.checksumSize]), stated,
      if_pos fun same => other (UInt32.toNat_inj.mp same)]
  · rw [List.getElem?_append_right (Nat.le_of_not_lt inside)] at stood
    have other := Bytes.ofBigEndian_set_ne stood differs
    rw [stated] at other
    rw [List.set_append_right _ _ (Nat.le_of_not_lt inside),
      decodeStored_append (by simp [Layout.checksumSize]), if_pos other.symm]

/-! ## Behind the blocks -/

/-- A footer with a byte overwritten does not end with the number of tables any more, or it does not
state the checksum of the index and its own head. -/
theorem Footer.ne_of_set {index footer : Bytes} {place : Nat} {old value : UInt8}
    (magic : statedMagic footer = magic)
    (stands : checksum index (head footer) = statedChecksum footer)
    (stood : footer[place]? = some old) (differs : value ≠ old) :
    statedMagic (footer.set place value) ≠ Footer.magic ∨
      checksum index (head (footer.set place value)) ≠ statedChecksum (footer.set place value) := by
  by_cases inHead : place < 28
  · right
    have stated : statedChecksum (footer.set place value) = statedChecksum footer := by
      rw [statedChecksum, List.drop_set_of_lt inHead, statedChecksum]
    have covered : index ++ head (footer.set place value) =
        (index ++ head footer).set (index.length + place) value := by
      rw [List.set_append_right _ _ (Nat.le_add_right _ _), Nat.add_sub_cancel_left, head, head,
        List.take_set]
    rw [stated, ← stands, checksum, checksum, covered]
    intro same
    refine Crc32.checksum_set_ne ?_ differs (UInt32.toNat_inj.mp same)
    rw [List.getElem?_append_right (Nat.le_add_right _ _), Nat.add_sub_cancel_left, head,
      List.getElem?_take_of_lt inHead, stood]
  · by_cases inChecksum : place < 32
    · right
      have sameHead : head (footer.set place value) = head footer := by
        rw [head, List.take_set_of_le (by omega), head]
      have stated : ((footer.set place value).drop 28).take 4 =
          ((footer.drop 28).take 4).set (place - 28) value := by
        rw [List.drop_set, if_neg inHead, List.take_set]
      rw [sameHead, stands, statedChecksum, statedChecksum, stated]
      refine (Bytes.ofBigEndian_set_ne ?_ differs).symm
      rw [List.getElem?_take_of_lt (by omega), List.getElem?_drop, Nat.add_sub_of_le (by omega),
        stood]
    · left
      rw [← magic, statedMagic, statedMagic, List.drop_set, if_neg inChecksum]
      refine Bytes.ofBigEndian_set_ne ?_ differs
      rw [List.getElem?_drop, Nat.add_sub_of_le (by omega), stood]

namespace Layout

variable {data index footer : Bytes}

/-- A file has no layout if its footer does not end with the number of tables, or does not state the
checksum of the index and its own head. -/
theorem exists_error_of_ne (length : footer.length = Footer.size)
    (offset : Footer.metaOffset footer = data.length)
    (broken : Footer.statedMagic footer ≠ Footer.magic ∨
      Footer.checksum index (Footer.head footer) ≠ Footer.statedChecksum footer) :
    ∃ fault, ofFile (data ++ index ++ footer) = .error fault := by
  rw [ofFile_append length offset]
  by_cases magic : Footer.statedMagic footer = Footer.magic
  · have other := broken.resolve_left (not_not.mpr magic)
    exact ⟨.checksum, by rw [if_neg (not_not.mpr magic), if_pos other]⟩
  · exact ⟨_, if_pos magic⟩

/-- What follows the blocks of a table has a byte overwritten, other than the place of the index: then
the file has no layout. -/
theorem exists_error_of_set_tail {groups : List (List Entry)} {written : Properties} {place : Nat}
    {old value : UInt8} (dealt : Dealt groups)
    (stood : (Table.tail groups written)[place]? = some old) (differs : value ≠ old)
    (noOffset : place < (Table.tail groups written).length - Footer.size ∨
      (Table.tail groups written).length - Footer.size + 4 ≤ place) :
    ∃ fault, ofFile (Block.storedAll groups ++ (Table.tail groups written).set place value) =
      .error fault := by
  let index := BlockMeta.encodeIndex (BlockMeta.describe 0 groups)
  let footer := Footer.encode index (Block.storedAll groups).length written
  have isTail : Table.tail groups written = index ++ footer := rfl
  have length : footer.length = Footer.size := Footer.length_encode _ _ _
  have offset : Footer.metaOffset footer = (Block.storedAll groups).length :=
    Footer.metaOffset_encode _ _ dealt.small
  have magic : Footer.statedMagic footer = Footer.magic := Footer.statedMagic_encode _ _ _
  have stands : Footer.checksum index (Footer.head footer) = Footer.statedChecksum footer :=
    (Footer.statedChecksum_encode _ _ _).symm
  rw [isTail] at stood noOffset ⊢
  rw [List.length_append, length, Nat.add_sub_cancel] at noOffset
  by_cases inIndex : place < index.length
  · rw [List.set_append_left _ _ inIndex, ← List.append_assoc]
    rw [List.getElem?_append_left inIndex] at stood
    refine exists_error_of_ne length offset (Or.inr ?_)
    rw [← stands, Footer.checksum, Footer.checksum, ← List.set_append_left _ _ inIndex]
    intro same
    refine Crc32.checksum_set_ne ?_ differs (UInt32.toNat_inj.mp same)
    rw [List.getElem?_append_left inIndex, stood]
  · rw [List.set_append_right _ _ (Nat.le_of_not_lt inIndex), ← List.append_assoc]
    rw [List.getElem?_append_right (Nat.le_of_not_lt inIndex)] at stood
    refine exists_error_of_ne ?_ ?_ (Footer.ne_of_set magic stands stood differs)
    · rw [List.length_set, length]
    · rw [Footer.metaOffset, List.take_set_of_le (by omega)]
      exact offset

end Layout

/-! ## In a block -/

/-- A position in the bytes of blocks lies in those of one of them. -/
theorem Dealt.exists_block_of_lt {groups : List (List Entry)} {position : Nat}
    (inside : position < (Block.storedAll groups).length) :
    ∃ index group, groups[index]? = some group ∧
      (Block.storedAll (groups.take index)).length ≤ position ∧
      position < (Block.storedAll (groups.take (index + 1))).length := by
  induction groups generalizing position with
  | nil => exact absurd inside (Nat.not_lt_zero _)
  | cons first later ih =>
    have step (some : List (List Entry)) : (Block.storedAll (first :: some)).length =
        (Block.stored first).length + (Block.storedAll some).length := by
      simp [Block.storedAll]
    by_cases here : position < (Block.stored first).length
    · exact ⟨0, first, rfl, Nat.zero_le _, by rw [List.take_succ_cons, step]; omega⟩
    · rw [step] at inside
      have behind : position - (Block.stored first).length < (Block.storedAll later).length := by
        omega
      obtain ⟨index, group, found, start, stop⟩ := ih behind
      refine ⟨index + 1, group, found, ?_, ?_⟩
      · rw [List.take_succ_cons, step]
        omega
      · rw [List.take_succ_cons, step]
        omega

/-- Whether a position of the file of a table lies in what is stored of a block, its checksum
included. -/
def Table.StoresAt (table : Table) (index position : Nat) : Prop :=
  ∃ block, table.blocks[index]? = some block ∧ block.offset ≤ position ∧
    position < table.blockEnd index

namespace Table.Describes

variable {table : Table} {groups : List (List Entry)} {position : Nat}

/-- The bytes of a block, by those of the blocks before and up to it. -/
theorem storesAt_iff (describes : table.Describes groups) {index : Nat} :
    table.StoresAt index position ↔ index < groups.length ∧
      (Block.storedAll (groups.take index)).length ≤ position ∧
      position < (Block.storedAll (groups.take (index + 1))).length := by
  rw [StoresAt, describes.blockEnd]
  constructor
  · rintro ⟨block, found, start, stop⟩
    rw [describes.offset found] at start
    have counted := (List.getElem?_eq_some_iff.mp found).1
    rw [← Table.blockCount, describes.blockCount] at counted
    exact ⟨counted, start, stop⟩
  · rintro ⟨counted, start, stop⟩
    rw [← describes.blockCount, Table.blockCount] at counted
    refine ⟨_, List.getElem?_eq_getElem counted, ?_, stop⟩
    rwa [describes.offset (List.getElem?_eq_getElem counted)]

/-- A position before the index lies in exactly one block. -/
theorem existsUnique_storesAt (describes : table.Describes groups)
    (inside : position < table.metaOffset) : ∃! index, table.StoresAt index position := by
  rw [describes.metaOffset] at inside
  obtain ⟨index, group, found, start, stop⟩ := Dealt.exists_block_of_lt inside
  refine ⟨index, describes.storesAt_iff.mpr
    ⟨(List.getElem?_eq_some_iff.mp found).1, start, stop⟩, ?_⟩
  intro other stores
  obtain ⟨_, otherStart, otherStop⟩ := describes.storesAt_iff.mp stores
  rcases Nat.lt_trichotomy other index with before | same | behind
  · have bound := Dealt.length_storedAll_take_le groups (Nat.succ_le_of_lt before)
    simp only [Nat.succ_eq_add_one] at bound
    omega
  · exact same
  · have bound := Dealt.length_storedAll_take_le groups (Nat.succ_le_of_lt behind)
    simp only [Nat.succ_eq_add_one] at bound
    omega

variable {disk : Disk} {rest : Bytes} {old value : UInt8} {index : Nat} {group : List Entry}

/-- The block with the byte that was overwritten cannot be read. -/
theorem readBlock_of_storesAt (describes : table.Describes groups)
    (content : disk.content table.file = (Block.storedAll groups ++ rest).set position value)
    (stood : (Block.storedAll groups ++ rest)[position]? = some old) (differs : value ≠ old)
    (found : groups[index]? = some group) (stores : table.StoresAt index position) :
    table.readBlock disk index = .error (.checksum index) := by
  obtain ⟨_, start, stop⟩ := describes.storesAt_iff.mp stores
  rw [Dealt.storedAll_take_succ found, List.length_append] at stop
  have written := Dealt.drop_take_storedAll found rest
  have place : (Block.stored group)[position - (Block.storedAll (groups.take index)).length]? =
      some old := by
    rw [← written, List.getElem?_take_of_lt (by omega), List.getElem?_drop,
      Nat.add_sub_of_le start, stood]
  have bytes : ((disk.content table.file).drop (Block.storedAll (groups.take index)).length).take
      (Block.stored group).length = (Block.stored group).set
        (position - (Block.storedAll (groups.take index)).length) value := by
    rw [content, List.drop_set, if_neg (Nat.not_lt_of_le start), List.take_set, written]
  rw [describes.readBlock_eq found List.length_set bytes]
  exact Block.decodeStored_set place differs

/-- Any other block reads as it was written. -/
theorem readBlock_of_not_storesAt (describes : table.Describes groups)
    (content : disk.content table.file = (Block.storedAll groups ++ rest).set position value)
    (found : groups[index]? = some group) (elsewhere : ¬ table.StoresAt index position) :
    table.readBlock disk index = .ok group := by
  have written := Dealt.drop_take_storedAll found rest
  apply describes.readBlock found
  rw [content]
  by_cases before : position < (Block.storedAll (groups.take index)).length
  · rw [List.drop_set_of_lt before, written]
  · have behind : (Block.storedAll (groups.take (index + 1))).length ≤ position := by
      by_contra inside
      exact elsewhere (describes.storesAt_iff.mpr ⟨(List.getElem?_eq_some_iff.mp found).1,
        Nat.le_of_not_lt before, Nat.lt_of_not_le inside⟩)
    rw [Dealt.storedAll_take_succ found, List.length_append] at behind
    rw [List.drop_set, if_neg before, List.take_set, written, List.set_eq_of_length_le (by omega)]

end Table.Describes

/-- Let a builder have written a file, and let a byte of it be overwritten with another one. If the
byte stands behind the blocks, and does not belong to the place of the index with which the footer
starts, the file does not open any more. If it stands before the index, the file opens with the same
index, keys and properties. Then the byte belongs to exactly one block, which cannot be read, while
all others read as before. -/
theorem TableBuilder.Run.overwritten {entries : List Entry} {bytes : Bytes} {disk other : Disk}
    {path place : String} {position : Nat} {old value : UInt8}
    (run : TableBuilder.Run entries bytes) (read : disk.read path = .ok bytes)
    (stood : bytes[position]? = some old) (differs : value ≠ old)
    (readOther : other.read place = .ok (bytes.set position value)) :
    ∃ table, Table.openPath disk path = .ok table ∧
      (table.metaOffset ≤ position →
        position < bytes.length - Footer.size ∨ bytes.length - Footer.size + 4 ≤ position →
        ∃ fault, Table.openPath other place = .error fault) ∧
      (position < table.metaOffset →
        ∃ damaged, Table.openPath other place = .ok damaged ∧
          damaged.toLayout = table.toLayout ∧ damaged.firstKey = table.firstKey ∧
          damaged.lastKey = table.lastKey ∧ (∃! index, table.StoresAt index position) ∧
          ∀ index, index < table.blockCount →
            ∃ group, table.readBlock disk index = .ok group ∧
              (table.StoresAt index position → ∃ fault, damaged.readBlock other index = .error fault) ∧
              (¬ table.StoresAt index position → damaged.readBlock other index = .ok group)) := by
  obtain ⟨groups, written, dealt, rfl, sums, rfl⟩ := run.dealt
  obtain ⟨file, found, content⟩ := Disk.read_eq_ok_iff.mp read
  obtain ⟨fileOther, foundOther, contentOther⟩ := Disk.read_eq_ok_iff.mp readOther
  let layout : Layout := ⟨BlockMeta.describe 0 groups, (Block.storedAll groups).length, written⟩
  let table := Table.ofLayout path file (disk.content file).length layout
  let damaged := Table.ofLayout place fileOther (other.content fileOther).length layout
  have describes : table.Describes groups := ⟨dealt, rfl, rfl⟩
  have describesOther : damaged.Describes groups := ⟨dealt, rfl, rfl⟩
  have stated : Layout.ofFile (disk.content file) = .ok layout := by
    rw [content]
    exact Layout.ofFile_tail dealt sums rfl
  refine ⟨table, Table.openPath_eq_ok_iff.mpr ⟨file, layout, found, stated, rfl⟩, ?_, ?_⟩
  · intro behind noOffset
    change (Block.storedAll groups).length ≤ position at behind
    have length : (Table.tail groups written).length =
        (Table.tail groups written).length - Footer.size + Footer.size := by
      rw [Table.tail, List.length_append, Footer.length_encode]
      omega
    have isOther : (Block.storedAll groups ++ Table.tail groups written).set position value =
        Block.storedAll groups ++
          (Table.tail groups written).set (position - (Block.storedAll groups).length) value :=
      List.set_append_right _ _ behind
    rw [List.getElem?_append_right behind] at stood
    rw [List.length_append] at noOffset
    obtain ⟨fault, refused⟩ := Layout.exists_error_of_set_tail dealt stood differs (by omega)
    rw [← isOther, ← contentOther] at refused
    exact ⟨_, Table.openPath_of_error foundOther refused⟩
  · intro inside
    have statedOther : Layout.ofFile (other.content fileOther) = .ok layout := by
      rw [contentOther, List.set_append_left _ _ inside]
      exact Layout.ofFile_tail dealt sums List.length_set
    refine ⟨damaged, Table.openPath_eq_ok_iff.mpr ⟨_, _, foundOther, statedOther, rfl⟩, rfl, rfl,
      rfl, describes.existsUnique_storesAt inside, ?_⟩
    intro index counted
    rw [describes.blockCount] at counted
    have isGroup := List.getElem?_eq_getElem counted
    refine ⟨_, describes.readBlock_of_content content isGroup, ?_, ?_⟩
    · intro stores
      exact ⟨_, describesOther.readBlock_of_storesAt contentOther stood differs isGroup stores⟩
    · intro elsewhere
      exact describesOther.readBlock_of_not_storesAt contentOther isGroup elsewhere

/-- Entries of which a builder without room for two makes two blocks. -/
def twoEntries : List Entry :=
  [⟨⟨[1]⟩, 1, .put, [7]⟩, ⟨⟨[2]⟩, 2, .delete, []⟩]

/-- The directory with their table, one byte of which was overwritten. -/
def twoEntriesOverwritten : Disk :=
  { Disk.ofTables 0 [("t", twoEntries)] with
    contents := [.ofBytes ((TableBuilder.imageOf 0 twoEntries).set 30 255)] }

/-- The table still opens, and the byte belongs to the second block. That one cannot be read, and the
first one can. -/
theorem TableBuilder.Run.overwritten_twoEntries :
    ∃ table damaged, Table.openPath (.ofTables 0 [("t", twoEntries)]) "t" = .ok table ∧
      Table.openPath twoEntriesOverwritten "t" = .ok damaged ∧
      damaged.toLayout = table.toLayout ∧ table.StoresAt 1 30 ∧
      (∃ fault, damaged.readBlock twoEntriesOverwritten 1 = .error fault) ∧
      ∃ group, damaged.readBlock twoEntriesOverwritten 0 = .ok group := by
  have run : TableBuilder.Run twoEntries (TableBuilder.imageOf 0 twoEntries) :=
    TableBuilder.run_imageOf (by decide +kernel) (by decide +kernel)
  have stood : (TableBuilder.imageOf 0 twoEntries)[30]? = some 0 := by decide +kernel
  have read : (Disk.ofTables 0 [("t", twoEntries)]).read "t" =
      .ok (TableBuilder.imageOf 0 twoEntries) :=
    Disk.read_eq_ok_iff.mpr ⟨0, by decide +kernel, ByteStore.bytes_ofBytes _⟩
  have readOther : twoEntriesOverwritten.read "t" =
      .ok ((TableBuilder.imageOf 0 twoEntries).set 30 255) :=
    Disk.read_eq_ok_iff.mpr ⟨0, by decide +kernel, ByteStore.bytes_ofBytes _⟩
  obtain ⟨table, opened, _, inBlock⟩ := overwritten run read stood (by decide) readOther
  have checked : (Table.openPath (.ofTables 0 [("t", twoEntries)]) "t").toOption.all (fun table =>
      table.blockCount = 2 ∧ 30 < table.metaOffset ∧ 30 < table.blockEnd 1 ∧
        (table.blocks[1]?.any fun block => block.offset ≤ 30)) = true := by decide +kernel
  rw [opened] at checked
  simp only [Except.toOption, Option.all_some, decide_eq_true_eq] at checked
  obtain ⟨count, inside, stop, start⟩ := checked
  obtain ⟨block, isBlock, start⟩ := (Option.any_eq_true _ _).mp start
  have stores : table.StoresAt 1 30 := ⟨block, isBlock, of_decide_eq_true start, stop⟩
  obtain ⟨damaged, isOpened, sameLayout, _, _, unique, reads⟩ := inBlock inside
  obtain ⟨_, _, unreadable, _⟩ := reads 1 (by omega)
  obtain ⟨group, _, _, readable⟩ := reads 0 (by omega)
  refine ⟨table, damaged, opened, isOpened, sameLayout, stores, unreadable stores, group,
    readable fun storesFirst => ?_⟩
  cases unique.unique storesFirst stores

end SortedTables
