import SortedTables.Proofs.Table.Reading

/-!
# What stands behind the blocks has one stored form

An index is a list of descriptions without padding and without a choice of how to write a field, so
`BlockMeta.decodeIndex_eq_ok_iff` has both directions: what is accepted is exactly what is written for
some list of blocks. No index is the front of another one (`BlockMeta.eq_of_isPrefix_of_decodeIndex`), as
the number of blocks comes first and each description says how long it is.

A footer whose checksum and magic number hold has no choice left either
(`Footer.encode_of_stands`). So all that a file has behind its blocks is settled by the layout that is
read from it: `Layout.drop_metaOffset`.
-/

namespace SortedTables

namespace BlockMeta

variable {bytes rest : Bytes} {blocks : List BlockMeta}

/-! ## An index that is accepted was written -/

/-- A key that was read stands behind its length. -/
theorem eq_of_decodeKey {key : Key} (read : decodeKey bytes = .ok (key, rest)) :
    bytes = encodeKey key ++ rest ∧ key.size < Bytes.capacity 2 := by
  unfold decodeKey at read
  split at read
  · cases read
  · next length behind lengthCut =>
    obtain ⟨rfl, two⟩ := Bytes.cut?_eq_some_iff.mp lengthCut
    split at read
    · cases read
    · next front later keyCut =>
      obtain ⟨rfl, stated⟩ := Bytes.cut?_eq_some_iff.mp keyCut
      cases read
      have isLength : Bytes.bigEndian 2 front.length = length := by
        rw [stated, Bytes.bigEndian_of_length two]
      constructor
      · rw [encodeKey, Key.size, isLength, List.append_assoc]
      · rw [Key.size, stated]
        exact Bytes.ofBigEndian_lt_capacity two

/-- The description of a block that was read stands in front of what is left. -/
theorem eq_of_decode {block : BlockMeta} (read : decode bytes = .ok (block, rest)) :
    bytes = encode block ++ rest ∧ block.Describable := by
  unfold decode at read
  split at read
  · cases read
  · next fixed cut =>
    -- Six bytes are asked for, though only the four of the offset are taken off here.
    have four : 4 ≤ bytes.length := by
      by_contra short
      have none : Bytes.cut? 6 bytes = none := Bytes.cut?_eq_none_iff.mpr (by omega)
      cases cut.symm.trans none
    have offset : (bytes.take 4).length = 4 := List.length_take_of_le four
    simp only [bind, Except.bind] at read
    split at read
    · cases read
    · next first isFirst =>
      split at read
      · cases read
      · next last isLast =>
        cases read
        obtain ⟨firstBytes, firstSmall⟩ := eq_of_decodeKey isFirst
        obtain ⟨lastBytes, lastSmall⟩ := eq_of_decodeKey isLast
        refine ⟨?_, Bytes.ofBigEndian_lt_capacity offset, firstSmall, lastSmall⟩
        calc
          bytes = bytes.take 4 ++ bytes.drop 4 := (List.take_append_drop 4 bytes).symm
          _ = bytes.take 4 ++ (encodeKey first.1 ++ (encodeKey last.1 ++ last.2)) := by
            rw [firstBytes, lastBytes]
          _ = _ := by
            simp only [encode, Bytes.bigEndian_of_length offset, List.append_assoc]

/-- Descriptions that were read are all that there was. -/
theorem eq_of_decodeMany {seen : List BlockMeta} {count : Nat}
    (read : decodeMany bytes seen count = .ok blocks) :
    ∃ later, blocks = seen.reverse ++ later ∧ later.length = count ∧
      bytes = later.flatMap encode ∧ ∀ block ∈ later, block.Describable := by
  induction count generalizing bytes seen with
  | zero =>
    unfold decodeMany at read
    split at read
    · next nothing =>
      cases read
      exact ⟨[], by simp, rfl, nothing, by simp⟩
    · cases read
  | succ count ih =>
    unfold decodeMany at read
    split at read
    · cases read
    · next block rest isBlock =>
      obtain ⟨rfl, describable⟩ := eq_of_decode isBlock
      obtain ⟨later, rfl, rfl, rfl, allDescribable⟩ := ih read
      refine ⟨block :: later, by simp, rfl, rfl, ?_⟩
      intro other member
      rcases List.mem_cons.mp member with rfl | member
      · exact describable
      · exact allDescribable other member

/-- A byte string is accepted as the index of blocks exactly if it is what is written for them, and
they can be described. -/
theorem decodeIndex_eq_ok_iff : decodeIndex bytes = .ok blocks ↔
    bytes = encodeIndex blocks ∧ blocks.length < Bytes.capacity 4 ∧
      ∀ block ∈ blocks, block.Describable := by
  constructor
  · intro read
    unfold decodeIndex at read
    split at read
    · cases read
    · next number rest cut =>
      obtain ⟨rfl, four⟩ := Bytes.cut?_eq_some_iff.mp cut
      obtain ⟨later, rfl, count, rfl, describable⟩ := eq_of_decodeMany read
      refine ⟨?_, ?_, describable⟩
      · rw [encodeIndex, count, Bytes.bigEndian_of_length four]
      · rw [count]
        exact Bytes.ofBigEndian_lt_capacity four
  · rintro ⟨rfl, few, describable⟩
    exact decodeIndex_encodeIndex few describable

/-- An index that is the front of another one is all of it. -/
theorem eq_of_isPrefix_of_decodeIndex {other : Bytes} {others : List BlockMeta}
    (read : decodeIndex bytes = .ok blocks) (readOther : decodeIndex other = .ok others)
    (front : bytes <+: other) : bytes = other := by
  obtain ⟨more, rfl⟩ := front
  obtain ⟨rfl, few, describable⟩ := decodeIndex_eq_ok_iff.mp read
  rw [decodeIndex_append few describable] at readOther
  split at readOther
  · next nothing => rw [nothing, List.append_nil]
  · cases readOther

/-- Offsets that can be described are written without a mistake. -/
theorem encodeIndex?_eq (describable : ∀ block ∈ blocks, block.Describable) :
    encodeIndex? blocks = some (encodeIndex blocks) := by
  apply if_pos
  apply List.all_eq_true.mpr
  intro block member
  exact decide_eq_true (describable block member).offset

end BlockMeta

/-! ## A footer that is accepted was written -/

namespace Footer

variable {footer : Bytes}

/-- The head of a footer is what is written for the place of the index and the properties that it
states. -/
theorem encodeHead_eq_head (length : footer.length = size) :
    encodeHead (metaOffset footer) (properties footer) = head footer := by
  have isSize : footer.length = 36 := length
  have field (start width : Nat) (inside : start + width ≤ 36) :
      ((footer.drop start).take width).length = width := by
    rw [List.length_take, List.length_drop]
    omega
  have join (start width rest : Nat) : (footer.drop start).take (width + rest) =
      (footer.drop start).take width ++ (footer.drop (start + width)).take rest := by
    rw [List.take_add, List.drop_drop]
  have maxSeq : (UInt64.ofNat (Bytes.ofLittleEndian ((footer.drop 20).take 8))).toNat =
      Bytes.ofLittleEndian ((footer.drop 20).take 8) :=
    UInt64.toNat_ofNat_of_lt' (Bytes.ofLittleEndian_lt_capacity (field 20 8 (by omega)))
  have first := field 0 4 (by omega)
  rw [List.drop_zero] at first
  calc
    encodeHead (metaOffset footer) (properties footer)
      = footer.take 4 ++ (footer.drop 4).take 8 ++ (footer.drop 12).take 8 ++
          (footer.drop 20).take 8 := by
        simp only [encodeHead, metaOffset, properties, maxSeq,
          Bytes.littleEndian_of_length first,
          Bytes.littleEndian_of_length (field 4 8 (by omega)),
          Bytes.littleEndian_of_length (field 12 8 (by omega)),
          Bytes.littleEndian_of_length (field 20 8 (by omega))]
    _ = footer.take 28 := by
        have whole := join 0 4 24
        rw [List.drop_zero, join 4 8 16, join 12 8 8] at whole
        simp only [whole, List.append_assoc]

/-- A footer that ends with the number that marks a table, and states the checksum of an index and its
own head, is the one that is written behind this index. -/
theorem encode_of_stands {index : Bytes} (length : footer.length = size)
    (marked : statedMagic footer = magic)
    (stands : checksum index (head footer) = statedChecksum footer) :
    encode index (metaOffset footer) (properties footer) = footer := by
  have isSize : footer.length = 36 := length
  have checksumSize : ((footer.drop 28).take 4).length = 4 := by
    rw [List.length_take, List.length_drop]
    omega
  have magicSize : (footer.drop 32).length = 4 := by
    rw [List.length_drop]
    omega
  have isChecksum : Bytes.bigEndian 4 (checksum index (head footer)) = (footer.drop 28).take 4 := by
    rw [stands, statedChecksum, Bytes.bigEndian_of_length checksumSize]
  have isMagic : Bytes.bigEndian 4 magic = footer.drop 32 := by
    rw [← marked, statedMagic, Bytes.bigEndian_of_length magicSize]
  have behind : (footer.drop 28).drop 4 = footer.drop 32 := List.drop_drop
  rw [encode, encodeHead_eq_head length, isChecksum, isMagic, head, List.append_assoc, ← behind,
    List.take_append_drop, List.take_append_drop]

end Footer

/-! ## A file that opens -/

/-- A file with a layout consists of data up to the index, the index, and the footer. -/
theorem Layout.exists_parts {file : Bytes} {layout : Layout} (stated : ofFile file = .ok layout) :
    ∃ data index footer, file = data ++ index ++ footer ∧ footer.length = Footer.size ∧
      Footer.metaOffset footer = data.length := by
  unfold ofFile at stated
  dsimp only at stated
  split at stated
  · cases stated
  · next room =>
    split at stated
    · cases stated
    · unfold decodeIndex at stated
      dsimp only at stated
      split at stated
      · cases stated
      · next ordered =>
        generalize isFooter : file.drop (file.length - Footer.size) = footer at ordered
        have start : Footer.metaOffset footer ≤ file.length - Footer.size :=
          Nat.le_of_not_lt ordered
        refine ⟨file.take (Footer.metaOffset footer),
          (file.take (file.length - Footer.size)).drop (Footer.metaOffset footer), footer,
          ?_, ?_, ?_⟩
        · have front : file.take (Footer.metaOffset footer) =
              (file.take (file.length - Footer.size)).take (Footer.metaOffset footer) := by
            rw [List.take_take, Nat.min_eq_left start]
          rw [front, List.take_append_drop, ← isFooter, List.take_append_drop]
        · rw [← isFooter, List.length_drop]
          omega
        · rw [List.length_take_of_le (by omega)]

/-- The layout of a file settles all bytes from the start of the index on. -/
theorem Layout.drop_metaOffset {file : Bytes} {layout : Layout}
    (stated : ofFile file = .ok layout) :
    (∀ block ∈ layout.blocks, block.Describable) ∧
      file.drop layout.metaOffset = BlockMeta.encodeIndex layout.blocks ++
        Footer.encode (BlockMeta.encodeIndex layout.blocks) layout.metaOffset layout.properties := by
  obtain ⟨data, index, footer, rfl, length, offset⟩ := exists_parts stated
  rw [ofFile_append length offset] at stated
  split at stated
  · cases stated
  · next marked =>
    split at stated
    · cases stated
    · next stands =>
      split at stated
      · cases stated
      · next blocks isIndex =>
        split at stated
        · cases stated
        · cases stated
          obtain ⟨rfl, _, describable⟩ := BlockMeta.decodeIndex_eq_ok_iff.mp isIndex
          have written := Footer.encode_of_stands length (not_not.mp marked) (not_not.mp stands)
          rw [offset] at written
          refine ⟨describable, ?_⟩
          rw [List.append_assoc, List.drop_left, written]

namespace Table

open BlockMeta

/-- What stands behind the blocks of a table has one stored form. The index of blocks that can be
described reads back, and neither a proper front of it nor anything longer is accepted. Whatever is
accepted as an index is what is written for the blocks that are read from it. So a file that opens has,
from the start of its index on, the index of the table and the footer that is written for the table. -/
theorem tail_canonical :
    (∀ blocks : List BlockMeta, blocks.length < Bytes.capacity 4 →
      (∀ block ∈ blocks, block.Describable) →
      ∃ index, encodeIndex? blocks = some index ∧ decodeIndex index = .ok blocks ∧
        ∀ other, other ≠ index → other <+: index ∨ index <+: other →
          ∃ fault, decodeIndex other = .error fault) ∧
    (∀ bytes blocks, decodeIndex bytes = .ok blocks → encodeIndex? blocks = some bytes) ∧
    ∀ disk path table, openPath disk path = .ok table →
      ∃ bytes index, disk.read path = .ok bytes ∧ encodeIndex? table.blocks = some index ∧
        bytes.drop table.metaOffset =
          index ++ Footer.encode index table.metaOffset table.properties ∧
        (Footer.encode index table.metaOffset table.properties).length = 36 := by
  refine ⟨?_, ?_, ?_⟩
  · intro blocks few describable
    have reads := decodeIndex_encodeIndex few describable
    refine ⟨encodeIndex blocks, encodeIndex?_eq describable, reads, ?_⟩
    intro other differs isFront
    cases readOther : decodeIndex other with
    | error fault => exact ⟨fault, rfl⟩
    | ok others =>
      have same : other = encodeIndex blocks := by
        rcases isFront with shorter | longer
        · exact eq_of_isPrefix_of_decodeIndex readOther reads shorter
        · exact (eq_of_isPrefix_of_decodeIndex reads readOther longer).symm
      exact absurd same differs
  · intro bytes blocks read
    obtain ⟨rfl, _, describable⟩ := decodeIndex_eq_ok_iff.mp read
    exact encodeIndex?_eq describable
  · intro disk path table opened
    obtain ⟨file, layout, found, stated, rfl⟩ := openPath_eq_ok_iff.mp opened
    obtain ⟨describable, behind⟩ := Layout.drop_metaOffset stated
    exact ⟨disk.content file, encodeIndex layout.blocks, Disk.read_eq_ok_iff.mpr ⟨file, found, rfl⟩,
      encodeIndex?_eq describable, behind, Footer.length_encode _ _ _⟩

/-- Two blocks, the first of which starts with the empty key. -/
def pair : List BlockMeta := [⟨0, .empty, ⟨[1]⟩⟩, ⟨70000, ⟨[1, 0]⟩, ⟨[255]⟩⟩]

/-- A table of two entries, one of them a tombstone. -/
def pairDisk : Disk :=
  .ofTables 0 [("t", [⟨.empty, 1, .put, [7]⟩, ⟨⟨[2]⟩, 258, .delete, []⟩])]

/-- Their index reads back, without its last byte or with one more it does not, and the table ends with
its index and its footer. -/
theorem tail_canonical_pair :
    ∃ index, encodeIndex? pair = some index ∧ decodeIndex index = .ok pair ∧
      (∃ fault, decodeIndex index.dropLast = .error fault) ∧
      (∃ fault, decodeIndex (index ++ [0]) = .error fault) ∧
      encodeIndex? [⟨258, ⟨[9]⟩, .empty⟩] = some [0, 0, 0, 1, 0, 0, 1, 2, 0, 1, 9, 0, 0] ∧
      ∃ table bytes ending, openPath pairDisk "t" = .ok table ∧ table.blockCount = 2 ∧
        pairDisk.read "t" = .ok bytes ∧ encodeIndex? table.blocks = some ending ∧
        bytes.drop table.metaOffset =
          ending ++ Footer.encode ending table.metaOffset table.properties := by
  obtain ⟨written, accepted, opening⟩ := tail_canonical
  have describable : ∀ block ∈ pair, block.Describable := by
    intro block member
    simp only [pair, List.mem_cons, List.not_mem_nil, or_false] at member
    rcases member with rfl | rfl <;> exact ⟨by decide, by decide, by decide⟩
  obtain ⟨index, isIndex, reads, others⟩ := written pair (by decide) describable
  have shorter : index.dropLast ≠ index := by
    intro same
    have length := congrArg List.length same
    rw [List.length_dropLast] at length
    have nothing : index = [] := List.eq_nil_of_length_eq_zero (by omega)
    rw [nothing] at reads
    cases reads
  have count : (openPath pairDisk "t").toOption.map blockCount = some 2 := by decide +kernel
  refine ⟨index, isIndex, reads, others _ shorter (Or.inl (List.dropLast_prefix index)),
    others _ (by simp) (Or.inr (List.prefix_append index [0])),
    accepted [0, 0, 0, 1, 0, 0, 1, 2, 0, 1, 9, 0, 0] _ (by decide), ?_⟩
  cases opened : openPath pairDisk "t" with
  | error fault =>
    rw [opened] at count
    cases count
  | ok table =>
    rw [opened] at count
    obtain ⟨bytes, ending, read, isEnding, tail, _⟩ := opening pairDisk "t" table opened
    exact ⟨table, bytes, ending, rfl, Option.some.inj count, read, isEnding, tail⟩

end Table

end SortedTables
