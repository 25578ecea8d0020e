import SortedTables.Proofs.Table.Opening
import SortedTables.Proofs.Unchecked.Access

/-!
# Opening a file by unchecked accesses

Footer, index and the offsets of the blocks, as they are read from a file of any content. The footer
is read at once and taken apart field by field. Each number of the index is read after a look at how
many bytes are left.
-/

namespace SortedTables.Unchecked

/-! ## The index -/

/-- Reads a key behind its length. -/
def decodeKey (bytes : Bytes) : Option (Except MetaFault (Key × Bytes)) :=
  if bytes.length < 2 then
    some (.error .keyLengthTruncated)
  else do
    let (length, rest) ← big? 2 bytes
    if rest.length < length then
      some (.error .keyTruncated)
    else
      let (key, rest) ← Bytes.cut? length rest
      some (.ok (⟨key⟩, rest))

/-- Reads the description of a block. -/
def decodeMeta (bytes : Bytes) : Option (Except MetaFault (BlockMeta × Bytes)) :=
  if bytes.length < 6 then
    some (.error .truncated)
  else do
    let (offset, rest) ← big? 4 bytes
    match ← decodeKey rest with
    | .error fault => some (.error fault)
    | .ok (firstKey, rest) =>
      match ← decodeKey rest with
      | .error fault => some (.error fault)
      | .ok (lastKey, rest) => some (.ok (⟨offset, firstKey, lastKey⟩, rest))

/-- Reads the descriptions of a number of blocks behind those read already. -/
def decodeMany (bytes : Bytes) (read : List BlockMeta) :
    Nat → Option (Except IndexFault (List BlockMeta))
  | 0 => some (if bytes = [] then .ok read.reverse else .error .trailingBytes)
  | count + 1 => do
    match ← decodeMeta bytes with
    | .error fault => some (.error (.block read.length fault))
    | .ok (block, rest) => decodeMany rest (block :: read) count

/-- Reads an index. -/
def decodeIndex (bytes : Bytes) : Option (Except IndexFault (List BlockMeta)) :=
  if bytes.length < 4 then
    some (.error .truncated)
  else do
    let (count, rest) ← big? 4 bytes
    decodeMany rest [] count

theorem decodeKey_eq (bytes : Bytes) : decodeKey bytes = some (BlockMeta.decodeKey bytes) := by
  rw [decodeKey, BlockMeta.decodeKey]
  by_cases short : bytes.length < 2
  · rw [if_pos short, Bytes.cut?_eq_none_iff.mpr short]
  · have enough : 2 ≤ bytes.length := Nat.le_of_not_lt short
    rw [if_neg short, big?_eq enough, Bytes.cut?_of_le enough]
    simp only [Option.bind_eq_bind, Option.bind_some]
    by_cases cut : (bytes.drop 2).length < Bytes.ofBigEndian (bytes.take 2)
    · rw [if_pos cut, Bytes.cut?_eq_none_iff.mpr cut]
    · rw [if_neg cut, Bytes.cut?_of_le (Nat.le_of_not_lt cut)]
      rfl

theorem decodeMeta_eq (bytes : Bytes) : decodeMeta bytes = some (BlockMeta.decode bytes) := by
  rw [decodeMeta, BlockMeta.decode]
  by_cases short : bytes.length < 6
  · rw [if_pos short, Bytes.cut?_eq_none_iff.mpr short]
  · have enough : 4 ≤ bytes.length := by omega
    rw [if_neg short, big?_eq enough, Bytes.cut?_of_le (Nat.le_of_not_lt short)]
    simp only [Option.bind_eq_bind, Option.bind_some, decodeKey_eq]
    cases BlockMeta.decodeKey (bytes.drop 4) with
    | error fault => rfl
    | ok first =>
      simp only [bind, Except.bind]
      cases BlockMeta.decodeKey first.2 with
      | error fault => rfl
      | ok last => rfl

theorem decodeMany_eq (bytes : Bytes) (read : List BlockMeta) (count : Nat) :
    decodeMany bytes read count = some (BlockMeta.decodeMany bytes read count) := by
  induction count generalizing bytes read with
  | zero => rfl
  | succ count ih =>
    rw [decodeMany, BlockMeta.decodeMany, decodeMeta_eq]
    simp only [Option.bind_eq_bind, Option.bind_some]
    cases BlockMeta.decode bytes with
    | error fault => rfl
    | ok decoded => exact ih decoded.2 (decoded.1 :: read)

/-- Reading an index has an outcome, whatever its bytes are. -/
theorem decodeIndex_eq (bytes : Bytes) :
    decodeIndex bytes = some (BlockMeta.decodeIndex bytes) := by
  rw [decodeIndex, BlockMeta.decodeIndex]
  by_cases short : bytes.length < 4
  · rw [if_pos short, Bytes.cut?_eq_none_iff.mpr short]
  · have enough : 4 ≤ bytes.length := Nat.le_of_not_lt short
    rw [if_neg short, big?_eq enough, Bytes.cut?_of_le enough]
    exact decodeMany_eq _ _ _

/-! ## The footer and the file -/

/-- The fields of a footer. -/
structure Fields where
  /-- Where the index starts. -/
  metaOffset : Nat
  /-- What the writer recorded. -/
  properties : Properties
  /-- The checksum. -/
  checksum : Nat
  /-- The number that marks a table. -/
  magic : Nat

/-- Takes a footer apart. -/
def readFooter (footer : Bytes) : Option Fields := do
  let (metaOffset, rest) ← little? 4 footer
  let (entries, rest) ← little? 8 rest
  let (tombstones, rest) ← little? 8 rest
  let (maxSeq, rest) ← little? 8 rest
  let (checksum, rest) ← big? 4 rest
  let (magic, _) ← big? 4 rest
  some ⟨metaOffset, ⟨entries, tombstones, UInt64.ofNat maxSeq⟩, checksum, magic⟩

/-- Why a file is not opened: it cannot be read, or it is not a table. -/
inductive Refusal where
  /-- The file cannot be read. -/
  | io (fault : IoFault)
  /-- The file is not a table. -/
  | table (fault : TableFault)

/-- Opens a file. -/
def openFile (disk : Disk) (file : FileId) : Option (Except Refusal Layout) :=
  let size := (disk.content file).length
  if size < Footer.size then
    some (.error (.table (.tooSmall size)))
  else do
    let start ← minus? size Footer.size
    match disk.readRange file start Footer.size with
    | .error fault => some (.error (.io fault))
    | .ok footer =>
      let fields ← readFooter footer
      if fields.magic ≠ Footer.magic then
        some (.error (.table (.badMagic fields.magic)))
      else
        let metaEnd ← minus? size Footer.size
        if metaEnd < fields.metaOffset then
          some (.error (.table (.metaOffset fields.metaOffset metaEnd)))
        else
          let length ← minus? metaEnd fields.metaOffset
          match disk.readRange file fields.metaOffset length with
          | .error fault => some (.error (.io fault))
          | .ok index =>
            let covered ← minus? Footer.size 8
            let head ← front? covered footer
            if Footer.checksum index head ≠ fields.checksum then
              some (.error (.table .checksum))
            else
              match ← decodeIndex index with
              | .error fault => some (.error (.table (.index fault)))
              | .ok blocks =>
                match Layout.checkOffsets fields.metaOffset 0 blocks with
                | .error fault => some (.error (.table fault))
                | .ok () => some (.ok ⟨blocks, fields.metaOffset, fields.properties⟩)

/-- A footer of the right length can be taken apart. -/
theorem readFooter_eq {footer : Bytes} (length : footer.length = Footer.size) :
    readFooter footer = some ⟨Footer.metaOffset footer, Footer.properties footer,
      Footer.statedChecksum footer, Footer.statedMagic footer⟩ := by
  have size : footer.length = 36 := length
  have last : (footer.drop 32).take 4 = footer.drop 32 :=
    List.take_of_length_le (by rw [List.length_drop]; omega)
  simp only [readFooter, Option.bind_eq_bind]
  rw [little?_eq (by omega), Option.bind_some, little?_eq (by rw [List.length_drop]; omega),
    Option.bind_some, List.drop_drop, little?_eq (by rw [List.length_drop]; omega),
    Option.bind_some, List.drop_drop, little?_eq (by rw [List.length_drop]; omega),
    Option.bind_some, List.drop_drop, big?_eq (by rw [List.length_drop]; omega),
    Option.bind_some, List.drop_drop, big?_eq (by rw [List.length_drop]; omega), Option.bind_some]
  simp only [Nat.reduceAdd, last]
  rfl

/-- A range inside of a file can be read. -/
theorem readRange_of_le {disk : Disk} {file : FileId} {start length : Nat}
    (inside : start + length ≤ (disk.content file).length) :
    disk.readRange file start length = .ok (((disk.content file).drop start).take length) := by
  refine Disk.readRange_eq_ok_iff.mpr ⟨rfl, ?_⟩
  rw [List.length_take, List.length_drop]
  omega

/-- Opening a file has an outcome, whatever its bytes are, and that is its layout. -/
theorem openFile_eq (disk : Disk) (file : FileId) :
    openFile disk file = some ((Layout.ofFile (disk.content file)).mapError .table) := by
  generalize content : disk.content file = bytes
  simp only [openFile, Layout.ofFile, content]
  by_cases short : bytes.length < Footer.size
  · rw [if_pos short, if_pos short]
    rfl
  have size : Footer.size ≤ bytes.length := Nat.le_of_not_lt short
  rw [if_neg short, if_neg short]
  generalize isFooter : bytes.drop (bytes.length - Footer.size) = footer
  have length : footer.length = Footer.size := by
    rw [← isFooter, List.length_drop]
    omega
  have reads : disk.readRange file (bytes.length - Footer.size) Footer.size = .ok footer := by
    rw [readRange_of_le (by rw [content]; omega), content, isFooter,
      List.take_of_length_le (by omega)]
  simp only [Option.bind_eq_bind, minus?_eq size, Option.bind_some, reads, readFooter_eq length]
  by_cases magic : Footer.statedMagic footer ≠ Footer.magic
  · rw [if_pos magic, if_pos magic]
    rfl
  rw [if_neg magic, if_neg magic, Layout.decodeIndex]
  by_cases outside : bytes.length - Footer.size < Footer.metaOffset footer
  · rw [if_pos outside, if_pos outside]
    rfl
  have ordered : Footer.metaOffset footer ≤ bytes.length - Footer.size := Nat.le_of_not_lt outside
  have covered : minus? Footer.size 8 = some 28 := rfl
  have head : front? 28 footer = some (Footer.head footer) :=
    front?_eq (by rw [length]; decide)
  rw [if_neg outside, if_neg outside, minus?_eq ordered, Option.bind_some,
    readRange_of_le (by rw [content]; omega), content, covered]
  simp only [Option.bind_some, head, decodeIndex_eq]
  generalize (bytes.drop (Footer.metaOffset footer)).take
    (bytes.length - Footer.size - Footer.metaOffset footer) = index
  by_cases checksum : Footer.checksum index (Footer.head footer) ≠ Footer.statedChecksum footer
  · rw [if_pos checksum, if_pos checksum]
    rfl
  rw [if_neg checksum, if_neg checksum]
  cases BlockMeta.decodeIndex index with
  | error fault => rfl
  | ok blocks =>
    dsimp only
    cases Layout.checkOffsets (Footer.metaOffset footer) 0 blocks with
    | error fault => rfl
    | ok _ => rfl

/-- Opens a file as a table. -/
def openTable (disk : Disk) (path : String) (file : FileId) : Option (Except Refusal Table) := do
  match ← openFile disk file with
  | .error refusal => some (.error refusal)
  | .ok layout => some (.ok (.ofLayout path file (disk.content file).length layout))

/-- Opening a file as a table has an outcome, whatever its bytes are. -/
theorem openTable_eq (disk : Disk) (path : String) (file : FileId) :
    openTable disk path file = some ((Table.openFile disk path file).mapError .table) := by
  rw [openTable, openFile_eq, Table.openFile]
  cases Layout.ofFile (disk.content file) <;> rfl

end SortedTables.Unchecked
