import SortedTables.Proofs.Block.Records
import SortedTables.Proofs.Unchecked.Opening

/-!
# Reading a block by unchecked accesses

A block is taken apart and each of its records is checked once, when the block is read, so that
whoever walks through the block later need not check anything. The checks are those of
`Block.decode`, but made one after the other on what is left of the bytes, and no entry is formed.
-/

namespace SortedTables.Unchecked

/-! ## The check of a record -/

/-- Checks what a key says about itself, giving the length of the first key of the block: for the first
record that is its own. -/
def checkKey (index firstLength keyLength : Nat) (bytes : Bytes) :
    Option (Except RecordFault Nat) :=
  if index = 0 then
    some (.ok keyLength)
  else if keyLength < 4 then
    some (.error .shortKeyHeader)
  else do
    let header ← front? 4 bytes
    let (count, header) ← little? 2 header
    let (restLength, _) ← little? 2 header
    if count ≤ firstLength ∧ 4 + restLength = keyLength then
      some (.ok firstLength)
    else
      some (.error (.invalidSharing count restLength))

/-- Checks the part of a record behind its key. -/
def checkTail (bytes : Bytes) : Option (Except RecordFault Unit) :=
  if bytes.length < 11 then
    some (.error .headerTruncated)
  else do
    let rest ← behind? 8 bytes
    let (kind, rest) ← byte? rest
    if (EntryKind.ofByte? kind).isNone then
      some (.error (.unknownKind kind))
    else
      let (valueLength, rest) ← little? 2 rest
      if rest.length < valueLength then
        some (.error .valueTruncated)
      else
        some (.ok ())

/-- Checks the record that starts a byte string. -/
def checkRecord (index firstLength : Nat) (bytes : Bytes) : Option (Except RecordFault Nat) :=
  if bytes.length < 2 then
    some (.error .truncated)
  else do
    let (keyLength, rest) ← little? 2 bytes
    if rest.length < keyLength then
      some (.error .keyTruncated)
    else
      match ← checkKey index firstLength keyLength rest with
      | .error fault => some (.error fault)
      | .ok firstLength =>
        let rest ← behind? keyLength rest
        match ← checkTail rest with
        | .error fault => some (.error fault)
        | .ok () => some (.ok firstLength)

/-- Checks the records at positions, the first of which has an index. -/
def validateFrom (records : Bytes) (index firstLength : Nat) :
    List UInt16 → Option (Except BlockFault Unit)
  | [] => some (.ok ())
  | position :: later =>
    if records.length < position.toNat then
      some (.error (.entry index (.outOfBlock position.toNat)))
    else do
      match ← checkRecord index firstLength (records.drop position.toNat) with
      | .error fault => some (.error (.entry index fault))
      | .ok firstLength => validateFrom records (index + 1) firstLength later

/-- The key of the first record is whole, and any other one shares bytes with it. -/
theorem checkKey_eq {index firstLength keyLength : Nat} {bytes : Bytes} {first? : Option Key}
    (isFirst : index = 0 ↔ first? = none) (length : ∀ first ∈ first?, first.size = firstLength)
    (enough : keyLength ≤ bytes.length) :
    checkKey index firstLength keyLength bytes =
      some ((Block.decodeKey first? (bytes.take keyLength)).map fun stored =>
        (first?.getD (stored.key .empty)).size) := by
  have body : (bytes.take keyLength).length = keyLength := List.length_take_of_le enough
  cases first? with
  | none =>
    rw [checkKey, if_pos (isFirst.mpr rfl)]
    simp [Block.decodeKey, Except.map, StoredKey.key, Key.size, body]
  | some first =>
    have later : index ≠ 0 := fun zero => Option.some_ne_none _ (isFirst.mp zero)
    rw [checkKey, if_neg later, Block.decodeKey, ← length first rfl]
    by_cases short : keyLength < 4
    · have cut : Bytes.cut? 4 (bytes.take keyLength) = none :=
        Bytes.cut?_eq_none_iff.mpr (by rwa [body])
      simp only [if_pos short, cut]
      rfl
    · have four : 4 ≤ keyLength := Nat.le_of_not_lt short
      have header : (bytes.take 4).length = 4 := List.length_take_of_le (by omega)
      have second : ((bytes.take 4).drop 2).length = 2 := by rw [List.length_drop, header]
      have countField := little?_eq (by omega : 2 ≤ (bytes.take 4).length)
      have restField := little?_eq (by omega : 2 ≤ ((bytes.take 4).drop 2).length)
      rw [List.take_of_length_le (Nat.le_of_eq second)] at restField
      have cut : Bytes.cut? 4 (bytes.take keyLength) =
          some (bytes.take 4, (bytes.take keyLength).drop 4) := by
        rw [Bytes.cut?_of_le (by rwa [body]), List.take_take, Nat.min_eq_left four]
      have rest : ((bytes.take keyLength).drop 4).length = keyLength - 4 := by
        rw [List.length_drop, body]
      simp only [if_neg short, Option.bind_eq_bind, front?_eq (Nat.le_trans four enough),
        Option.bind_some, countField, restField, cut, rest]
      have same : (4 + Bytes.ofLittleEndian ((bytes.take 4).drop 2) = keyLength) =
          (Bytes.ofLittleEndian ((bytes.take 4).drop 2) = keyLength - 4) := by
        apply propext
        omega
      simp only [same]
      split <;> rfl

/-- What stands behind the key of a record. -/
theorem checkTail_eq (key : Key) (bytes : Bytes) :
    checkTail bytes = some ((Block.decodeTail key bytes).map fun _ => ()) := by
  rw [checkTail, Block.decodeTail]
  by_cases short : bytes.length < 11
  · rw [if_pos short, Bytes.cut?_eq_none_iff.mpr short]
    rfl
  · have enough : 11 ≤ bytes.length := Nat.le_of_not_lt short
    have kind : ((bytes.take 11).drop 8).headD 0 = (bytes.drop 8).headD 0 := by
      rw [List.drop_take]
      cases bytes.drop 8 <;> rfl
    have value : (bytes.take 11).drop 9 = (bytes.drop 9).take 2 := List.drop_take
    rw [if_neg short, Bytes.cut?_of_le enough, Option.bind_eq_bind, behind?_eq (by omega)]
    simp only [Option.bind_eq_bind, Option.bind_some]
    rw [byte?_eq (by rw [List.length_drop]; omega)]
    simp only [Option.bind_some, List.drop_drop, Nat.reduceAdd, kind, value]
    cases EntryKind.ofByte? ((bytes.drop 8).headD 0) with
    | none => rfl
    | some known =>
      rw [Option.isNone_some, little?_eq (by rw [List.length_drop]; omega)]
      simp only [Bool.false_eq_true, if_false, Option.bind_some, List.drop_drop, Nat.reduceAdd]
      by_cases cut : (bytes.drop 11).length < Bytes.ofLittleEndian ((bytes.drop 9).take 2)
      · rw [if_pos cut, Bytes.cut?_eq_none_iff.mpr cut]
        rfl
      · rw [if_neg cut, Bytes.cut?_of_le (Nat.le_of_not_lt cut)]
        rfl

/-- The check of a record fails where reading it does. -/
theorem checkRecord_eq {index firstLength : Nat} {first? : Option Key}
    (isFirst : index = 0 ↔ first? = none) (length : ∀ first ∈ first?, first.size = firstLength)
    (bytes : Bytes) :
    checkRecord index firstLength bytes =
      some ((Block.decodeRecord first? bytes).map fun entry => (first?.getD entry.key).size) := by
  rw [checkRecord, Block.decodeRecord]
  by_cases short : bytes.length < 2
  · rw [if_pos short, Bytes.cut?_eq_none_iff.mpr short]
    rfl
  have two : 2 ≤ bytes.length := Nat.le_of_not_lt short
  rw [if_neg short, Bytes.cut?_of_le two, Option.bind_eq_bind, little?_eq two, Option.bind_some]
  dsimp only
  generalize Bytes.ofLittleEndian (bytes.take 2) = keyLength
  generalize bytes.drop 2 = rest
  by_cases cut : rest.length < keyLength
  · rw [if_pos cut, Bytes.cut?_eq_none_iff.mpr cut]
    rfl
  have enough : keyLength ≤ rest.length := Nat.le_of_not_lt cut
  rw [if_neg cut, Bytes.cut?_of_le enough, checkKey_eq isFirst length enough, behind?_eq enough]
  simp only [Option.bind_eq_bind, Option.bind_some]
  cases Block.decodeKey first? (rest.take keyLength) with
  | error fault => rfl
  | ok stored =>
    simp only [Except.map, checkTail_eq (stored.key (first?.getD .empty)), Option.bind_some]
    cases read : Block.decodeTail (stored.key (first?.getD .empty)) (rest.drop keyLength) with
    | error fault => rfl
    | ok entry =>
      have key := (Block.tail_of_decodeTail read).1
      cases first? with
      | none => simp [key]
      | some first => simp

/-! ## The check of a block -/

/-- An entry is read from what follows its position, unless the position lies behind the records. -/
theorem decodeAt_ofBytes (records : Bytes) (first? : Option Key) (position : UInt16) :
    Block.decodeAt (.ofBytes records) first? position =
      if records.length < position.toNat then .error (.outOfBlock position.toNat)
      else Block.decodeRecord first? (records.drop position.toNat) := by
  simp only [Block.decodeAt, ByteStore.startingAt_eq_drop, ByteStore.bytes_ofBytes]
  by_cases outside : records.length < position.toNat
  · have none : records.drop position.toNat = [] := List.drop_eq_nil_of_le (Nat.le_of_lt outside)
    simp [none, outside]
  · simp [outside]

/-- The check of the records behind the first one fails where reading them does. -/
theorem validateFrom_eq {records : Bytes} {first : Key} (index : Nat) (later : List UInt16) :
    validateFrom records (index + 1) first.size later =
      some (((later.zipIdx (index + 1)).mapM fun item =>
        (Block.decodeAt (.ofBytes records) (some first) item.1).mapError
          (BlockFault.entry item.2)).map fun _ => ()) := by
  induction later generalizing index with
  | nil => rfl
  | cons position later ih =>
    have isFirst : index + 1 = 0 ↔ some first = none := by simp
    have length : ∀ other ∈ some first, other.size = first.size := by simp
    rw [List.zipIdx_cons, List.mapM_cons, validateFrom]
    dsimp only
    rw [decodeAt_ofBytes]
    by_cases outside : records.length < position.toNat
    · rw [if_pos outside, if_pos outside]
      rfl
    rw [if_neg outside, if_neg outside, checkRecord_eq isFirst length]
    simp only [Option.bind_eq_bind, Option.bind_some]
    cases Block.decodeRecord (some first) (records.drop position.toNat) with
    | error fault => rfl
    | ok entry =>
      simp only [Except.map, Option.getD_some, ih, bind, Except.bind]
      cases (later.zipIdx (index + 1 + 1)).mapM fun item =>
          (Block.decodeAt (.ofBytes records) (some first) item.1).mapError
            (BlockFault.entry item.2) with
      | error fault => rfl
      | ok entries => rfl

/-- Checking all records fails where reading the block does. -/
theorem validate_eq (block : Block) :
    validateFrom block.records 0 0 block.positions = some (block.read.map fun _ => ()) := by
  rw [Block.read]
  cases block.positions with
  | nil => rfl
  | cons position later =>
    have isFirst : 0 = 0 ↔ (none : Option Key) = none := by simp
    have length : ∀ other ∈ (none : Option Key), other.size = 0 := by simp
    dsimp only
    rw [decodeAt_ofBytes block.records none, validateFrom]
    by_cases outside : block.records.length < position.toNat
    · rw [if_pos outside, if_pos outside]
      rfl
    rw [if_neg outside, if_neg outside, checkRecord_eq isFirst length]
    simp only [Option.bind_eq_bind, Option.bind_some]
    cases Block.decodeRecord none (block.records.drop position.toNat) with
    | error fault => rfl
    | ok entry =>
      simp only [Except.map, Option.getD_none, validateFrom_eq 0 later, bind, Except.bind]
      cases (later.zipIdx (0 + 1)).mapM fun item =>
          (Block.decodeAt (.ofBytes block.records) (some entry.key) item.1).mapError
            (BlockFault.entry item.2) with
      | error fault => rfl
      | ok entries => rfl

/-- Reads a number of positions. -/
def readPositions : Nat → Bytes → Option (List UInt16)
  | 0, _ => some []
  | count + 1, bytes => do
    let (position, rest) ← little? 2 bytes
    let later ← readPositions count rest
    some (UInt16.ofNat position :: later)

/-- Reads a block. -/
def decode (bytes : Bytes) : Option (Except BlockFault Block) :=
  if bytes.length < 2 then
    some (.error (.tooSmall bytes.length))
  else do
    let stop ← minus? bytes.length 2
    let number ← behind? stop bytes
    let (count, _) ← little? 2 number
    if stop < 2 * count then
      some (.error (.positionsOverflow count))
    else
      let start ← minus? stop (2 * count)
      let stored ← between? start stop bytes
      let positions ← readPositions count stored
      let records ← front? start bytes
      match ← validateFrom records 0 0 positions with
      | .error fault => some (.error fault)
      | .ok () => some (.ok ⟨records, positions⟩)

/-- As many positions are read as there are pairs of bytes. -/
theorem readPositions_eq {count : Nat} {bytes : Bytes} (length : bytes.length = 2 * count) :
    readPositions count bytes = some (Block.decodePositions bytes) := by
  induction count generalizing bytes with
  | zero =>
    obtain rfl := List.eq_nil_of_length_eq_zero length
    rfl
  | succ count ih =>
    match bytes, length with
    | low :: high :: rest, length =>
      have later : readPositions count rest = some (Block.decodePositions rest) :=
        ih (by simpa [Nat.mul_add] using length)
      have pair := little?_eq (by simp : 2 ≤ (low :: high :: rest).length)
      simp only [readPositions, Block.decodePositions, pair, Option.bind_eq_bind, Option.bind_some]
      exact congrArg (Option.bind · _) later

/-- Reading a block has an outcome, whatever its bytes are. -/
theorem decode_eq (bytes : Bytes) : decode bytes = some (Block.decode bytes) := by
  rw [decode, Block.decode, Block.split]
  by_cases short : bytes.length < 2
  · rw [if_pos short, if_pos short]
  have two : 2 ≤ bytes.length := Nat.le_of_not_lt short
  have last : (bytes.drop (bytes.length - 2)).length = 2 := by
    rw [List.length_drop]
    omega
  have number := little?_eq (Nat.le_of_eq last.symm)
  rw [List.take_of_length_le (Nat.le_of_eq last)] at number
  rw [if_neg short, if_neg short, minus?_eq two]
  simp only [Option.bind_eq_bind, Option.bind_some, behind?_eq (Nat.sub_le bytes.length 2), number]
  generalize Bytes.ofLittleEndian (bytes.drop (bytes.length - 2)) = count
  by_cases overflow : bytes.length - 2 < 2 * count
  · rw [if_pos overflow, if_pos overflow]
  have room : 2 * count ≤ bytes.length - 2 := Nat.le_of_not_lt overflow
  have stored : (bytes.take (bytes.length - 2)).drop (bytes.length - 2 - 2 * count) =
      (bytes.drop (bytes.length - 2 - 2 * count)).take (2 * count) := by
    rw [List.drop_take]
    congr 1
    omega
  have length : ((bytes.drop (bytes.length - 2 - 2 * count)).take (2 * count)).length =
      2 * count := by
    rw [List.length_take, List.length_drop]
    omega
  rw [if_neg overflow, if_neg overflow, minus?_eq room, Option.bind_some,
    between?_eq (Nat.sub_le _ _) (Nat.sub_le _ _), stored, Option.bind_some,
    readPositions_eq length, Option.bind_some, front?_eq (by omega), Option.bind_some]
  rw [validate_eq ⟨_, _⟩, Option.bind_some]
  dsimp only
  cases Block.read ⟨bytes.take (bytes.length - 2 - 2 * count), Block.decodePositions
      ((bytes.drop (bytes.length - 2 - 2 * count)).take (2 * count))⟩ with
  | error fault => rfl
  | ok entries => rfl

/-! ## Blocks of a table -/

/-- Every block of a table has room for its checksum before the next one starts. -/
def Spaced (layout : Layout) : Prop :=
  ∀ (index : Nat) (block : BlockMeta), layout.blocks[index]? = some block →
    block.offset + Layout.checksumSize ≤ layout.blockEnd index

/-- Reads a block of a table. -/
def readBlock (disk : Disk) (table : Table) (index : Nat) : Option (Except BlockReadFault Block) :=
  match table.blocks[index]? with
  | none => some (.error (.outOfRange index))
  | some block => do
    let length ← minus? (table.blockEnd index) block.offset
    match disk.readRange table.file block.offset length with
    | .error fault => some (.error (.io fault))
    | .ok stored =>
      let place ← minus? length Layout.checksumSize
      let (bytes, behind) ← Bytes.cut? place stored
      let (stated, _) ← big? Layout.checksumSize behind
      if (Crc32.checksum bytes).toNat ≠ stated then
        some (.error (.checksum index))
      else
        match ← decode bytes with
        | .error fault => some (.error (.corrupted index fault))
        | .ok block => some (.ok block)

/-- The check of the offsets leaves room for every checksum. -/
theorem offset_le_of_checkOffsets {metaOffset start index : Nat} {blocks : List BlockMeta}
    {block : BlockMeta} (checked : Layout.checkOffsets metaOffset start blocks = .ok ())
    (found : blocks[index]? = some block) :
    start ≤ block.offset ∧ block.offset + Layout.checksumSize ≤
      (blocks[index + 1]?.map BlockMeta.offset).getD metaOffset := by
  induction blocks generalizing start index block with
  | nil => cases found
  | cons first later ih =>
    rw [Layout.checkOffsets] at checked
    split at checked
    · next ordered =>
      cases index with
      | zero =>
        cases found
        refine ⟨ordered.1, ?_⟩
        rw [List.getElem?_cons_succ]
        cases next : later[0]? with
        | none => exact ordered.2
        | some second => exact (ih checked next).1
      | succ index =>
        rw [List.getElem?_cons_succ] at found
        obtain ⟨behind, room⟩ := ih checked found
        exact ⟨by omega, room⟩
    · cases checked

/-- The layout of a file is spaced. -/
theorem spaced_of_ofFile {bytes : Bytes} {layout : Layout} (stated : Layout.ofFile bytes = .ok layout) :
    Spaced layout := by
  have checked : Layout.checkOffsets layout.metaOffset 0 layout.blocks = .ok () := by
    simp only [Layout.ofFile, Layout.decodeIndex] at stated
    split at stated
    · cases stated
    split at stated
    · cases stated
    split at stated
    · cases stated
    split at stated
    · cases stated
    split at stated
    · cases stated
    · split at stated
      · cases stated
      · next checked =>
        cases stated
        exact checked
  intro index block found
  exact (offset_le_of_checkOffsets checked found).2

/-- A block that was accepted can be read. -/
theorem read_of_decode {bytes : Bytes} {block : Block} (accepted : Block.decode bytes = .ok block) :
    block.read = .ok block.entries := by
  unfold Block.decode at accepted
  split at accepted
  · cases accepted
  · split at accepted
    · cases accepted
    · next entries reading =>
      cases accepted
      simp only [Block.entries, reading]

/-- Reading a block of a table has an outcome, whatever the bytes of the file are by then. -/
theorem exists_readBlock {table : Table} (spaced : Spaced table.toLayout) (disk : Disk)
    (index : Nat) :
    ∃ result, readBlock disk table index = some result ∧
      result.map Block.entries = table.readBlock disk index ∧
      ∀ block, result = .ok block → block.read = .ok block.entries := by
  rw [readBlock, Table.readBlock]
  cases found : table.blocks[index]? with
  | none => exact ⟨_, rfl, rfl, by simp⟩
  | some description =>
    have room := spaced index description found
    dsimp only
    generalize isLength : table.blockEnd index - description.offset = length
    have ordered : minus? (table.blockEnd index) description.offset = some length := by
      rw [minus?_eq (by omega), isLength]
    have enough : Layout.checksumSize ≤ length := by omega
    simp only [ordered, Option.bind_eq_bind, Option.bind_some]
    cases reads : disk.readRange table.file description.offset length with
    | error fault => exact ⟨_, rfl, rfl, by simp⟩
    | ok stored =>
      have size : stored.length = length := (Disk.readRange_eq_ok_iff.mp reads).2
      have behind : (stored.drop (length - Layout.checksumSize)).length = Layout.checksumSize := by
        rw [List.length_drop]
        omega
      have number := big?_eq (Nat.le_of_eq behind.symm)
      rw [List.take_of_length_le (Nat.le_of_eq behind)] at number
      simp only [minus?_eq enough, Option.bind_some, Bytes.cut?_of_le (by omega :
        length - Layout.checksumSize ≤ stored.length), number, decode_eq, Block.decodeStored, size]
      by_cases other : (Crc32.checksum (stored.take (length - Layout.checksumSize))).toNat ≠
          Bytes.ofBigEndian (stored.drop (length - Layout.checksumSize))
      · rw [if_pos other, if_pos other]
        exact ⟨_, rfl, rfl, by simp⟩
      · rw [if_neg other, if_neg other]
        cases accepted : Block.decode (stored.take (length - Layout.checksumSize)) with
        | error fault => exact ⟨_, rfl, rfl, by simp⟩
        | ok block =>
          refine ⟨_, rfl, rfl, ?_⟩
          rintro other ⟨⟩
          exact read_of_decode accepted

end SortedTables.Unchecked
