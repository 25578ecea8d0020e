import SortedTables.Block.Format
import SortedTables.Disk
import SortedTables.Table.Footer

/-!
# Tables

A table is an open file of entries: its blocks, each followed by a checksum, then its index, then its
footer. Opening reads and checks footer and index only; blocks are read from the file when they are
needed, and each reading can fail for reasons of its own.
-/

namespace SortedTables

/-- Why a file is not a table. -/
inductive TableFault where
  /-- The file is shorter than a footer. -/
  | tooSmall (size : Nat)
  /-- The file does not end with the number that marks a table. -/
  | badMagic (found : Nat)
  /-- The index would start behind the place where the footer does. -/
  | metaOffset (offset metaEnd : Nat)
  /-- The index and the footer do not have the checksum that the footer states. -/
  | checksum
  /-- The index cannot be read. -/
  | index (fault : IndexFault)
  /-- A block starts inside the one before it, or leaves no room for its checksum. -/
  | blockOffset (offset : Nat)
deriving DecidableEq

/-- A number that four bytes can hold in hexadecimal, in full width. -/
def hexWord (n : Nat) : String :=
  "0x" ++ String.ofList ((Nat.toDigits 16 (UInt32.size + n)).drop 1)

/-- The wording of a fault. -/
def TableFault.message : TableFault → String
  | tooSmall size => s!"table file too small: {size} bytes"
  | badMagic found => s!"bad table magic {hexWord found}"
  | metaOffset offset metaEnd => s!"invalid block meta offset {offset} (meta end {metaEnd})"
  | checksum => "meta checksum mismatched"
  | index fault => fault.message
  | blockOffset offset => s!"block offset {offset} out of order"

/-- Why a file cannot be opened as a table. -/
inductive OpenFault where
  /-- The file itself cannot be opened. -/
  | file (path : String) (fault : IoFault)
  /-- The file is not a table. -/
  | table (path : String) (fault : TableFault)
deriving DecidableEq

/-- The wording of a fault. -/
def OpenFault.message : OpenFault → String
  | file path fault => s!"failed to open table file {path}: {fault.message}"
  | table path fault => s!"invalid table file {path}: {fault.message}"

/-- Why a block of a table cannot be read. -/
inductive BlockReadFault where
  /-- The table has no such block. -/
  | outOfRange (index : Nat)
  /-- The file cannot be read there. -/
  | io (fault : IoFault)
  /-- The stored bytes do not have the checksum behind them. -/
  | checksum (index : Nat)
  /-- The stored bytes are not a block. -/
  | corrupted (index : Nat) (fault : BlockFault)
deriving DecidableEq

/-- The wording of a fault. -/
def BlockReadFault.message : BlockReadFault → String
  | outOfRange index => s!"block {index} out of range"
  | io fault => fault.message
  | checksum index => s!"block {index} checksum mismatched"
  | corrupted index fault => s!"corrupted block {index}: {fault.message}"

/-- What the index and the footer of a file say. -/
structure Layout where
  /-- What the index says about each block. -/
  blocks : List BlockMeta
  /-- Where the index starts. -/
  metaOffset : Nat
  /-- What the footer says about the entries. -/
  properties : Properties
deriving DecidableEq

namespace Layout

/-- The length of the checksum behind a block. -/
def checksumSize : Nat := 4

/-- Whether every block starts behind the one before it, which ends at `start` or later, and has room
for its checksum before the index: otherwise the offset of the first that does not. -/
def checkOffsets (metaOffset : Nat) : Nat → List BlockMeta → Except TableFault Unit
  | _, [] => .ok ()
  | start, block :: later =>
    if start ≤ block.offset ∧ block.offset + checksumSize ≤ metaOffset then
      checkOffsets metaOffset (block.offset + checksumSize) later
    else
      .error (.blockOffset block.offset)

/-- Reads the index in front of a footer, given where the footer starts. -/
def decodeIndex (file : Bytes) (metaEnd : Nat) (footer : Bytes) : Except TableFault Layout :=
  let metaOffset := Footer.metaOffset footer
  let index := (file.drop metaOffset).take (metaEnd - metaOffset)
  if metaEnd < metaOffset then
    .error (.metaOffset metaOffset metaEnd)
  else if Footer.checksum index (Footer.head footer) ≠ Footer.statedChecksum footer then
    .error .checksum
  else
    match BlockMeta.decodeIndex index with
    | .error fault => .error (.index fault)
    | .ok blocks =>
      match checkOffsets metaOffset 0 blocks with
      | .error fault => .error fault
      | .ok () => .ok ⟨blocks, metaOffset, Footer.properties footer⟩

/-- Reads the footer and the index of a file. -/
def ofFile (file : Bytes) : Except TableFault Layout :=
  let metaEnd := file.length - Footer.size
  let footer := file.drop metaEnd
  if file.length < Footer.size then
    .error (.tooSmall file.length)
  else if Footer.statedMagic footer ≠ Footer.magic then
    .error (.badMagic (Footer.statedMagic footer))
  else
    decodeIndex file metaEnd footer

/-- Where the stored bytes of a block end: where the next block or the index starts. -/
def blockEnd (layout : Layout) (index : Nat) : Nat :=
  (layout.blocks[index + 1]?.map BlockMeta.offset).getD layout.metaOffset

end Layout

/-- Reads a block behind which its checksum is stored. -/
def Block.decodeStored (index : Nat) (stored : Bytes) : Except BlockReadFault (List Entry) :=
  let bytes := stored.take (stored.length - Layout.checksumSize)
  let stated := stored.drop (stored.length - Layout.checksumSize)
  if (Crc32.checksum bytes).toNat ≠ Bytes.ofBigEndian stated then
    .error (.checksum index)
  else
    match Block.decode bytes with
    | .error fault => .error (.corrupted index fault)
    | .ok block => .ok block.entries

/-- An open table. -/
structure Table extends Layout where
  /-- The path it was opened or written under. -/
  path : String
  /-- The file. -/
  file : FileId
  /-- The length of the file when it was opened. -/
  size : Nat
  /-- The first key of the table. -/
  firstKey : Key
  /-- The last key of the table. -/
  lastKey : Key
deriving DecidableEq

namespace Table

/-- Opens a file as a table. -/
def openFile (disk : Disk) (path : String) (file : FileId) : Except TableFault Table :=
  let bytes := disk.content file
  match Layout.ofFile bytes with
  | .error fault => .error fault
  | .ok layout =>
    .ok
      { layout with
        path, file
        size := bytes.length
        firstKey := (layout.blocks.head?.map BlockMeta.firstKey).getD .empty
        lastKey := (layout.blocks.getLast?.map BlockMeta.lastKey).getD .empty }

/-- Opens the table that a path stands for. -/
def openPath (disk : Disk) (path : String) : Except OpenFault Table :=
  match disk.find path with
  | .error fault => .error (.file path fault)
  | .ok file =>
    match openFile disk path file with
    | .error fault => .error (.table path fault)
    | .ok table => .ok table

/-- The number of blocks. -/
def blockCount (table : Table) : Nat :=
  table.blocks.length

/-- The block that may hold a key. -/
def findBlock (table : Table) (key : Key) : Nat :=
  BlockMeta.findBlock table.blocks key

/-- Reads the entries of a block from the file. -/
def readBlock (table : Table) (disk : Disk) (index : Nat) :
    Except BlockReadFault (List Entry) :=
  match table.blocks[index]? with
  | none => .error (.outOfRange index)
  | some block =>
    match disk.readRange table.file block.offset (table.blockEnd index - block.offset) with
    | .error fault => .error (.io fault)
    | .ok stored => Block.decodeStored index stored

/-- A block that was read has fewer than 65536 entries. -/
theorem length_of_readBlock {disk : Disk} {table : Table} {index : Nat} {entries : List Entry}
    (found : table.readBlock disk index = .ok entries) : entries.length < 65536 := by
  unfold readBlock Block.decodeStored at found
  split at found
  · cases found
  · split at found
    · cases found
    · dsimp only at found
      split at found
      · cases found
      · split at found
        · cases found
        · next decoded =>
          cases found
          exact Block.length_entries_of_decode decoded

end Table

end SortedTables
