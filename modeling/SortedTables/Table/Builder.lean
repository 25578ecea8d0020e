import SortedTables.Block.Builder
import SortedTables.Table.Basic

/-!
# Writing a table

Entries are added in strictly ascending key order. They go to the current block; an entry that the
block has no room for closes it and starts the next one. Building closes the last block and writes
blocks, index and footer to a file.

A refused entry leaves a builder to go on with. The one trace it can leave is the first key: an entry
that is refused for its size while the table is still empty has already been noted as the first.
-/

namespace SortedTables

/-- Why a table cannot be written. -/
inductive BuildFault where
  /-- The index would start at an offset that the footer cannot state. -/
  | tooLarge (size : Nat)
  /-- The file cannot be written. -/
  | io (fault : IoFault)
deriving DecidableEq

/-- The wording of a fault. -/
def BuildFault.message : BuildFault → String
  | tooLarge size => s!"table too large: data section {size} bytes"
  | io fault => fault.message

/-- A table that is being written. -/
structure TableBuilder where
  /-- The block that entries go to now. -/
  block : BlockBuilder
  /-- The first key, empty at the start. -/
  firstKey : Key
  /-- The key of the last entry, empty at the start. -/
  lastKey : Key
  /-- The closed blocks with their stored bytes, checksums included, the last one first. -/
  closed : List (BlockMeta × Bytes)
  /-- The length of the closed blocks. -/
  closedLength : Nat
  /-- The properties of the entries so far. -/
  properties : Properties
deriving DecidableEq

namespace TableBuilder

/-- A table without entries whose blocks keep within a size. -/
def ofBlockSize (blockSize : Nat) : TableBuilder where
  block := .ofLimit blockSize
  firstKey := .empty
  lastKey := .empty
  closed := []
  closedLength := 0
  properties := .empty

/-- The length of the closed blocks, which is what the table has grown to. -/
def estimatedSize (builder : TableBuilder) : Nat :=
  builder.closedLength

/-- Closes the current block and starts the next one. -/
def closeBlock (builder : TableBuilder) : TableBuilder :=
  let bytes := builder.block.build.encode
  let stored := bytes ++ Bytes.bigEndian 4 (Crc32.checksum bytes).toNat
  let description : BlockMeta := {
    offset := builder.closedLength
    firstKey := builder.block.firstKey?.getD .empty
    lastKey := builder.lastKey }
  { builder with
    block := .ofLimit builder.block.sizeLimit
    closed := (description, stored) :: builder.closed
    closedLength := builder.closedLength + stored.length }

/-- Adds an entry that the current block has taken, giving the block after it. -/
def accept (builder : TableBuilder) (entry : Entry) (block : BlockBuilder) : TableBuilder :=
  { builder with
    block
    lastKey := entry.key
    properties := builder.properties.record entry }

/-- Adds an entry to the current block or, when that is full, to the next one. -/
def store (builder : TableBuilder) (entry : Entry) : Step TableBuilder Refusal :=
  let added := builder.block.add entry
  match added.fault with
  | none => .done (builder.accept entry added.state)
  | some .full =>
    let next := { builder with block := added.state }.closeBlock
    let again := next.block.add entry
    match again.fault with
    | none => .done (next.accept entry again.state)
    | some refusal => .failed { next with block := again.state } refusal.inTable
  | some refusal => .failed { builder with block := added.state } refusal.inTable

/-- Adds an entry behind all others. -/
def add (builder : TableBuilder) (entry : Entry) : Step TableBuilder Refusal :=
  if builder.properties.entries = 0 then
    store { builder with firstKey := entry.key } entry
  else if builder.lastKey < entry.key then
    builder.store entry
  else
    .failed builder .keysNotAscending

/-- Adds a write of a key. -/
def put (builder : TableBuilder) (key : Key) (seq : UInt64) (value : Bytes) :
    Step TableBuilder Refusal :=
  builder.add ⟨key, seq, .put, value⟩

/-- Adds a tombstone for a key. -/
def delete (builder : TableBuilder) (key : Key) (seq : UInt64) : Step TableBuilder Refusal :=
  builder.add ⟨key, seq, .delete, []⟩

/-- The builder with its last block closed. -/
def finish (builder : TableBuilder) : TableBuilder :=
  if builder.block.isEmpty then builder else builder.closeBlock

/-- The blocks of a finished builder in order. -/
def blocks (builder : TableBuilder) : List BlockMeta :=
  (builder.closed.map Prod.fst).reverse

/-- The bytes of a finished builder's blocks in order. -/
def data (builder : TableBuilder) : Bytes :=
  (builder.closed.map Prod.snd).reverse.flatten

/-- The file of a finished builder. The offsets of its blocks fit the index, because they are not
above the offset of the index. -/
def image (builder : TableBuilder) : Bytes :=
  let index := BlockMeta.encodeIndex builder.blocks
  builder.data ++ index ++ Footer.encode index builder.closedLength builder.properties

/-- Writes the table to a file. -/
def build (builder : TableBuilder) (disk : Disk) (path : String) :
    Except BuildFault (Table × Disk) :=
  let finished := builder.finish
  if UInt32.size ≤ finished.closedLength then
    .error (.tooLarge finished.closedLength)
  else
    match disk.write path finished.image with
    | .error fault => .error (.io fault)
    | .ok (disk, file) =>
      .ok ({
        path, file
        size := finished.image.length
        blocks := finished.blocks
        metaOffset := finished.closedLength
        firstKey := finished.firstKey
        lastKey := finished.lastKey
        properties := finished.properties }, disk)

end TableBuilder

end SortedTables
