import SortedTables.Key

/-!
# The index of a table

Behind its blocks a table stores, for each block, where it starts and its first and last key. The
numbers of the index have their most significant byte first. `BlockMeta.decodeIndex` accepts a byte
string only if it is used up exactly.
-/

namespace SortedTables

/-- What the index says about a block. -/
structure BlockMeta where
  /-- Where the block starts in the file. -/
  offset : Nat
  /-- The first key of the block. -/
  firstKey : Key
  /-- The last key of the block. -/
  lastKey : Key
deriving DecidableEq

/-- What is missing from the description of a block. -/
inductive MetaFault where
  /-- The fixed part is cut off. -/
  | truncated
  /-- The length of a key is cut off. -/
  | keyLengthTruncated
  /-- A key is cut off. -/
  | keyTruncated
deriving DecidableEq

/-- Why a byte string is not an index. -/
inductive IndexFault where
  /-- The number of blocks is cut off. -/
  | truncated
  /-- The description of a block is cut off. -/
  | block (index : Nat) (fault : MetaFault)
  /-- Bytes are left over. -/
  | trailingBytes
deriving DecidableEq

/-- The wording of a fault. -/
def IndexFault.message : IndexFault → String
  | truncated => "block meta truncated"
  | block index .truncated => s!"block meta {index} truncated"
  | block index .keyLengthTruncated => s!"block meta {index}: key length truncated"
  | block index .keyTruncated => s!"block meta {index}: key truncated"
  | trailingBytes => "trailing bytes after block meta"

namespace BlockMeta

/-- A key behind its length in two bytes. -/
def encodeKey (key : Key) : Bytes :=
  Bytes.bigEndian 2 key.size ++ key.bytes

/-- The description of a block. -/
def encode (block : BlockMeta) : Bytes :=
  Bytes.bigEndian 4 block.offset ++ encodeKey block.firstKey ++ encodeKey block.lastKey

/-- The index of a list of blocks. Offsets and lengths are reduced to the bytes they have. -/
def encodeIndex (blocks : List BlockMeta) : Bytes :=
  Bytes.bigEndian 4 blocks.length ++ blocks.flatMap encode

/-- The index of a list of blocks, if the offsets fit their four bytes. -/
def encodeIndex? (blocks : List BlockMeta) : Option Bytes :=
  if blocks.all (·.offset < UInt32.size) then some (encodeIndex blocks) else none

/-- Reads a key behind its length. -/
def decodeKey (bytes : Bytes) : Except MetaFault (Key × Bytes) :=
  match Bytes.cut? 2 bytes with
  | none => .error .keyLengthTruncated
  | some (length, rest) =>
    match Bytes.cut? (Bytes.ofBigEndian length) rest with
    | none => .error .keyTruncated
    | some (key, rest) => .ok (⟨key⟩, rest)

/-- Reads the description of a block. Its fixed part is the offset and the length of the first key;
only the offset is taken off here. -/
def decode (bytes : Bytes) : Except MetaFault (BlockMeta × Bytes) :=
  match Bytes.cut? 6 bytes with
  | none => .error .truncated
  | some _ => do
    let (firstKey, rest) ← decodeKey (bytes.drop 4)
    let (lastKey, rest) ← decodeKey rest
    return (⟨Bytes.ofBigEndian (bytes.take 4), firstKey, lastKey⟩, rest)

/-- Reads the descriptions of a given number of blocks behind those read already, which are given
the last one first. -/
def decodeMany (bytes : Bytes) (read : List BlockMeta) : Nat → Except IndexFault (List BlockMeta)
  | 0 => if bytes = [] then .ok read.reverse else .error .trailingBytes
  | count + 1 =>
    match decode bytes with
    | .error fault => .error (.block read.length fault)
    | .ok (block, rest) => decodeMany rest (block :: read) count

/-- Reads an index. -/
def decodeIndex (bytes : Bytes) : Except IndexFault (List BlockMeta) :=
  match Bytes.cut? 4 bytes with
  | none => .error .truncated
  | some (count, rest) => decodeMany rest [] (Bytes.ofBigEndian count)

/-- The place behind the last block that a test holds of, found by halving an interval of candidates
that starts with `base`. For a test that holds of the first blocks only, that is their number. -/
def countHolding (holds : Nat → Bool) (base size : Nat) : Nat :=
  if 1 < size then
    let half := size / 2
    if holds (base + half) then countHolding holds (base + half) (size - half)
    else countHolding holds base (size - half)
  else if holds base then base + 1 else base
termination_by size

/-- The block that may hold a key: the last one whose first key is not above it, or the first block
when all are. -/
def findBlock (blocks : List BlockMeta) (key : Key) : Nat :=
  let holds index := blocks[index]?.any (·.firstKey ≤ key)
  countHolding holds 0 blocks.length - 1

end BlockMeta

end SortedTables
