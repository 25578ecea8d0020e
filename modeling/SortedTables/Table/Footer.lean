import SortedTables.Crc32
import SortedTables.Entry
import SortedTables.Table.Index

/-!
# The footer of a table

A table file ends with 36 bytes: where the index starts, how many entries and tombstones the table
holds, its largest sequence number, a checksum, and a number that marks the file as a table. The
checksum covers the index and the footer before it, so it is the last thing written.
-/

namespace SortedTables

/-- What the writer of a table recorded about its entries. -/
structure Properties where
  /-- The number of entries, tombstones included. -/
  entries : Nat
  /-- The number of tombstones. -/
  tombstones : Nat
  /-- The largest sequence number. -/
  maxSeq : UInt64
deriving DecidableEq

namespace Properties

/-- The properties of a table without entries. -/
def empty : Properties := ⟨0, 0, 0⟩

/-- The properties after one more entry. -/
def record (properties : Properties) (entry : Entry) : Properties where
  entries := properties.entries + 1
  tombstones := if entry.isTombstone then properties.tombstones + 1 else properties.tombstones
  maxSeq := if properties.maxSeq < entry.seq then entry.seq else properties.maxSeq

end Properties

namespace Footer

/-- The number that marks a file as a table. -/
def magic : Nat := 0x53535446

/-- The length of a footer. -/
def size : Nat := 36

/-- The footer up to its checksum. -/
def encodeHead (metaOffset : Nat) (properties : Properties) : Bytes :=
  Bytes.littleEndian 4 metaOffset ++ Bytes.littleEndian 8 properties.entries ++
    Bytes.littleEndian 8 properties.tombstones ++ Bytes.littleEndian 8 properties.maxSeq.toNat

/-- The checksum over an index and the head of a footer. -/
def checksum (index head : Bytes) : Nat :=
  (Crc32.checksum (index ++ head)).toNat

/-- The footer of a table with the given stored index. -/
def encode (index : Bytes) (metaOffset : Nat) (properties : Properties) : Bytes :=
  let head := encodeHead metaOffset properties
  head ++ Bytes.bigEndian 4 (checksum index head) ++ Bytes.bigEndian 4 magic

/-- The offset in the head of a footer. -/
def metaOffset (footer : Bytes) : Nat :=
  Bytes.ofLittleEndian (footer.take 4)

/-- The properties in the head of a footer. -/
def properties (footer : Bytes) : Properties where
  entries := Bytes.ofLittleEndian ((footer.drop 4).take 8)
  tombstones := Bytes.ofLittleEndian ((footer.drop 12).take 8)
  maxSeq := UInt64.ofNat (Bytes.ofLittleEndian ((footer.drop 20).take 8))

/-- The head of a footer. -/
def head (footer : Bytes) : Bytes :=
  footer.take 28

/-- The checksum that a footer states. -/
def statedChecksum (footer : Bytes) : Nat :=
  Bytes.ofBigEndian ((footer.drop 28).take 4)

/-- The number that a footer ends with. -/
def statedMagic (footer : Bytes) : Nat :=
  Bytes.ofBigEndian (footer.drop 32)

end Footer

end SortedTables
