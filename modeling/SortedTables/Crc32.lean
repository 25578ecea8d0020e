import SortedTables.Bytes

/-!
# The cyclic redundancy check of blocks and indexes

CRC-32 with the reflected polynomial of IEEE 802.3, one bit at a time: the register starts with all
bits set, takes the bytes in order, and is complemented at the end. `feed_append` lets a checksum be
taken over pieces.
-/

namespace SortedTables.Crc32

/-- The reflected polynomial, without its highest term. -/
def polynomial : UInt32 := 0xEDB88320

/-- Divides out one bit of the register. -/
def shift (register : UInt32) : UInt32 :=
  if register &&& 1 = 1 then (register >>> 1) ^^^ polynomial else register >>> 1

/-- Takes one byte into the register, its lowest bit first. -/
def feedByte (register : UInt32) (byte : UInt8) : UInt32 :=
  let mixed := register ^^^ byte.toUInt32
  shift (shift (shift (shift (shift (shift (shift (shift mixed)))))))

/-- Takes a byte string into the register. -/
def feed (register : UInt32) (bytes : Bytes) : UInt32 :=
  bytes.foldl feedByte register

/-- The checksum of a byte string. -/
def checksum (bytes : Bytes) : UInt32 :=
  ~~~(feed 0xFFFFFFFF bytes)

-- The check value of the standard: the checksum of the nine ASCII digits from 1.
example :
    checksum [0x31, 0x32, 0x33, 0x34, 0x35, 0x36, 0x37, 0x38, 0x39] = 0xCBF43926 := by
  decide +kernel

theorem feed_append (register : UInt32) (left right : Bytes) :
    feed register (left ++ right) = feed (feed register left) right :=
  List.foldl_append

end SortedTables.Crc32
