import SortedTables.ByteStore
import SortedTables.Entry

/-!
# The format of a block

A block is the smallest piece of a table that is read at once. It holds the records of its entries,
then the position of each record, then their number, positions and number in two bytes each. The
first record stores its key in full; each later one stores how many bytes its key shares with the
first key, and the bytes after those.

`Block.ofEntries` lays entries out, `Block.decode` accepts a byte string only if every position
leads to a whole record, and `Block.entries` reads the entries of a block. The positions need not
be ordered, and records may overlap.
-/

namespace SortedTables

/-- How a record stores its key. -/
inductive StoredKey where
  /-- The bytes of the key. -/
  | whole (bytes : Bytes)
  /-- How many bytes the key has in common with the first key of the block, and the rest of it. -/
  | sharing (count : Nat) (rest : Bytes)
deriving DecidableEq

namespace StoredKey

/-- How a key is stored in a block whose first key is given, if it has one already. -/
def ofKey : Option Key → Key → StoredKey
  | none, key => whole key.bytes
  | some first, key =>
    let count := first.sharedLength key
    sharing count (key.bytes.drop count)

/-- The key that is stored, given the first key of the block. -/
def key (first : Key) : StoredKey → Key
  | whole bytes => ⟨bytes⟩
  | sharing count rest => ⟨first.bytes.take count ++ rest⟩

/-- The stored form of the key, without the length that goes before it. -/
def body : StoredKey → Bytes
  | whole bytes => bytes
  | sharing count rest => Bytes.littleEndian 2 count ++ Bytes.littleEndian 2 rest.length ++ rest

/-- The length of the stored form. -/
def bodyLength : StoredKey → Nat
  | whole bytes => bytes.length
  | sharing _ rest => 4 + rest.length

end StoredKey

/-- Why there is no whole record at a position. -/
inductive RecordFault where
  /-- The position lies behind the records. -/
  | outOfBlock (offset : Nat)
  /-- The length of the key is cut off. -/
  | truncated
  /-- The key is cut off. -/
  | keyTruncated
  /-- A later key is too short to say what it shares. -/
  | shortKeyHeader
  /-- A later key shares more than the first key has, or its lengths disagree. -/
  | invalidSharing (count rest : Nat)
  /-- The sequence number, the kind or the length of the value is cut off. -/
  | headerTruncated
  /-- The kind is neither a write nor a tombstone. -/
  | unknownKind (byte : UInt8)
  /-- The value is cut off. -/
  | valueTruncated
deriving DecidableEq

/-- Why a byte string is not a block. -/
inductive BlockFault where
  /-- There is no room for the number of records. -/
  | tooSmall (length : Nat)
  /-- There is no room for that many positions. -/
  | positionsOverflow (count : Nat)
  /-- One of the positions leads to no whole record. -/
  | entry (index : Nat) (fault : RecordFault)
deriving DecidableEq

/-- The wording of a fault of the record at an index. -/
def RecordFault.message (index : Nat) : RecordFault → String
  | outOfBlock offset => s!"entry {index} offset {offset} out of block"
  | truncated => s!"entry {index} truncated"
  | keyTruncated => s!"entry {index} key truncated"
  | shortKeyHeader => s!"entry {index} has a short prefix header"
  | invalidSharing count rest => s!"entry {index} has an invalid key prefix ({count}, {rest})"
  | headerTruncated => s!"entry {index} header truncated"
  | unknownKind byte => s!"entry {index} has unknown kind {byte.toNat}"
  | valueTruncated => s!"entry {index} value truncated"

/-- The wording of a fault. -/
def BlockFault.message : BlockFault → String
  | tooSmall length => s!"block too small: {length} bytes"
  | positionsOverflow count => s!"block offset array overflows block ({count} entries)"
  | entry index fault => fault.message index

/-- The records of a block and where each of them starts. -/
structure Block where
  /-- The records. -/
  records : Bytes
  /-- The position of each record. -/
  positions : List UInt16
deriving DecidableEq

namespace Block

/-- The part of a record behind its key: sequence number, kind, and the value after its length. -/
def encodeTail (entry : Entry) : Bytes :=
  Bytes.littleEndian 8 entry.seq.toNat ++ entry.kind.toByte ::
    (Bytes.littleEndian 2 entry.value.length ++ entry.value)

/-- The record of an entry in a block whose first key is given, if it has one already. -/
def encodeRecord (first? : Option Key) (entry : Entry) : Bytes :=
  let stored := StoredKey.ofKey first? entry.key
  Bytes.littleEndian 2 stored.bodyLength ++ stored.body ++ encodeTail entry

/-- The length of the record of an entry. -/
def recordLength (first? : Option Key) (entry : Entry) : Nat :=
  2 + (StoredKey.ofKey first? entry.key).bodyLength + 8 + 1 + 2 + entry.value.length

/-- The records of entries, given the first key of the block: only the first record is stored
without it. -/
def recordsOf : List Entry → List Bytes
  | [] => []
  | first :: later =>
    encodeRecord none first :: later.map (encodeRecord (some first.key))

/-- Where each piece starts when pieces are put one behind the other from a position on. -/
def positionsFrom (start : Nat) : List Bytes → List UInt16
  | [] => []
  | piece :: rest => UInt16.ofNat start :: positionsFrom (start + piece.length) rest

/-- The block with the given entries, in their order. -/
def ofEntries (entries : List Entry) : Block where
  records := (recordsOf entries).flatten
  positions := positionsFrom 0 (recordsOf entries)

/-- The stored form of a block. -/
def encode (block : Block) : Bytes :=
  block.records ++ block.positions.flatMap (fun position => Bytes.littleEndian 2 position.toNat) ++
    Bytes.littleEndian 2 block.positions.length

/-- Reads a stored key of a given length. The first key of the block is whole; a later one shares
no more bytes than the first one has, and its two lengths account for all of it. -/
def decodeKey (first? : Option Key) (body : Bytes) : Except RecordFault StoredKey :=
  match first? with
  | none => .ok (.whole body)
  | some first =>
    match Bytes.cut? 4 body with
    | none => .error .shortKeyHeader
    | some (header, rest) =>
      let count := Bytes.ofLittleEndian (header.take 2)
      let restLength := Bytes.ofLittleEndian (header.drop 2)
      if count ≤ first.size ∧ restLength = rest.length then
        .ok (.sharing count rest)
      else
        .error (.invalidSharing count restLength)

/-- Reads the part of a record behind its key. -/
def decodeTail (key : Key) (bytes : Bytes) : Except RecordFault Entry :=
  match Bytes.cut? 11 bytes with
  | none => .error .headerTruncated
  | some (header, rest) =>
    let kindByte := (header.drop 8).headD 0
    match EntryKind.ofByte? kindByte with
    | none => .error (.unknownKind kindByte)
    | some kind =>
      match Bytes.cut? (Bytes.ofLittleEndian (header.drop 9)) rest with
      | none => .error .valueTruncated
      | some (value, _) =>
        .ok ⟨key, UInt64.ofNat (Bytes.ofLittleEndian (header.take 8)), kind, value⟩

/-- Reads the entry whose record starts a byte string. -/
def decodeRecord (first? : Option Key) (bytes : Bytes) : Except RecordFault Entry :=
  match Bytes.cut? 2 bytes with
  | none => .error .truncated
  | some (length, rest) =>
    match Bytes.cut? (Bytes.ofLittleEndian length) rest with
    | none => .error .keyTruncated
    | some (body, rest) =>
      match decodeKey first? body with
      | .error fault => .error fault
      | .ok stored => decodeTail (stored.key (first?.getD .empty)) rest

/-- Reads the entry at a position among records. Only where nothing follows the position can it lie
behind the records. -/
def decodeAt (records : ByteStore) (first? : Option Key) (position : UInt16) :
    Except RecordFault Entry :=
  let rest := records.startingAt position.toNat
  if rest.isEmpty && records.bytes.length < position.toNat then
    .error (.outOfBlock position.toNat)
  else
    decodeRecord first? rest

/-- Reads the entries of a block in the order of the positions, the first fault winning. -/
def read (block : Block) : Except BlockFault (List Entry) :=
  let records := ByteStore.ofBytes block.records
  match block.positions with
  | [] => .ok []
  | position :: later =>
    match decodeAt records none position with
    | .error fault => .error (.entry 0 fault)
    | .ok first => do
      let rest ← (later.zipIdx 1).mapM fun (position, index) =>
        (decodeAt records (some first.key) position).mapError (.entry index)
      return first :: rest

/-- The entries of a block that was laid out from entries or accepted by `decode`. -/
def entries (block : Block) : List Entry :=
  match block.read with
  | .ok entries => entries
  | .error _ => []

/-- Pairs of bytes as numbers. -/
def decodePositions : Bytes → List UInt16
  | low :: high :: rest =>
    UInt16.ofNat (Bytes.ofLittleEndian [low, high]) :: decodePositions rest
  | _ => []

/-- Splits a byte string into records and positions. -/
def split (bytes : Bytes) : Except BlockFault Block :=
  if bytes.length < 2 then
    .error (.tooSmall bytes.length)
  else
    let count := Bytes.ofLittleEndian (bytes.drop (bytes.length - 2))
    if bytes.length - 2 < 2 * count then
      .error (.positionsOverflow count)
    else
      let start := bytes.length - 2 - 2 * count
      .ok ⟨bytes.take start, decodePositions ((bytes.drop start).take (2 * count))⟩

/-- The block with the given stored form, if every position leads to a whole record. -/
def decode (bytes : Bytes) : Except BlockFault Block :=
  match split bytes with
  | .error fault => .error fault
  | .ok block =>
    match block.read with
    | .error fault => .error fault
    | .ok _ => .ok block

/-! ## How many entries a block can have -/

theorem length_decodePositions (bytes : Bytes) :
    (decodePositions bytes).length = bytes.length / 2 := by
  fun_induction decodePositions bytes with
  | case1 low high rest ih =>
    simp only [List.length_cons, ih]
    omega
  | case2 bytes short =>
    match bytes, short with
    | [], _ => rfl
    | [_], _ => simp
    | low :: high :: rest, short => exact absurd rfl (short low high rest)

/-- The number of positions is stored in two bytes. -/
theorem length_positions_of_split {bytes : Bytes} {block : Block} (accepted : split bytes = .ok block) :
    block.positions.length < 65536 := by
  have bounded (count : Bytes) (pair : count.length = 2) : Bytes.ofLittleEndian count < 65536 :=
    Nat.lt_of_lt_of_eq (Bytes.ofLittleEndian_lt count) (congrArg Bytes.capacity pair)
  simp only [split] at accepted
  split at accepted
  · cases accepted
  · split at accepted
    · cases accepted
    · cases accepted
      have count := bounded (bytes.drop (bytes.length - 2)) (by simp; omega)
      simp only [length_decodePositions, List.length_take]
      omega

private theorem length_of_mapM {α β ε : Type} (f : α → Except ε β) (xs : List α) (ys : List β)
    (mapped : xs.mapM f = .ok ys) : ys.length = xs.length := by
  induction xs generalizing ys with
  | nil =>
    simp only [List.mapM_nil, pure, Except.pure, Except.ok.injEq] at mapped
    simp [← mapped]
  | cons x xs ih =>
    rw [List.mapM_cons] at mapped
    cases head : f x with
    | error _ => simp [head, bind, Except.bind] at mapped
    | ok y =>
      cases tail : xs.mapM f with
      | error _ => simp [head, tail, bind, Except.bind] at mapped
      | ok zs =>
        simp only [head, tail, bind, Except.bind, pure, Except.pure, Except.ok.injEq] at mapped
        simp [← mapped, ih zs tail]

/-- Every position gives one entry. -/
theorem length_of_read {block : Block} {entries : List Entry} (accepted : block.read = .ok entries) :
    entries.length = block.positions.length := by
  unfold read at accepted
  dsimp only at accepted
  split at accepted
  · next none => cases accepted; simp [none]
  · next position later positions =>
    split at accepted
    · cases accepted
    · next first _ =>
      simp only [bind, Except.bind] at accepted
      split at accepted
      · cases accepted
      · next rest mapped =>
        simp only [pure, Except.pure, Except.ok.injEq] at accepted
        have length := length_of_mapM _ _ _ mapped
        simp [← accepted, positions, length]

/-- A block that was accepted has fewer than 65536 entries. -/
theorem length_entries_of_decode {bytes : Bytes} {block : Block} (accepted : decode bytes = .ok block) :
    block.entries.length < 65536 := by
  unfold decode at accepted
  split at accepted
  · cases accepted
  · next splitted =>
    split at accepted
    · cases accepted
    · next stored reading =>
      cases accepted
      have same : block.entries = stored := by simp [entries, reading]
      rw [same, length_of_read reading]
      exact length_positions_of_split splitted

end Block

end SortedTables
