import Mathlib.Data.List.Induction
import SortedTables.Proofs.Block.RoundTrip
import SortedTables.Proofs.Order
import SortedTables.Table.Builder

/-!
# What a table builder has taken in

A block builder keeps the limits of a block at every step, so the block it ends with reads back. A
table builder deals the added entries out to blocks, in order and none of them empty. `Filled` states
that as an invariant of the builder, with the index that belongs to those blocks; adding entries
one after the other keeps it.
-/

namespace SortedTables

namespace Block

/-- One more entry has its record behind the others. The first key is that of the first entry. -/
theorem recordsOf_append (entries : List Entry) (entry : Entry) :
    recordsOf (entries ++ [entry]) =
      recordsOf entries ++ [encodeRecord (entries.head?.map Entry.key) entry] := by
  cases entries <;> simp [recordsOf]

/-- One more piece is addressable if the pieces before it end where a position can say. -/
theorem Addressable.append {start : Nat} {pieces : List Bytes}
    (addressable : Addressable start pieces) (piece : Bytes)
    (room : start + pieces.flatten.length < 65536) : Addressable start (pieces ++ [piece]) := by
  induction pieces generalizing start with
  | nil => exact ⟨room, trivial⟩
  | cons first later ih =>
    obtain ⟨starts, addressable⟩ := addressable
    rw [List.flatten_cons, List.length_append, ← Nat.add_assoc] at room
    exact ⟨starts, ih addressable room⟩

end Block

namespace BlockBuilder

/-- What holds of a block builder at every step: its entries can be stored, and it counts the bytes
of their records. -/
structure Filled (builder : BlockBuilder) : Prop where
  /-- The entries can be stored. -/
  storable : Block.Storable builder.entries
  /-- The bytes of the records are counted. -/
  recordsLength : builder.recordsLength = (Block.recordsOf builder.entries).flatten.length

/-- An empty block is filled with nothing. -/
theorem filled_ofLimit (sizeLimit : Nat) : (ofLimit sizeLimit).Filled :=
  ⟨⟨by simp [ofLimit, entries], trivial⟩, rfl⟩

/-- A builder is empty exactly if it has no entries. -/
theorem isEmpty_iff (builder : BlockBuilder) : builder.isEmpty = true ↔ builder.entries = [] := by
  simp [isEmpty, entries]

/-- The first key is that of the first entry. -/
theorem firstKey?_eq (builder : BlockBuilder) :
    builder.firstKey? = builder.entries.head?.map Entry.key := by
  simp [firstKey?, entries]

/-- An entry that fits a record is taken if there is room. -/
theorem add_of_fits {entry : Entry} (builder : BlockBuilder) (fits : entry.Fits) :
    builder.add entry =
      if builder.hasRoom entry then .done (builder.taking entry) else .failed builder .full := by
  rw [add, if_neg (Nat.not_lt_of_le fits.key), if_neg (Nat.not_lt_of_le fits.value)]

/-- An entry that does not fit a record is refused, and not for want of room. -/
theorem exists_refusal {entry : Entry} (builder : BlockBuilder) (tooLong : ¬entry.Fits) :
    ∃ refusal, refusal ≠ .full ∧ builder.add entry = .failed builder refusal := by
  unfold add
  split
  · exact ⟨.keyTooLarge, nofun, rfl⟩
  · next keyFits =>
    split
    · exact ⟨.valueTooLarge, nofun, rfl⟩
    · next valueFits =>
      exact absurd ⟨Nat.le_of_not_lt keyFits, Nat.le_of_not_lt valueFits⟩ tooLong

/-- What adding does: the entry is taken, or the builder stays as it is because the block is full or
because no block could take the entry. -/
theorem add_cases (builder : BlockBuilder) (entry : Entry) :
    (entry.Fits ∧ builder.hasRoom entry = true ∧
        builder.add entry = .done (builder.taking entry)) ∨
      (entry.Fits ∧ builder.hasRoom entry = false ∧ builder.add entry = .failed builder .full) ∨
      (¬ entry.Fits ∧ ∃ refusal, refusal ≠ .full ∧ builder.add entry = .failed builder refusal) := by
  by_cases fits : entry.Fits
  · rw [add_of_fits builder fits]
    cases room : builder.hasRoom entry with
    | true => exact .inl ⟨fits, rfl, rfl⟩
    | false => exact .inr (.inl ⟨fits, rfl, rfl⟩)
  · exact .inr (.inr ⟨fits, exists_refusal builder fits⟩)

/-- An entry that is taken stands behind the others, and the limits of the block are kept. -/
theorem filled_taking {builder : BlockBuilder} {entry : Entry} (filled : builder.Filled)
    (fits : entry.Fits) (room : builder.hasRoom entry = true) :
    (builder.taking entry).Filled ∧
      (builder.taking entry).entries = builder.entries ++ [entry] ∧
      (builder.taking entry).sizeLimit = builder.sizeLimit := by
  have appended : (builder.taking entry).entries = builder.entries ++ [entry] := by
    simp [taking, entries]
  have records := Block.recordsOf_append builder.entries entry
  refine ⟨⟨⟨?_, ?_⟩, ?_⟩, appended, rfl⟩
  · rw [appended]
    exact List.forall_mem_append.mpr
      ⟨filled.storable.fits, List.forall_mem_singleton.mpr fits⟩
  · simp only [hasRoom, Bool.and_eq_true, decide_eq_true_eq] at room
    rw [appended, records]
    apply filled.storable.addressable.append _
    rw [Nat.zero_add, ← filled.recordsLength]
    omega
  · rw [appended, records, taking, firstKey?_eq, filled.recordsLength]
    simp [Block.length_encodeRecord]

/-- An empty block never lacks room. -/
theorem hasRoom_of_isEmpty {builder : BlockBuilder} (filled : builder.Filled)
    (empty : builder.isEmpty = true) (entry : Entry) : builder.hasRoom entry = true := by
  have noRecords : builder.recordsLength = 0 := by
    rw [filled.recordsLength, (isEmpty_iff builder).mp empty]
    rfl
  simp [hasRoom, empty, noRecords]

/-- A block that is full is not empty. -/
theorem isEmpty_eq_false_of_full {builder : BlockBuilder} {entry : Entry} (filled : builder.Filled)
    (full : builder.hasRoom entry = false) : builder.isEmpty = false := by
  apply Bool.eq_false_iff.mpr
  intro empty
  rw [hasRoom_of_isEmpty filled empty entry] at full
  cases full

end BlockBuilder

/-- The stored form of a block of entries, with its checksum behind it. -/
def Block.stored (entries : List Entry) : Bytes :=
  (ofEntries entries).encode ++
    Bytes.bigEndian 4 (Crc32.checksum (ofEntries entries).encode).toNat

/-- The index of blocks of entries that are stored one behind the other from an offset on. -/
def BlockMeta.describe : Nat → List (List Entry) → List BlockMeta
  | _, [] => []
  | start, group :: later =>
    { offset := start
      firstKey := (group.head?.map Entry.key).getD .empty
      lastKey := (group.getLast?.map Entry.key).getD .empty } ::
      describe (start + (Block.stored group).length) later

/-- One more block starts where the others end. -/
theorem BlockMeta.describe_append (start : Nat) (groups : List (List Entry)) (group : List Entry) :
    describe start (groups ++ [group]) =
      describe start groups ++ describe (start + (groups.map Block.stored).flatten.length) [group] := by
  induction groups generalizing start with
  | nil => simp [describe]
  | cons first later ih =>
    simp only [List.cons_append, describe, ih, List.map_cons, List.flatten_cons,
      List.length_append, Nat.add_assoc]

/-- Properties are those of a list of entries: how many there are, how many of them are tombstones,
and the largest sequence number, which is zero if there are none. -/
structure Properties.Sums (properties : Properties) (stored : List Entry) : Prop where
  /-- The entries were counted. -/
  count : properties.entries = stored.length
  /-- The tombstones were counted. -/
  tombstones : properties.tombstones = stored.countP Entry.isTombstone
  /-- No sequence number is larger than the largest one. -/
  le_maxSeq : ∀ entry ∈ stored, entry.seq ≤ properties.maxSeq
  /-- The largest sequence number is that of an entry. -/
  maxSeq : (stored = [] ∧ properties.maxSeq = 0) ∨ ∃ entry ∈ stored, entry.seq = properties.maxSeq

/-- Recording one more entry sums up one more entry. -/
theorem Properties.Sums.record {properties : Properties} {entries : List Entry}
    (sums : properties.Sums entries) (entry : Entry) :
    (properties.record entry).Sums (entries ++ [entry]) where
  count := by simp [Properties.record, sums.count]
  tombstones := by
    rw [List.countP_append, List.countP_singleton, ← sums.tombstones]
    unfold Properties.record
    dsimp only
    split <;> rfl
  le_maxSeq := by
    intro other member
    simp only [Properties.record]
    rcases List.mem_append.mp member with member | member
    · have bound := sums.le_maxSeq other member
      split
      · next larger => exact UInt64.le_trans bound (UInt64.le_of_lt larger)
      · exact bound
    · cases List.mem_singleton.mp member
      split
      · exact UInt64.le_refl _
      · next bound => exact UInt64.not_lt.mp bound
  maxSeq := by
    right
    simp only [Properties.record]
    split
    · exact ⟨entry, by simp, rfl⟩
    · next bound =>
      rcases sums.maxSeq with ⟨rfl, zero⟩ | ⟨other, member, same⟩
      · refine ⟨entry, by simp, ?_⟩
        rw [zero] at bound ⊢
        exact UInt64.le_antisymm (UInt64.not_lt.mp bound) UInt64.zero_le
      · exact ⟨other, List.mem_append_left _ member, same⟩

/-- Recording all entries sums them up. -/
theorem Properties.sums_foldl (entries : List Entry) :
    (entries.foldl Properties.record .empty).Sums entries := by
  induction entries using List.reverseRecOn with
  | nil => exact ⟨rfl, rfl, by simp, Or.inl ⟨rfl, rfl⟩⟩
  | append_singleton entries entry ih =>
    rw [List.foldl_concat]
    exact ih.record entry

namespace TableBuilder

/-- Adds entries one after the other, up to the first one that is refused. -/
def addAll (builder : TableBuilder) : List Entry → Step TableBuilder Refusal
  | [] => .done builder
  | entry :: later => (builder.add entry).andThen (addAll · later)

/-- What holds of a table builder that has taken entries: those in its closed blocks, and behind
them those in the current block. -/
structure Filled (builder : TableBuilder) (groups : List (List Entry)) (entries : List Entry) :
    Prop where
  /-- The current block keeps its limits. -/
  block : builder.block.Filled
  /-- No closed block is empty, and each of them kept its limits. -/
  closed : ∀ group ∈ groups, group ≠ [] ∧ Block.Storable group
  /-- The index describes the closed blocks. -/
  blocks : builder.blocks = BlockMeta.describe 0 groups
  /-- The closed blocks are stored in order. -/
  data : (builder.closed.map Prod.snd).reverse = groups.map Block.stored
  /-- The bytes of the closed blocks are counted. -/
  closedLength : builder.closedLength = (groups.map Block.stored).flatten.length
  /-- The entries are dealt out in order. -/
  dealt : groups.flatten ++ builder.block.entries = entries
  /-- Keys ascend. -/
  ascends : Ascending entries
  /-- The last key is that of the last entry. -/
  lastKey : ∀ entry, entries.getLast? = some entry → builder.lastKey = entry.key
  /-- The properties are recorded from the entries. -/
  properties : builder.properties = entries.foldl Properties.record .empty

/-- A builder starts with nothing. -/
theorem filled_ofBlockSize (blockSize : Nat) : (ofBlockSize blockSize).Filled [] [] where
  block := BlockBuilder.filled_ofLimit blockSize
  closed := by simp
  blocks := rfl
  data := rfl
  closedLength := rfl
  dealt := rfl
  ascends := List.Pairwise.nil
  lastKey := by simp
  properties := rfl

/-- The entries are counted. -/
theorem Filled.count {builder : TableBuilder} {groups : List (List Entry)} {entries : List Entry}
    (filled : builder.Filled groups entries) : builder.properties.entries = entries.length := by
  rw [filled.properties]
  exact (Properties.sums_foldl entries).count

/-- Closing a block that is not empty adds it to the closed ones. -/
theorem Filled.closeBlock {builder : TableBuilder} {groups : List (List Entry)}
    {entries : List Entry} (filled : builder.Filled groups entries)
    (some : builder.block.isEmpty = false) :
    builder.closeBlock.Filled (groups ++ [builder.block.entries]) entries := by
  have nonempty : builder.block.entries ≠ [] := by
    intro none
    simp [(BlockBuilder.isEmpty_iff _).mpr none] at some
  obtain ⟨last, isLast⟩ := Option.isSome_iff_exists.mp (List.getLast?_isSome.mpr nonempty)
  have lastKey : builder.lastKey = last.key := by
    apply filled.lastKey
    rw [← filled.dealt, List.getLast?_append, isLast]
    rfl
  refine { filled with
    block := ?_, closed := ?_, blocks := ?_, data := ?_, closedLength := ?_, dealt := ?_ }
  · exact BlockBuilder.filled_ofLimit _
  · exact List.forall_mem_append.mpr
      ⟨filled.closed, List.forall_mem_singleton.mpr ⟨nonempty, filled.block.storable⟩⟩
  · have before := filled.blocks
    simp only [TableBuilder.blocks] at before
    rw [BlockMeta.describe_append, ← before, ← filled.closedLength]
    simp [TableBuilder.closeBlock, TableBuilder.blocks, BlockMeta.describe, isLast, lastKey,
      BlockBuilder.firstKey?_eq]
  · rw [List.map_append, ← filled.data]
    simp [TableBuilder.closeBlock, Block.stored, BlockBuilder.build]
  · rw [List.map_append, List.flatten_append, List.length_append, ← filled.closedLength]
    simp [TableBuilder.closeBlock, Block.stored, BlockBuilder.build]
  · rw [List.flatten_append, ← filled.dealt]
    simp [TableBuilder.closeBlock, BlockBuilder.ofLimit, BlockBuilder.entries]

/-! ## Storing an entry -/

section Storing

variable {builder : TableBuilder} {entry : Entry}

/-- The builder whose current block has taken an entry. -/
def taking (builder : TableBuilder) (entry : Entry) : TableBuilder :=
  builder.accept entry (builder.block.taking entry)

/-- An entry that fits a record is stored in the current block, if that has room. -/
theorem store_of_room (fits : entry.Fits) (room : builder.block.hasRoom entry = true) :
    builder.store entry = .done (builder.taking entry) := by
  rw [store, BlockBuilder.add_of_fits _ fits, if_pos room]
  rfl

/-- The next block has room for any entry. -/
theorem hasRoom_closeBlock (builder : TableBuilder) (entry : Entry) :
    builder.closeBlock.block.hasRoom entry = true :=
  BlockBuilder.hasRoom_of_isEmpty (BlockBuilder.filled_ofLimit _) rfl entry

/-- An entry that fits a record is stored in the next block, if the current one has no room. -/
theorem store_of_full (fits : entry.Fits) (full : builder.block.hasRoom entry = false) :
    builder.store entry = .done (builder.closeBlock.taking entry) := by
  have refused : builder.block.add entry = .failed builder.block .full := by
    rw [BlockBuilder.add_of_fits _ fits, if_neg (by simp [full])]
  have again : builder.closeBlock.block.add entry =
      .done (builder.closeBlock.block.taking entry) := by
    rw [BlockBuilder.add_of_fits _ fits, if_pos (hasRoom_closeBlock builder entry)]
  simp only [store, refused, Step.fault_failed, Step.state_failed, again, Step.fault_done,
    Step.state_done]
  rfl

/-- An entry that does not fit a record is refused before anything else happens, and not because an
empty block was full. -/
theorem store_of_not_fits (builder : TableBuilder) (tooLong : ¬entry.Fits) :
    ∃ refusal, refusal ≠ .entryTooLarge ∧ builder.store entry = .failed builder refusal := by
  obtain ⟨refusal, noWant, refused⟩ := BlockBuilder.exists_refusal builder.block tooLong
  rw [store, refused]
  cases refusal with
  | full => exact absurd rfl noWant
  | keyTooLarge => exact ⟨.keyTooLarge, nofun, rfl⟩
  | valueTooLarge => exact ⟨.valueTooLarge, nofun, rfl⟩

/-- What storing does: the entry goes to the current block, or to the next one, or is refused. -/
theorem store_cases (builder : TableBuilder) (entry : Entry) :
    (entry.Fits ∧ builder.block.hasRoom entry = true ∧
        builder.store entry = .done (builder.taking entry)) ∨
      (entry.Fits ∧ builder.block.hasRoom entry = false ∧
        builder.store entry = .done (builder.closeBlock.taking entry)) ∨
      (¬ entry.Fits ∧ ∃ refusal, refusal ≠ .entryTooLarge ∧
        builder.store entry = .failed builder refusal) := by
  by_cases fits : entry.Fits
  · cases room : builder.block.hasRoom entry with
    | true => exact .inl ⟨fits, rfl, store_of_room fits room⟩
    | false => exact .inr (.inl ⟨fits, rfl, store_of_full fits room⟩)
  · exact .inr (.inr ⟨fits, store_of_not_fits builder fits⟩)

end Storing

/-- An entry that the current block takes stands behind all others. -/
theorem Filled.taking {builder : TableBuilder} {groups : List (List Entry)} {entries : List Entry}
    {entry : Entry} (filled : builder.Filled groups entries)
    (behind : ∀ last, entries.getLast? = some last → last.key < entry.key)
    (fits : entry.Fits) (room : builder.block.hasRoom entry = true) :
    (builder.taking entry).Filled groups (entries ++ [entry]) := by
  obtain ⟨blockFilled, taken, _⟩ := BlockBuilder.filled_taking filled.block fits room
  refine { filled with
    block := blockFilled, dealt := ?_, ascends := ?_, lastKey := ?_, properties := ?_ }
  · rw [← filled.dealt, List.append_assoc]
    exact congrArg _ taken
  · exact Ascending.concat_iff.mpr ⟨filled.ascends, behind⟩
  · intro last isLast
    rw [List.getLast?_concat] at isLast
    cases isLast
    rfl
  · rw [List.foldl_append, ← filled.properties]
    rfl

/-- An entry that is stored stands behind all others, possibly in a block of its own. -/
theorem Filled.store {builder : TableBuilder} {groups : List (List Entry)} {entries : List Entry}
    {entry : Entry} (filled : builder.Filled groups entries)
    (behind : ∀ last, entries.getLast? = some last → last.key < entry.key)
    (stored : (builder.store entry).fault = none) :
    ∃ groups, (builder.store entry).state.Filled groups (entries ++ [entry]) := by
  obtain ⟨fits, room, here⟩ | ⟨fits, full, next⟩ | ⟨_, _, _, refused⟩ := store_cases builder entry
  · rw [here]
    exact ⟨groups, filled.taking behind fits room⟩
  · have closed := filled.closeBlock (BlockBuilder.isEmpty_eq_false_of_full filled.block full)
    rw [next]
    exact ⟨_, closed.taking behind fits (hasRoom_closeBlock builder entry)⟩
  · simp [refused] at stored

/-- An entry that is added stands behind all others. -/
theorem Filled.add {builder : TableBuilder} {groups : List (List Entry)} {entries : List Entry}
    {entry : Entry} (filled : builder.Filled groups entries)
    (added : (builder.add entry).fault = none) :
    ∃ groups, (builder.add entry).state.Filled groups (entries ++ [entry]) := by
  unfold TableBuilder.add at added ⊢
  split at added
  · next none =>
    have empty : entries = [] := List.eq_nil_of_length_eq_zero (filled.count.symm.trans none)
    have noted : TableBuilder.Filled { builder with firstKey := entry.key } groups entries :=
      { filled with }
    rw [if_pos none]
    exact noted.store (by simp [empty]) added
  · next some =>
    split at added
    · next ordered =>
      rw [if_neg some, if_pos ordered]
      refine filled.store ?_ added
      intro last isLast
      rw [← filled.lastKey last isLast]
      exact ordered
    · simp at added

/-- Entries that are all added are dealt out to blocks in order. -/
theorem Filled.addAll {builder after : TableBuilder} {groups : List (List Entry)}
    {entries added : List Entry} (filled : builder.Filled groups entries)
    (run : builder.addAll added = .done after) :
    ∃ groups, after.Filled groups (entries ++ added) := by
  induction added generalizing builder groups entries with
  | nil =>
    cases run
    exact ⟨groups, by simpa using filled⟩
  | cons entry later ih =>
    unfold TableBuilder.addAll Step.andThen at run
    cases taken : (builder.add entry).fault with
    | some refusal =>
      simp only [taken] at run
      rw [run] at taken
      cases taken
    | none =>
      simp only [taken] at run
      obtain ⟨groups, next⟩ := filled.add taken
      obtain ⟨groups, last⟩ := ih next run
      exact ⟨groups, by simpa using last⟩

/-- Finishing closes the last block, so that the closed blocks have all entries. -/
theorem Filled.finish {builder : TableBuilder} {groups : List (List Entry)} {entries : List Entry}
    (filled : builder.Filled groups entries) :
    ∃ groups, builder.finish.Filled groups entries ∧ groups.flatten = entries := by
  unfold TableBuilder.finish
  cases empty : builder.block.isEmpty with
  | true =>
    have none := (BlockBuilder.isEmpty_iff _).mp empty
    exact ⟨groups, by simpa using filled, by simpa [none] using filled.dealt⟩
  | false =>
    have closed := filled.closeBlock empty
    refine ⟨_, by simpa using closed, ?_⟩
    rw [← filled.dealt]
    simp

/-- An entry that is added becomes the last one, and the first one if there was none before. -/
theorem keys_of_add {builder : TableBuilder} {entry : Entry}
    (added : (builder.add entry).fault = none) :
    (builder.add entry).state.firstKey =
        (if builder.properties.entries = 0 then entry.key else builder.firstKey) ∧
      (builder.add entry).state.lastKey = entry.key ∧
      (builder.add entry).state.properties.entries = builder.properties.entries + 1 := by
  have stores (builder : TableBuilder) (stored : (builder.store entry).fault = none) :
      (builder.store entry).state.firstKey = builder.firstKey ∧
        (builder.store entry).state.lastKey = entry.key ∧
        (builder.store entry).state.properties.entries = builder.properties.entries + 1 := by
    obtain ⟨_, _, here⟩ | ⟨_, _, next⟩ | ⟨_, _, _, refused⟩ := store_cases builder entry
    · rw [here]
      exact ⟨rfl, rfl, rfl⟩
    · rw [next]
      exact ⟨rfl, rfl, rfl⟩
    · simp [refused] at stored
  unfold add at added ⊢
  split
  · next none =>
    rw [if_pos none] at added
    exact stores _ added
  · next some =>
    rw [if_neg some] at added
    split
    · next ordered =>
      rw [if_pos ordered] at added
      exact stores _ added
    · next behind => simp [behind] at added

/-- The first and the last key of a builder are those of the entries that it has taken. -/
theorem keys_of_addAll {builder after : TableBuilder} {entries : List Entry}
    (run : builder.addAll entries = .done after) :
    after.firstKey = (if builder.properties.entries = 0 then
        (entries.head?.map Entry.key).getD builder.firstKey else builder.firstKey) ∧
      after.lastKey = (entries.getLast?.map Entry.key).getD builder.lastKey := by
  induction entries generalizing builder with
  | nil =>
    cases run
    simp
  | cons entry later ih =>
    unfold addAll Step.andThen at run
    cases taken : (builder.add entry).fault with
    | some refusal =>
      simp only [taken] at run
      rw [run] at taken
      cases taken
    | none =>
      simp only [taken] at run
      obtain ⟨first, last, count⟩ := keys_of_add taken
      obtain ⟨laterFirst, laterLast⟩ := ih run
      rw [if_neg (by omega)] at laterFirst
      refine ⟨by rw [laterFirst, first]; rfl, ?_⟩
      rw [laterLast, last, List.getLast?_cons]
      cases later.getLast? <;> rfl

end TableBuilder

end SortedTables
