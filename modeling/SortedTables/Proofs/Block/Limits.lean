import SortedTables.Proofs.Block.Offering
import SortedTables.Proofs.Table.Refusing

/-!
# The limits of a block

The lengths and positions in a stored block have two bytes each. None of them is too large for that, and
each for another reason. The lengths of a key and of a value are checked before an entry is looked at
further; a key that is stored without what it shares needs four bytes more, which the check leaves room
for. A record starts where the records before it end, and a builder with records of more than 65535
bytes takes no further one. It follows that there are less than 65536 entries, since no record is empty.
`Block.Exact` says this of the bytes themselves: at the place of each number, the number that is read
is the one that was meant.

The size that a builder estimates is the length of the stored form (`BlockBuilder.Filled.length_encode`),
so its limit is one on the stored form. The first entry may exceed it, and that is why an entry that
finds a block full always finds room in the next one. `BlockBuilder.keeps_limits` has all of it, for a
builder that was offered any entries.
-/

namespace SortedTables

/-- The number in the two bytes at a position. -/
def Bytes.word (bytes : Bytes) (position : Nat) : Nat :=
  ofLittleEndian ((bytes.drop position).take 2)

/-- A number is found where it was written, if two bytes can hold it. -/
theorem Bytes.word_eq {bytes : Bytes} {position n : Nat} (front rest : Bytes)
    (whole : bytes = front ++ (littleEndian 2 n ++ rest)) (start : front.length = position)
    (small : n < 65536) : bytes.word position = n := by
  rw [word, whole, List.drop_left' start, List.take_left' (length_littleEndian 2 n)]
  exact ofLittleEndian_of_lt small

namespace Block

variable {first? : Option Key} {entry : Entry} {entries : List Entry} {index : Nat}

/-- Bytes that start with the record of an entry and state its lengths in full. -/
structure StatesLengths (first? : Option Key) (entry : Entry) (bytes : Bytes) : Prop where
  /-- The length of the key as it is stored. -/
  key : bytes.word 0 = (StoredKey.ofKey first? entry.key).body.length
  /-- What the key shares with the first one, and what it has on its own. -/
  shared : ∀ first, first? = some first →
    bytes.word 2 = first.sharedLength entry.key ∧
      bytes.word 4 = entry.key.size - first.sharedLength entry.key
  /-- The length of the value, behind key, sequence number and kind. -/
  value : bytes.word (2 + (StoredKey.ofKey first? entry.key).body.length + 9) = entry.value.length

/-- The record of an entry that fits states its lengths in full. -/
theorem statesLengths_encodeRecord (fits : entry.Fits) (rest : Bytes) :
    StatesLengths first? entry (encodeRecord first? entry ++ rest) := by
  obtain ⟨keyFits, valueFits⟩ := fits
  have stated : (StoredKey.ofKey first? entry.key).bodyLength < 65536 :=
    StoredKey.bodyLength_lt keyFits
  rw [maxKeySize] at keyFits
  rw [maxValueSize] at valueFits
  let length := Bytes.littleEndian 2 (StoredKey.ofKey first? entry.key).bodyLength
  let body := (StoredKey.ofKey first? entry.key).body
  have size : length.length = 2 := Bytes.length_littleEndian 2 _
  constructor
  · rw [StoredKey.length_body]
    refine Bytes.word_eq [] (body ++ encodeTail entry ++ rest) ?_ rfl stated
    simp [encodeRecord, body]
  · rintro first rfl
    obtain ⟨_, withinKey⟩ := Key.sharedLength_le first entry.key
    let own := entry.key.bytes.drop (first.sharedLength entry.key)
    have ownSize : own.length = entry.key.size - first.sharedLength entry.key := List.length_drop
    let behind := own ++ encodeTail entry ++ rest
    have whole : encodeRecord (some first) entry ++ rest =
        length ++ (Bytes.littleEndian 2 (first.sharedLength entry.key) ++
          (Bytes.littleEndian 2 own.length ++ behind)) := by
      simp [encodeRecord, StoredKey.ofKey, StoredKey.body, length, own, behind]
    constructor
    · exact Bytes.word_eq length _ whole size (by omega)
    · rw [← ownSize]
      refine Bytes.word_eq (length ++ Bytes.littleEndian 2 (first.sharedLength entry.key)) behind ?_ ?_
        (by omega)
      · rw [whole, List.append_assoc]
      · rw [List.length_append, size, Bytes.length_littleEndian]
  · refine Bytes.word_eq
      (length ++ body ++ (Bytes.littleEndian 8 entry.seq.toNat ++ [entry.kind.toByte]))
      (entry.value ++ rest) ?_ ?_ (by omega)
    · simp [encodeRecord, encodeTail, length, body]
    · simp only [List.length_append, size, body, Bytes.length_littleEndian, List.length_singleton]

/-- Where records stand in a list, they are those of the entries: the first one is stored without a first
key. -/
theorem getElem?_recordsOf (entries : List Entry) (index : Nat) :
    (recordsOf entries)[index]? = entries[index]?.map
      (encodeRecord (if index = 0 then none else entries.head?.map Entry.key)) := by
  cases entries with
  | nil => rfl
  | cons first later =>
    cases index with
    | zero => rfl
    | succ index => simp [recordsOf]

/-- A position is where the pieces before end. -/
theorem getElem?_positionsFrom {start : Nat} {pieces : List Bytes} (inside : index < pieces.length) :
    (positionsFrom start pieces)[index]? =
      some (UInt16.ofNat (start + (pieces.take index).flatten.length)) := by
  induction pieces generalizing start index with
  | nil => cases inside
  | cons piece later ih =>
    cases index with
    | zero => rfl
    | succ index =>
      rw [positionsFrom, List.getElem?_cons_succ, ih (Nat.lt_of_succ_lt_succ inside),
        List.take_succ_cons, List.flatten_cons, List.length_append, Nat.add_assoc]

/-- Pieces that are addressable start where a position can say. -/
theorem Addressable.start_lt {start : Nat} {pieces : List Bytes}
    (addressable : Addressable start pieces) (inside : index < pieces.length) :
    start + (pieces.take index).flatten.length < 65536 := by
  induction pieces generalizing start index with
  | nil => cases inside
  | cons piece later ih =>
    obtain ⟨starts, addressable⟩ := addressable
    cases index with
    | zero => exact starts
    | succ index =>
      have behind := ih addressable (Nat.lt_of_succ_lt_succ inside)
      rw [List.take_succ_cons, List.flatten_cons, List.length_append, ← Nat.add_assoc]
      exact behind

/-- At the end of a stored block stands how many positions it has, if two bytes can say it. -/
theorem word_count {block : Block} (few : block.positions.length < 65536) :
    block.encode.word (block.encode.length - 2) = block.positions.length := by
  refine Bytes.word_eq (block.records ++ block.positions.flatMap fun position =>
    Bytes.littleEndian 2 position.toNat) [] ?_ ?_ few
  · rw [List.append_nil]
    rfl
  · rw [List.length_append, length_flatMap_positions, length_encode, Nat.add_sub_cancel]

/-- Behind the records of a stored block stand its positions. -/
theorem word_position {block : Block} {position : UInt16}
    (found : block.positions[index]? = some position) :
    block.encode.word (block.records.length + 2 * index) = position.toNat := by
  let stored (position : UInt16) : Bytes := Bytes.littleEndian 2 position.toNat
  have place : (block.positions.map stored)[index]? = some (stored position) := by
    rw [List.getElem?_map, found, Option.map_some]
  have early : (block.positions.take index).length = index := by
    have inside := (List.getElem?_eq_some_iff.mp found).1
    rw [List.length_take, Nat.min_eq_left (Nat.le_of_lt inside)]
  refine Bytes.word_eq (block.records ++ ((block.positions.map stored).take index).flatten)
    (((block.positions.map stored).drop (index + 1)).flatten ++
      Bytes.littleEndian 2 block.positions.length) ?_ ?_ position.toNat_lt
  · rw [encode, List.flatMap_def, flatten_eq_of_getElem? place]
    simp only [List.append_assoc]
    rfl
  · rw [← List.map_take, ← List.flatMap_def, List.length_append, length_flatMap_positions, early]

/-- In the stored form of entries a record stands behind those before it. -/
theorem exists_drop_encode {record : Bytes} (found : (recordsOf entries)[index]? = some record) :
    ∃ rest, (ofEntries entries).encode.drop ((recordsOf entries).take index).flatten.length =
      record ++ rest := by
  have whole : (ofEntries entries).records = (recordsOf entries).flatten := rfl
  apply Exists.intro
  rw [encode, whole, flatten_eq_of_getElem? found, List.append_assoc, List.append_assoc,
    List.drop_left, List.append_assoc]

/-- The stored form of a block in which every number of two bytes is the one that is meant. -/
structure Exact (entries : List Entry) (bytes : Bytes) : Prop where
  /-- At the end stands the number of entries. -/
  count : bytes.word (bytes.length - 2) = entries.length
  /-- Behind the records stands for each of them how many bytes come before it. -/
  positions : ∀ index < entries.length,
    bytes.word ((recordsOf entries).flatten.length + 2 * index) =
      ((recordsOf entries).take index).flatten.length
  /-- Each record states its lengths. -/
  lengths : ∀ index entry, entries[index]? = some entry →
    StatesLengths (if index = 0 then none else entries.head?.map Entry.key) entry
      (bytes.drop ((recordsOf entries).take index).flatten.length)

/-- The stored form of entries that a block can hold is exact. -/
theorem exact_of_storable (storable : Storable entries) : Exact entries (ofEntries entries).encode := by
  have count : (ofEntries entries).positions.length = entries.length := by
    rw [ofEntries, length_positionsFrom, length_recordsOf]
  constructor
  · rw [word_count, count]
    rw [count]
    exact storable.length_lt
  · intro index inside
    rw [← length_recordsOf entries] at inside
    have start := storable.addressable.start_lt inside
    have found : (ofEntries entries).positions[index]? = _ := getElem?_positionsFrom inside
    rw [Nat.zero_add] at start found
    exact (word_position found).trans (UInt16.toNat_ofNat_of_lt' start)
  · intro index entry found
    have record := getElem?_recordsOf entries index
    rw [found, Option.map_some] at record
    obtain ⟨rest, stored⟩ := exists_drop_encode record
    rw [stored]
    exact statesLengths_encodeRecord (storable.fits entry (List.mem_of_getElem? found)) rest

end Block

namespace BlockBuilder

variable {builder : BlockBuilder} {entry : Entry}

/-- A refusal leaves the builder as it is. -/
theorem state_add_of_refused (refused : (builder.add entry).fault ≠ none) :
    (builder.add entry).state = builder := by
  obtain ⟨_, _, added⟩ | ⟨_, _, added⟩ | ⟨_, _, _, added⟩ := add_cases builder entry
  · simp [added] at refused
  · rw [added, Step.state_failed]
  · rw [added, Step.state_failed]

/-- The estimated size is the length of the stored form. -/
theorem Filled.length_encode (filled : builder.Filled) :
    builder.build.encode.length = builder.storedLength := by
  have records : builder.build.records.length = builder.recordsLength := filled.recordsLength.symm
  have count : builder.entries.length = builder.latestFirst.length := List.length_reverse
  have positions : builder.build.positions.length = builder.latestFirst.length := by
    rw [← count, ← Block.length_recordsOf builder.entries]
    exact Block.length_positionsFrom 0 _
  rw [Block.length_encode, records, positions, storedLength]

/-- A block of several entries keeps within its limit. -/
def WithinLimit (builder : BlockBuilder) : Prop :=
  2 ≤ builder.entries.length → builder.build.encode.length ≤ builder.sizeLimit

/-- A block without entries keeps within any limit. -/
theorem withinLimit_ofLimit (sizeLimit : Nat) : (ofLimit sizeLimit).WithinLimit := by
  intro several
  cases several

/-- Offering an entry keeps the limit: a second entry is only taken if the stored form stays within it. -/
theorem WithinLimit.offer (within : builder.WithinLimit) (filled : builder.Filled) (entry : Entry) :
    (builder.offer entry).WithinLimit := by
  obtain ⟨-, entries, limit⟩ := filled_offer filled entry
  unfold WithinLimit build
  rw [entries, limit]
  intro several
  by_cases took : builder.takes entry = true
  · rw [if_pos took] at several ⊢
    obtain ⟨-, first | small⟩ := (filled.hasRoom_iff entry).mp ((takes_iff builder entry).mp took).2
    · rw [first, List.nil_append, List.length_singleton] at several
      exact absurd several (by decide)
    · exact small
  · rw [if_neg took, List.append_nil] at several ⊢
    exact within several

/-- Offering any number of entries keeps the limit. -/
theorem WithinLimit.offerAll (within : builder.WithinLimit) (filled : builder.Filled)
    (offered : List Entry) : (builder.offerAll offered).WithinLimit := by
  induction offered generalizing builder with
  | nil => exact within
  | cons entry later ih => exact ih (within.offer filled entry) (filled_offer filled entry).1

/-- An entry that fits a record finds the block full if there is an entry already and the stored form
with one more exceeds the limit, or the records are so long that the next position cannot be
stated. -/
theorem Filled.fault_add_eq_full_iff (filled : builder.Filled) (fits : entry.Fits) :
    (builder.add entry).fault = some .full ↔ builder.entries ≠ [] ∧
      (builder.sizeLimit < (Block.ofEntries (builder.entries ++ [entry])).encode.length ∨
        65535 < builder.build.records.length) := by
  have isFull : (builder.add entry).fault = some .full ↔ ¬ builder.hasRoom entry = true := by
    rw [add_of_fits builder fits]
    cases builder.hasRoom entry <;> simp
  rw [isFull, filled.hasRoom_iff, not_and_or, not_or, Nat.not_le, Nat.not_le]
  constructor
  · rintro (long | ⟨some, exceeds⟩)
    -- Without entries there are no records that could be too long.
    · refine ⟨fun none => ?_, Or.inr long⟩
      rw [build, none] at long
      exact absurd long (by decide)
    · exact ⟨some, Or.inl exceeds⟩
  · rintro ⟨some, exceeds | long⟩
    · exact Or.inr ⟨some, exceeds⟩
    · exact Or.inl long

/-- An entry that fits a record and does not find the block full is taken and stands behind the others. -/
theorem Filled.build_add (filled : builder.Filled) (fits : entry.Fits)
    (room : (builder.add entry).fault ≠ some .full) :
    (builder.add entry).fault = none ∧
      (builder.add entry).state.build = Block.ofEntries (builder.entries ++ [entry]) := by
  obtain ⟨_, hasRoom, added⟩ | ⟨_, _, added⟩ | ⟨tooLong, _⟩ := add_cases builder entry
  · obtain ⟨-, entries, -⟩ := filled_taking filled fits hasRoom
    rw [added, Step.state_done, build, entries]
    exact ⟨rfl, rfl⟩
  · rw [added] at room
    exact absurd rfl room
  · exact absurd fits tooLong

end BlockBuilder

namespace TableBuilder

variable {builder : TableBuilder} {entry : Entry}

/-- Storing never finds the next block full. -/
theorem fault_store_ne (builder : TableBuilder) (entry : Entry) :
    (builder.store entry).fault ≠ some .entryTooLarge := by
  obtain ⟨_, _, stored⟩ | ⟨_, _, stored⟩ | ⟨_, _, other, refused⟩ := store_cases builder entry
  · simp [stored]
  · simp [stored]
  · simpa [refused] using other

/-- Adding never finds the next block full. -/
theorem fault_add_ne (builder : TableBuilder) (entry : Entry) :
    (builder.add entry).fault ≠ some .entryTooLarge := by
  unfold add
  split
  · exact fault_store_ne _ entry
  · split
    · exact fault_store_ne _ entry
    · rintro ⟨⟩

/-- Storing closes no block, or it closes the current one, which has entries then. -/
theorem closed_store (filled : builder.block.Filled) (entry : Entry) :
    (builder.store entry).state.closed = builder.closed ∨
      builder.block.entries ≠ [] ∧
        (builder.store entry).state.closed = builder.closeBlock.closed := by
  obtain ⟨_, _, stored⟩ | ⟨_, full, stored⟩ | ⟨_, _, _, refused⟩ := store_cases builder entry
  · rw [stored]
    exact Or.inl rfl
  · have some := BlockBuilder.isEmpty_eq_false_of_full filled full
    rw [stored]
    refine Or.inr ⟨fun none => ?_, rfl⟩
    rw [(BlockBuilder.isEmpty_iff _).mpr none] at some
    cases some
  · rw [refused]
    exact Or.inl rfl

/-- Adding closes no block, or it closes the current one, which has entries then. -/
theorem closed_add (filled : builder.block.Filled) (entry : Entry) :
    (builder.add entry).state.closed = builder.closed ∨
      builder.block.entries ≠ [] ∧ (builder.add entry).state.closed = builder.closeBlock.closed := by
  unfold add
  split
  · have filledNoting : (builder.noting entry.key).block.Filled := filled
    exact closed_store filledNoting entry
  · split
    · exact closed_store filled entry
    · exact Or.inl rfl

end TableBuilder

/-- Let a block builder of any limit be offered any entries, by someone who goes on after each that is
not taken. In the stored form of the block every number of two bytes is the one that is meant: the
number of entries, the position of each record, and the lengths in each record. The stored form has the
estimated size and keeps within the limit if there are several entries. Whatever entry is refused, the
builder stays as it is. An entry that fits a record is refused in just two cases, for which there must
be an entry already: the stored form with one more would exceed the limit, or the records have more
than 65535 bytes. Otherwise it stands behind the others. So a table builder, whatever it was offered,
never finds that an empty block does not take an entry, and never closes a block without entries. -/
theorem BlockBuilder.keeps_limits {sizeLimit : Nat} {offered stored : List Entry}
    {builder : BlockBuilder} (isLeft : (ofLimit sizeLimit).offerAll offered = builder)
    (isTaken : (ofLimit sizeLimit).taken offered = stored) :
    Block.Exact stored builder.build.encode ∧
      builder.build.encode.length = builder.storedLength ∧
      (2 ≤ stored.length → builder.build.encode.length ≤ sizeLimit) ∧
      (∀ entry, (builder.add entry).fault ≠ none → (builder.add entry).state = builder) ∧
      (∀ entry, entry.Fits →
        ((builder.add entry).fault = some .full ↔ stored ≠ [] ∧
          (sizeLimit < (Block.ofEntries (stored ++ [entry])).encode.length ∨
            65535 < builder.build.records.length)) ∧
        ((builder.add entry).fault ≠ some .full → (builder.add entry).fault = none ∧
          (builder.add entry).state.build = Block.ofEntries (stored ++ [entry]))) ∧
      ∀ (blockSize : Nat) (added : List Entry) (entry : Entry),
        let table := (TableBuilder.ofBlockSize blockSize).offerAll added
        (table.add entry).fault ≠ some .entryTooLarge ∧
          ((table.add entry).state.closed = table.closed ∨
            table.block.entries ≠ [] ∧
              (table.add entry).state.closed = table.closeBlock.closed) := by
  have started := filled_ofLimit sizeLimit
  have within : ((ofLimit sizeLimit).offerAll offered).WithinLimit :=
    (withinLimit_ofLimit sizeLimit).offerAll started offered
  obtain ⟨filled, entries, limit⟩ := filled_offerAll started offered
  rw [isLeft, isTaken] at entries
  rw [isLeft] at filled limit within
  obtain rfl : builder.entries = stored := entries
  obtain rfl : builder.sizeLimit = sizeLimit := limit
  refine ⟨Block.exact_of_storable filled.storable, filled.length_encode, within,
    fun _ => state_add_of_refused, ?_, ?_⟩
  · intro entry fits
    exact ⟨filled.fault_add_eq_full_iff fits, filled.build_add fits⟩
  · intro blockSize added entry
    obtain ⟨_, tableFilled⟩ := TableBuilder.filled_offerAll blockSize added
    exact ⟨TableBuilder.fault_add_ne _ entry, TableBuilder.closed_add tableFilled.block entry⟩

/-- An entry with so long a value that no position behind its record can be stated. -/
def BlockBuilder.sprawling : Entry := ⟨⟨[7]⟩, 1, .put, List.replicate 65530 0⟩

/-- An entry with a record of a few bytes. -/
def BlockBuilder.slight : Entry := ⟨⟨[8]⟩, 2, .put, []⟩

/-- A block that could take fifteen times as many bytes takes nothing behind the long record. -/
theorem BlockBuilder.keeps_limits_sprawling :
    (ofLimit 1000000).taken [sprawling, slight] = [sprawling] ∧
      ∃ builder, (ofLimit 1000000).offerAll [sprawling, slight] = builder ∧
        builder.build.encode.word (builder.build.encode.length - 2) = 1 ∧
        builder.build.encode.length = 65548 ∧
        (builder.add slight).fault = some .full ∧
        (builder.add slight).state = builder := by
  have value : sprawling.value.length = 65530 := List.length_replicate
  have longFits : sprawling.Fits := by
    constructor
    · decide
    · rw [value]
      decide
  have slightFits : slight.Fits := by
    constructor <;> decide
  have room : (ofLimit 1000000).hasRoom sprawling = true :=
    hasRoom_of_isEmpty (filled_ofLimit 1000000) rfl sprawling
  have took : (ofLimit 1000000).offer sprawling = (ofLimit 1000000).taking sprawling := by
    rw [offer, add_of_fits _ longFits, if_pos room, Step.state_done]
  have records : ((ofLimit 1000000).taking sprawling).recordsLength = 65544 := by
    have first (entry : Entry) :
        ((ofLimit 1000000).taking entry).recordsLength = Block.recordLength none entry :=
      Nat.zero_add _
    have key : (StoredKey.ofKey none sprawling.key).bodyLength = 1 := rfl
    rw [first, Block.recordLength, key, value]
  have full : (((ofLimit 1000000).taking sprawling).add slight).fault = some .full := by
    rw [add_of_fits _ slightFits, hasRoom, records]
    simp
  have kept : (((ofLimit 1000000).taking sprawling).add slight).state =
      (ofLimit 1000000).taking sprawling :=
    state_add_of_refused (by simp [full])
  have left : (ofLimit 1000000).offerAll [sprawling, slight] =
      (ofLimit 1000000).taking sprawling := by
    rw [offerAll, List.foldl_cons, List.foldl_cons, List.foldl_nil, took, offer, kept]
  have stored : (ofLimit 1000000).taken [sprawling, slight] = [sprawling] := by
    have first : (ofLimit 1000000).takes sprawling = true := (takes_iff _ _).mpr ⟨longFits, room⟩
    have second : ((ofLimit 1000000).taking sprawling).takes slight = false := by
      rw [takes, full, Option.isNone_some]
    rw [taken, if_pos first, took, taken, if_neg (Bool.eq_false_iff.mp second), taken]
  obtain ⟨exact, size, -, refused, -, -⟩ := keeps_limits left stored
  refine ⟨stored, _, left, exact.count, ?_, full, refused slight (by simp [full])⟩
  rw [size, storedLength, records]
  rfl

end SortedTables
