import SortedTables.Proofs.Table.Filling
import SortedTables.Proofs.Unchecked.Walking

/-!
# Entries offered to a block

Whoever fills a block offers it entries in any order, and goes on after one that was not taken. The
builder does not change then, so the block holds the entries that were taken, in the order in which
they were offered: `BlockBuilder.filled_offerAll`. Which ones are taken is decided by the record of an
entry and by the stored form that the block would have with it (`BlockBuilder.takes_iff`,
`BlockBuilder.Filled.hasRoom_iff`).

`Block.roundTrips` says what becomes of them. The stored form of the block is accepted as this block,
and going through it from the first entry on shows each of them once and then nothing. It also has the
other direction, which is about all blocks and not only those that were filled: whatever is accepted,
with records that overlap or bytes that belong to none, is the stored form of what it is accepted as.
-/

namespace SortedTables

namespace BlockBuilder

variable {builder : BlockBuilder}

/-- What is left of a builder that an entry was offered to. -/
def offer (builder : BlockBuilder) (entry : Entry) : BlockBuilder :=
  (builder.add entry).state

/-- Whether a builder takes an entry. -/
def takes (builder : BlockBuilder) (entry : Entry) : Bool :=
  (builder.add entry).fault.isNone

/-- What is left of a builder that entries were offered to, one after the other. -/
def offerAll (builder : BlockBuilder) (offered : List Entry) : BlockBuilder :=
  offered.foldl offer builder

/-- Those of the entries offered to a builder that it takes. -/
def taken (builder : BlockBuilder) : List Entry → List Entry
  | [] => []
  | entry :: later =>
    if builder.takes entry then entry :: (builder.offer entry).taken later
    else (builder.offer entry).taken later

/-- A block has room for an entry as long as its positions can be stated, if the stored form with the
entry keeps within the limit. The first entry may exceed the limit. -/
theorem Filled.hasRoom_iff (filled : builder.Filled) (entry : Entry) :
    builder.hasRoom entry = true ↔
      builder.build.records.length ≤ 65535 ∧
        (builder.entries = [] ∨
          (Block.ofEntries (builder.entries ++ [entry])).encode.length ≤ builder.sizeLimit) := by
  have records : builder.build.records.length = builder.recordsLength := filled.recordsLength.symm
  have grown : (Block.ofEntries (builder.entries ++ [entry])).encode.length =
      builder.storedLength + Block.recordLength builder.firstKey? entry + 2 := by
    have count : builder.entries.length = builder.latestFirst.length := List.length_reverse
    rw [Block.length_encode, Block.ofEntries, Block.length_positionsFrom, Block.recordsOf_append,
      List.length_append, Block.length_recordsOf, List.flatten_append, List.length_append,
      ← filled.recordsLength, storedLength, firstKey?_eq, count]
    simp only [List.flatten_singleton, Block.length_encodeRecord, List.length_singleton]
    omega
  rw [grown, records, ← isEmpty_iff]
  simp only [hasRoom, Bool.and_eq_true, Bool.or_eq_true, decide_eq_true_eq]
  exact and_comm

/-- An entry is taken if it fits a record and there is room for it. -/
theorem takes_iff (builder : BlockBuilder) (entry : Entry) :
    builder.takes entry = true ↔ entry.Fits ∧ builder.hasRoom entry = true := by
  obtain ⟨fits, room, added⟩ | ⟨fits, full, added⟩ | ⟨tooLong, refusal, _, added⟩ :=
    add_cases builder entry
  · simp [takes, added, fits, room]
  · simp [takes, added, full]
  · simp [takes, added, tooLong]

/-- An entry that is taken stands behind the others, any other one leaves them as they are. -/
theorem filled_offer (filled : builder.Filled) (entry : Entry) :
    (builder.offer entry).Filled ∧
      (builder.offer entry).entries =
        builder.entries ++ (if builder.takes entry then [entry] else []) ∧
      (builder.offer entry).sizeLimit = builder.sizeLimit := by
  obtain ⟨fits, room, added⟩ | ⟨_, _, added⟩ | ⟨_, _, _, added⟩ := add_cases builder entry
  · rw [offer, takes, added]
    exact filled_taking filled fits room
  · simpa [offer, takes, added] using filled
  · simpa [offer, takes, added] using filled

/-- The entries that are taken stand behind the others in the order in which they were offered. -/
theorem filled_offerAll (filled : builder.Filled) (offered : List Entry) :
    (builder.offerAll offered).Filled ∧
      (builder.offerAll offered).entries = builder.entries ++ builder.taken offered ∧
      (builder.offerAll offered).sizeLimit = builder.sizeLimit := by
  induction offered generalizing builder with
  | nil => exact ⟨filled, (List.append_nil _).symm, rfl⟩
  | cons entry later ih =>
    obtain ⟨filledNext, next, limitNext⟩ := filled_offer filled entry
    obtain ⟨filledLast, last, limitLast⟩ := ih filledNext
    refine ⟨filledLast, ?_, limitLast.trans limitNext⟩
    rw [offerAll, List.foldl_cons, ← offerAll, last, next, taken]
    split <;> simp

end BlockBuilder

/-- Going on from the first entry a number of times stands behind as many entries. -/
theorem Unchecked.cursorBehind_replicate (entries : List Entry) (count : Nat) :
    cursorBehind entries none (List.replicate count .next) = ⟨entries, entries.drop count⟩ := by
  have goes := foldl_next entries 0 count
  rw [List.drop_zero, Nat.zero_add] at goes
  exact goes

namespace Block

open BlockBuilder Unchecked

/-- Going through a block that can be read shows its entries in order, and nothing behind the last
one. -/
theorem exists_walk_of_read {block : Block} {entries : List Entry}
    (reads : block.read = .ok entries) (count : Nat) :
    ∃ walker, Walker.walk block none (List.replicate count .next) = some walker ∧
      match entries[count]? with
      | some entry => walker.isValid = true ∧ walker.Shows entry
      | none => walker.isValid = false := by
  obtain ⟨walker, walks, follows⟩ :=
    Walker.exists_walk reads none (List.replicate count .next)
  rw [cursorBehind_replicate] at follows
  have here : (⟨entries, entries.drop count⟩ : Cursor).current? = entries[count]? :=
    List.head?_drop
  refine ⟨walker, walks, ?_⟩
  cases found : entries[count]? with
  | some entry => exact follows.at_entry (here.trans found)
  | none => exact follows.at_end (here.trans found)

/-- However entries are offered to a builder, and whatever its limit is, an entry is taken if it fits a
record, if its position can be stated, and if it is the first one or the stored block with it keeps
within the limit. The stored form of the block is accepted as this block. Going through the block from
the first entry on shows exactly the entries that were taken, in order, and nothing behind the last
one, however often one goes on. In the other direction, any byte string that is accepted as a block is
its stored form. -/
theorem roundTrips :
    (∀ sizeLimit offered,
      (∀ entry, ((ofLimit sizeLimit).offerAll offered).takes entry = true ↔
        entry.Fits ∧ ((ofLimit sizeLimit).offerAll offered).build.records.length ≤ 65535 ∧
          ((ofLimit sizeLimit).taken offered = [] ∨
            (ofEntries ((ofLimit sizeLimit).taken offered ++ [entry])).encode.length ≤ sizeLimit)) ∧
      decode ((ofLimit sizeLimit).offerAll offered).build.encode =
        .ok ((ofLimit sizeLimit).offerAll offered).build ∧
      ∀ count, ∃ walker,
        Walker.walk ((ofLimit sizeLimit).offerAll offered).build none
          (List.replicate count .next) = some walker ∧
        match ((ofLimit sizeLimit).taken offered)[count]? with
        | some entry => walker.isValid = true ∧ walker.Shows entry
        | none => walker.isValid = false) ∧
    ∀ bytes block, decode bytes = .ok block → block.encode = bytes := by
  constructor
  · intro sizeLimit offered
    obtain ⟨filled, entries, limit⟩ := filled_offerAll (filled_ofLimit sizeLimit) offered
    have stands : ((ofLimit sizeLimit).offerAll offered).entries =
        (ofLimit sizeLimit).taken offered := entries
    have limited : ((ofLimit sizeLimit).offerAll offered).sizeLimit = sizeLimit := limit
    have room := filled.hasRoom_iff
    rw [stands, limited] at room
    refine ⟨fun entry => ?_, decode_encode_ofEntries filled.storable, ?_⟩
    · rw [takes_iff, room]
    · rw [← stands]
      exact exists_walk_of_read (read_ofEntries filled.storable)
  · intro bytes block accepted
    exact (decode_eq_ok_iff.mp accepted).1.symm

/-- Entries that are offered to a block without room for all of them: keys that repeat, a key that the
first one starts with, and the empty key. -/
def crowd : List Entry :=
  [⟨⟨[5, 6]⟩, 1, .put, [1]⟩, ⟨⟨[5]⟩, 2, .delete, []⟩, ⟨⟨[5, 7]⟩, 3, .put, [2, 3, 4]⟩,
    ⟨.empty, 4, .put, []⟩]

/-- A block of one record that two positions lead to, with a byte in front of it. For the first position
the record has a key of four bytes, for the second one these say that the key shares nothing and is
empty. -/
def overlaid : Block :=
  ⟨[9, 4, 0, 0, 0, 0, 0, 8, 0, 0, 0, 0, 0, 0, 0, 1, 0, 0], [1, 1]⟩

/-- The third entry finds no room, and the fourth one is shown in its place. The block with one record for
two positions is accepted as well, from nothing but its stored form. -/
theorem roundTrips_crowd :
    (ofLimit 60).taken crowd = crowd.take 2 ++ crowd.drop 3 ∧
      (∃ walker, Walker.walk ((ofLimit 60).offerAll crowd).build none [.next, .next] =
        some walker ∧ walker.isValid = true ∧ walker.Shows ⟨.empty, 4, .put, []⟩) ∧
      (∃ walker, Walker.walk ((ofLimit 60).offerAll crowd).build none [.next, .next, .next] =
        some walker ∧ walker.isValid = false) ∧
      decode overlaid.encode = .ok overlaid ∧
      overlaid.encode =
        [9, 4, 0, 0, 0, 0, 0, 8, 0, 0, 0, 0, 0, 0, 0, 1, 0, 0, 1, 0, 1, 0, 2, 0] := by
  obtain ⟨stored, accepted⟩ := roundTrips
  have isTaken : (ofLimit 60).taken crowd = crowd.take 2 ++ crowd.drop 3 := by decide +kernel
  obtain ⟨_, _, walks⟩ := stored 60 crowd
  have last := walks 2
  have behind := walks 3
  rw [isTaken] at last behind
  have isOverlaid : decode [9, 4, 0, 0, 0, 0, 0, 8, 0, 0, 0, 0, 0, 0, 0, 1, 0, 0, 1, 0, 1, 0, 2, 0] =
      .ok overlaid := by decide +kernel
  have written := accepted _ _ isOverlaid
  exact ⟨isTaken, last, behind, by rw [written]; exact isOverlaid, written⟩

end Block

end SortedTables
