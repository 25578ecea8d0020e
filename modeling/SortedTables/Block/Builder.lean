import SortedTables.Block.Format
import SortedTables.Step

/-!
# Filling a block

A block takes entries up to a size. The first entry is taken whatever its size; each later one only
if the stored block stays within the size, and as long as positions still fit their two bytes. Keys
and values whose lengths would not fit the record are refused outright, which is a mistake of the
caller and not a full block.
-/

namespace SortedTables

/-- Why an entry can be stored in no block, or not behind the entries before it. -/
inductive Refusal where
  /-- The key does not stand after the key before it. -/
  | keysNotAscending
  /-- The key is longer than a record can say. -/
  | keyTooLarge
  /-- The value is longer than a record can say. -/
  | valueTooLarge
  /-- An empty block did not take the entry. -/
  | entryTooLarge
deriving DecidableEq

/-- The wording of a refusal. -/
def Refusal.message : Refusal → String
  | keysNotAscending => "keys must be added in strictly ascending order"
  | keyTooLarge => "key too large"
  | valueTooLarge => "value too large"
  | entryTooLarge => "split block failed: single entry too large"

/-- Why a block does not take an entry. -/
inductive BlockRefusal where
  /-- There is no room for the entry. -/
  | full
  /-- The key is longer than a record can say. -/
  | keyTooLarge
  /-- The value is longer than a record can say. -/
  | valueTooLarge
deriving DecidableEq

/-- Why a table does not take an entry that a block has refused. That the block was full counts only if it
had no entries. -/
def BlockRefusal.inTable : BlockRefusal → Refusal
  | full => .entryTooLarge
  | keyTooLarge => .keyTooLarge
  | valueTooLarge => .valueTooLarge

/-- The longest key that can be stored: four bytes of its record say what it shares. -/
def maxKeySize : Nat := 65535 - 4

/-- The longest value that can be stored. -/
def maxValueSize : Nat := 65535

/-- A block that is being filled. -/
structure BlockBuilder where
  /-- The size that a block of several entries keeps within. -/
  sizeLimit : Nat
  /-- The accepted entries, the last one first. -/
  latestFirst : List Entry
  /-- The length of their records. -/
  recordsLength : Nat
deriving DecidableEq

namespace BlockBuilder

/-- A block without entries. -/
def ofLimit (sizeLimit : Nat) : BlockBuilder := ⟨sizeLimit, [], 0⟩

/-- The accepted entries in order. -/
def entries (builder : BlockBuilder) : List Entry :=
  builder.latestFirst.reverse

/-- Whether no entry was accepted yet. -/
def isEmpty (builder : BlockBuilder) : Bool :=
  builder.latestFirst.isEmpty

/-- The key of the first entry, which later records refer to. -/
def firstKey? (builder : BlockBuilder) : Option Key :=
  builder.latestFirst.getLast?.map Entry.key

/-- The length of the block as it would be stored now. -/
def storedLength (builder : BlockBuilder) : Nat :=
  builder.recordsLength + 2 * builder.latestFirst.length + 2

/-- Whether there is room for one more entry. -/
def hasRoom (builder : BlockBuilder) (entry : Entry) : Bool :=
  let grown := builder.storedLength + Block.recordLength builder.firstKey? entry + 2
  (builder.isEmpty || grown ≤ builder.sizeLimit) && builder.recordsLength ≤ 65535

/-- The builder with an entry behind the others. -/
def taking (builder : BlockBuilder) (entry : Entry) : BlockBuilder :=
  { builder with
    latestFirst := entry :: builder.latestFirst
    recordsLength := builder.recordsLength + Block.recordLength builder.firstKey? entry }

/-- Adds an entry, unless the block is full or no block could take the entry. -/
def add (builder : BlockBuilder) (entry : Entry) : Step BlockBuilder BlockRefusal :=
  if maxKeySize < entry.key.size then
    .failed builder .keyTooLarge
  else if maxValueSize < entry.value.length then
    .failed builder .valueTooLarge
  else if builder.hasRoom entry then
    .done (builder.taking entry)
  else
    .failed builder .full

/-- The block of the accepted entries. -/
def build (builder : BlockBuilder) : Block :=
  Block.ofEntries builder.entries

end BlockBuilder

end SortedTables
