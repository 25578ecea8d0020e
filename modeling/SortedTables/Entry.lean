import SortedTables.Key

/-!
# Entries

A table stores entries. An entry is a write of a key or a tombstone, the mark that the key was
deleted; its sequence number says when it was made, a larger one being later. A tombstone has no
meaning for its value, but the binary format can hold one.
-/

namespace SortedTables

/-- What an entry says about its key. -/
inductive EntryKind where
  /-- The key was deleted. -/
  | delete
  /-- The key was written. -/
  | put
deriving DecidableEq, Inhabited

namespace EntryKind

/-- The byte a kind is stored as. -/
def toByte : EntryKind → UInt8
  | delete => 0
  | put => 1

/-- The kind stored as a byte. -/
def ofByte? (byte : UInt8) : Option EntryKind :=
  if byte = 0 then some delete else if byte = 1 then some put else none

/-- Reading accepts exactly what writing produces. -/
theorem ofByte?_eq_some_iff {byte : UInt8} {kind : EntryKind} :
    ofByte? byte = some kind ↔ byte = kind.toByte := by
  cases kind <;> simp only [ofByte?, toByte] <;> split <;> simp_all

end EntryKind

/-- A stored entry. -/
structure Entry where
  /-- The key the entry is about. -/
  key : Key
  /-- When the entry was made; a larger number is later. -/
  seq : UInt64
  /-- Whether the key was written or deleted. -/
  kind : EntryKind
  /-- What was written. -/
  value : Bytes
deriving DecidableEq, Inhabited

/-- Whether the entry marks its key as deleted. -/
def Entry.isTombstone (entry : Entry) : Bool :=
  entry.kind = .delete

end SortedTables
