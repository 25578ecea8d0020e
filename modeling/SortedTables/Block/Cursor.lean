import SortedTables.Block.Format

/-!
# Walking through a block

A block cursor stands at one entry of a block, or behind the last one. It can go to the start, to the
next entry, or by bisection to a key. Behind the last entry it shows no key and no value, but still
the sequence number and the kind of the last entry it passed.

Bisection assumes ascending keys. On a block whose keys are not ascending it still ends, at the place
that its comparisons lead to.
-/

namespace SortedTables.Block

/-- The first place in `[low, high)` at which a test that only gets true fails, found by halving. -/
def bisect (below : Nat → Bool) (low high : Nat) : Nat :=
  if low < high then
    let middle := low + (high - low) / 2
    if below middle then bisect below (middle + 1) high else bisect below low middle
  else
    low
termination_by high - low

/-- A place in a list of entries. -/
structure Cursor where
  /-- The entries of the block. -/
  entries : List Entry
  /-- The entries from the current one on. -/
  rest : List Entry
deriving DecidableEq

namespace Cursor

/-- The cursor at the first entry. -/
def atFirst (entries : List Entry) : Cursor := ⟨entries, entries⟩

/-- The entry the cursor stands at. -/
def current? (cursor : Cursor) : Option Entry :=
  cursor.rest.head?

/-- Whether the cursor stands at an entry. -/
def isValid (cursor : Cursor) : Bool :=
  !cursor.rest.isEmpty

/-- The current key, empty behind the last entry. -/
def key (cursor : Cursor) : Key :=
  (cursor.current?.map Entry.key).getD .empty

/-- The current value, empty behind the last entry. -/
def value (cursor : Cursor) : Bytes :=
  (cursor.current?.map Entry.value).getD []

/-- The entry whose sequence number and kind are shown: behind the last entry that is the last one. -/
def shown? (cursor : Cursor) : Option Entry :=
  match cursor.rest with
  | [] => cursor.entries.getLast?
  | entry :: _ => some entry

/-- The current sequence number; behind the last entry that of the last one. -/
def seq (cursor : Cursor) : UInt64 :=
  (cursor.shown?.map Entry.seq).getD 0

/-- The current kind; behind the last entry that of the last one. -/
def kind (cursor : Cursor) : EntryKind :=
  (cursor.shown?.map Entry.kind).getD .put

/-- Goes to the first entry. -/
def first (cursor : Cursor) : Cursor :=
  atFirst cursor.entries

/-- Goes to the next entry. -/
def next (cursor : Cursor) : Cursor :=
  { cursor with rest := cursor.rest.tail }

/-- Whether the entry at an index stands before a key. -/
def standsBefore (entries : List Entry) (key : Key) (index : Nat) : Bool :=
  entries[index]?.any (·.key < key)

/-- The index of the first entry whose key is not below the given one. -/
def lowerBound (entries : List Entry) (key : Key) : Nat :=
  bisect (standsBefore entries key) 0 entries.length

/-- Goes to the first entry whose key is not below the given one. -/
def seek (key : Key) (cursor : Cursor) : Cursor :=
  { cursor with rest := cursor.entries.drop (lowerBound cursor.entries key) }

/-- Going to the next entry leaves one fewer, unless there is none. -/
theorem length_rest_next (cursor : Cursor) :
    cursor.next.rest.length = cursor.rest.length - 1 := by
  simp [next]

end Cursor

end SortedTables.Block
