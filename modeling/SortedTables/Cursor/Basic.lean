import SortedTables.Fault
import SortedTables.Step

/-!
# Cursors

A cursor walks through entries in ascending key order, forwards only. What it shows can be looked at
at any time, also when it stands at no entry. Cursors over files read from the directory whenever
they move, so each move is given the directory as it is then.

`Forward` has the operations alone. A `Cursor` also has a bound on how often it can still reach an
entry. The bound is part of the class: operations that repeat moves until something changes, such as
passing over duplicates in a merge, end because of it. A stream of keys moves its source once at a
time, so it takes sources that need not come to an end.
-/

namespace SortedTables

/-- What a cursor shows. -/
structure View where
  /-- Whether the cursor stands at an entry. -/
  valid : Bool
  /-- The key it shows. -/
  key : Key
  /-- The value it shows. -/
  value : Bytes
  /-- The sequence number it shows. -/
  seq : UInt64
  /-- Whether what it shows is a tombstone. -/
  tombstone : Bool
deriving DecidableEq

namespace View

/-- What a cursor shows that has nothing to show. -/
def blank : View := ⟨false, .empty, [], 0, false⟩

/-- What a cursor shows at an entry. -/
def ofEntry (entry : Entry) : View := ⟨true, entry.key, entry.value, entry.seq, entry.isTombstone⟩

end View

/-- The end of a range of keys, on either side. -/
inductive Bound where
  /-- The side is open. -/
  | unbounded
  /-- The range ends with the key. -/
  | included (key : Key)
  /-- The range ends next to the key. -/
  | excluded (key : Key)
deriving DecidableEq

/-- Whether a key lies on the near side of an upper end. -/
def Bound.admitsBelow (bound : Bound) (key : Key) : Bool :=
  match bound with
  | unbounded => true
  | included last => key ≤ last
  | excluded after => key < after

/-- Forward cursors over entries. Nothing says that they come to an end. -/
class Forward (σ : Type) where
  /-- What the cursor shows. -/
  view : σ → View
  /-- Goes to the next entry. -/
  next : Disk → σ → Step σ Fault
  /-- Goes to the first entry whose key is not below the given one. -/
  seek : Disk → Key → σ → Step σ Fault
  /-- Releases what the cursor holds. -/
  close : σ → Step σ Fault
  /-- How many cursors that have no cursors under them work for this one. -/
  active : σ → Nat

/-- Forward cursors that come to an end. -/
class Cursor (σ : Type) extends Forward σ where
  /-- A bound on how many entries the cursor can still reach. -/
  budget : σ → Nat
  /-- Reaching an entry uses up some of the bound. -/
  budget_next_lt : ∀ (disk : Disk) (cursor : σ), (next disk cursor).fault = none →
    (view (next disk cursor).state).valid = true → budget (next disk cursor).state < budget cursor

namespace Cursor

export Forward (view next seek close active)

variable {σ : Type} [Forward σ]

/-- Whether a cursor stands at an entry. -/
def isValid (cursor : σ) : Bool := (view cursor).valid

/-- The key a cursor shows. -/
def key (cursor : σ) : Key := (view cursor).key

end Cursor

end SortedTables
