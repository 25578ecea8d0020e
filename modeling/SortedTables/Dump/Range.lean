import SortedTables.Hex
import SortedTables.Key

/-!
# Key ranges

A dump covers the keys from a lower bound on and below an upper bound; either side may be open. Every
key is at or above the empty key, so an empty lower bound is the same as none and is not kept. An
empty upper bound admits no key and is kept.

The header line of a dump states its range: open sides are empty brackets, so that they differ from
bounds that are empty keys.
-/

namespace SortedTables

/-- The keys from a lower bound on and below an upper bound. -/
structure KeyRange where
  /-- The least key of the range. -/
  lower : Option Key
  /-- The least key behind the range. -/
  upper : Option Key
  /-- No lower bound is empty. -/
  lower_ne_empty : lower ≠ some .empty
deriving DecidableEq

namespace KeyRange

/-- The range between two bounds. -/
def between (lower upper : Option Key) : KeyRange :=
  if h : lower = some .empty then ⟨none, upper, by simp⟩ else ⟨lower, upper, h⟩

/-- The range of all keys. -/
def all : KeyRange := between none none

/-- Whether a key stands before the end of the range. -/
def beforeEnd (range : KeyRange) (key : Key) : Bool :=
  match range.upper with
  | none => true
  | some upper => key < upper

/-- Whether a key stands at or behind the start of the range. -/
def afterStart (range : KeyRange) (key : Key) : Bool :=
  match range.lower with
  | none => true
  | some lower => lower ≤ key

/-- Whether a key belongs to the range. -/
def contains (range : KeyRange) (key : Key) : Bool :=
  range.afterStart key && range.beforeEnd key

/-- A bound as the header shows it. -/
def boundText : Option Key → List Char
  | none => []
  | some key => '\'' :: Hex.encode key.bytes ++ ['\'']

/-- What a header line starts with. -/
def headerStart : List Char := "from [".toList

/-- What stands between the bounds of a header line. -/
def headerMiddle : List Char := "] to [".toList

/-- The header line, without its end. -/
def header (range : KeyRange) : List Char :=
  headerStart ++ boundText range.lower ++ headerMiddle ++ boundText range.upper ++ [']']

end KeyRange

end SortedTables
