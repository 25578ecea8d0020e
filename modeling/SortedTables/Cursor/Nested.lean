import SortedTables.Cursor.Bounded
import SortedTables.Cursor.Fused
import SortedTables.Cursor.Merge
import SortedTables.Cursor.Scripted
import SortedTables.TableSource

/-!
# Cursors made of cursors

Bounded, fused and merged cursors are made of other cursors and can be nested in each other to any
depth. `Nested depth` is the type of all cursors with at most that many layers over the sources.
-/

namespace SortedTables

/-- A cursor that has no cursors under it. -/
inductive Leaf where
  /-- A scripted one. -/
  | scripted (cursor : Scripted)
  /-- One over a table. -/
  | table (source : TableSource)
deriving DecidableEq

namespace Leaf

instance : Cursor Leaf where
  view
    | scripted cursor => Cursor.view cursor
    | table source => Cursor.view source
  next disk
    | scripted cursor => (Cursor.next disk cursor).map scripted
    | table source => (Cursor.next disk source).map table
  seek disk key
    | scripted cursor => (Cursor.seek disk key cursor).map scripted
    | table source => (Cursor.seek disk key source).map table
  close
    | scripted cursor => (Cursor.close cursor).map scripted
    | table source => (Cursor.close source).map table
  active _ := 1
  budget
    | scripted cursor => Cursor.budget cursor
    | table source => Cursor.budget source
  budget_next_lt disk leaf moved valid :=
    match leaf with
    | scripted cursor => Cursor.budget_next_lt disk cursor moved valid
    | table source => Cursor.budget_next_lt disk source moved valid

end Leaf

/-- A cursor without cursors under it, or one layer over cursors of a type. -/
inductive Layer (σ : Type) where
  /-- No cursors under it. -/
  | leaf (leaf : Leaf)
  /-- A cursor within bounds. -/
  | bounded (cursor : Bounded σ)
  /-- A merge. -/
  | merge (cursor : Merge σ)
  /-- A cursor that fails once. -/
  | fused (cursor : Fused σ)

namespace Layer

variable {σ : Type} [Cursor σ]

instance : Cursor (Layer σ) where
  view
    | leaf cursor => Cursor.view cursor
    | bounded cursor => Cursor.view cursor
    | merge cursor => Cursor.view cursor
    | fused cursor => Cursor.view cursor
  next disk
    | leaf cursor => (Cursor.next disk cursor).map leaf
    | bounded cursor => (Cursor.next disk cursor).map bounded
    | merge cursor => (Cursor.next disk cursor).map merge
    | fused cursor => (Cursor.next disk cursor).map fused
  seek disk key
    | leaf cursor => (Cursor.seek disk key cursor).map leaf
    | bounded cursor => (Cursor.seek disk key cursor).map bounded
    | merge cursor => (Cursor.seek disk key cursor).map merge
    | fused cursor => (Cursor.seek disk key cursor).map fused
  close
    | leaf cursor => (Cursor.close cursor).map leaf
    | bounded cursor => (Cursor.close cursor).map bounded
    | merge cursor => (Cursor.close cursor).map merge
    | fused cursor => (Cursor.close cursor).map fused
  active
    | leaf cursor => Cursor.active cursor
    | bounded cursor => Cursor.active cursor
    | merge cursor => Cursor.active cursor
    | fused cursor => Cursor.active cursor
  budget
    | leaf cursor => Cursor.budget cursor
    | bounded cursor => Cursor.budget cursor
    | merge cursor => Cursor.budget cursor
    | fused cursor => Cursor.budget cursor
  budget_next_lt disk layer moved valid :=
    match layer with
    | leaf cursor => Cursor.budget_next_lt disk cursor moved valid
    | bounded cursor => Cursor.budget_next_lt disk cursor moved valid
    | merge cursor => Cursor.budget_next_lt disk cursor moved valid
    | fused cursor => Cursor.budget_next_lt disk cursor moved valid

/-- A layer over cursors, given what makes them cursors. -/
@[reducible, noinline, nospecialize]
def cursor (inner : Cursor σ) : Cursor (Layer σ) :=
  inferInstance

end Layer

/-- The cursors with at most a number of layers. -/
def Nested : Nat → Type
  | 0 => Leaf
  | depth + 1 => Layer (Nested depth)

namespace Nested

/-- Cursors of any depth are cursors. -/
@[reducible]
def cursor : (depth : Nat) → Cursor (Nested depth)
  | 0 => inferInstanceAs (Cursor Leaf)
  | depth + 1 => Layer.cursor (cursor depth)

instance (depth : Nat) : Cursor (Nested depth) := cursor depth

/-- A cursor without cursors under it, at any depth. -/
def ofLeaf : (depth : Nat) → Leaf → Nested depth
  | 0, leaf => leaf
  | _ + 1, leaf => Layer.leaf leaf

/-- The scripted cursors in a cursor, in listing order, released ones included. -/
def scripted : (depth : Nat) → Nested depth → List Scripted
  | 0, leaf => ofLeaf leaf
  | depth + 1, layer =>
    match layer with
    | .leaf leaf => ofLeaf leaf
    | .bounded cursor => scripted depth cursor.inner
    | .merge cursor => cursor.sources.flatMap (scripted depth)
    | .fused cursor => scripted depth cursor.inner
where
  /-- The cursor itself, if it is scripted. -/
  ofLeaf : Leaf → List Scripted
    | .scripted cursor => [cursor]
    | .table _ => []

end Nested

end SortedTables
