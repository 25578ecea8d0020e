import SortedTables.RawScan
import SortedTables.Table.LiveCursor

/-!
# Sources over tables

A stream of live keys reads each table through its live entries; a stream with tombstones reads each
through a scan of its dump.
-/

namespace SortedTables

/-- A cursor over one table. -/
inductive TableSource where
  /-- Over its live entries. -/
  | live (cursor : LiveCursor)
  /-- Over its dump, with tombstones. -/
  | raw (scan : RawScan)
deriving DecidableEq

namespace TableSource

/-- What the source shows. -/
def view : TableSource → View
  | live cursor => Cursor.view cursor
  | raw scan => Cursor.view scan

/-- Goes to the next entry. -/
def next (disk : Disk) : TableSource → Step TableSource Fault
  | live cursor => (Cursor.next disk cursor).map live
  | raw scan => (Cursor.next disk scan).map raw

/-- Goes to the first entry whose key is not below the given one. -/
def seek (disk : Disk) (key : Key) : TableSource → Step TableSource Fault
  | live cursor => (Cursor.seek disk key cursor).map live
  | raw scan => (Cursor.seek disk key scan).map raw

/-- Releases what the source holds. -/
def close : TableSource → Step TableSource Fault
  | live cursor => (Cursor.close cursor).map live
  | raw scan => (Cursor.close scan).map raw

/-- A bound on the entries the source can still reach. -/
def budget : TableSource → Nat
  | live cursor => Cursor.budget cursor
  | raw scan => Cursor.budget scan

instance : Cursor TableSource where
  view := view
  next := next
  seek := seek
  close := close
  active _ := 1
  budget := budget
  budget_next_lt disk source moved valid :=
    match source with
    | live cursor => Cursor.budget_next_lt disk cursor moved valid
    | raw scan => Cursor.budget_next_lt disk scan moved valid

/-- Opens a table for its live entries, at the first one or at the first one whose key is not below
the given one. -/
def openLive (disk : Disk) (path : String) (key? : Option Key) : Except ReaderFault TableSource :=
  match Table.openPath disk path with
  | .error fault => .error (.fileOpen path (.table fault))
  | .ok table =>
    match LiveCursor.start disk table key? with
    | .error fault => .error (.fileOpen path (.position fault))
    | .ok cursor => .ok (live cursor)

/-- Opens a table for its entries within a range, tombstones included. -/
def openRaw (host : Host) (capability : Capability) (path : String) (range : KeyRange) :
    Except ReaderFault TableSource :=
  (RawScan.openPath host capability path range).map raw

end TableSource

end SortedTables
