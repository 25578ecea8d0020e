import SortedTables.Cursor.Basic

/-!
# Scripted cursors

A cursor over a given list of entries, which need not be sorted, that fails when its script says so
and counts what it was asked to do. It stands in for a table wherever the treatment of faults is at
issue: its counts show which operations reached it, and its script can fail any of them.
-/

namespace SortedTables

/-- A cursor over a list of entries. -/
structure Scripted where
  /-- The name it fails under. -/
  name : String
  /-- The entries. -/
  entries : List Entry
  /-- Which of the moves to a next entry fails, counted from one. -/
  failingAdvance : Option Nat
  /-- Whether seeking fails. -/
  failsSeek : Bool
  /-- Whether closing fails. -/
  failsClose : Bool
  /-- How many entries stand before the current one. -/
  index : Nat
  /-- How often it was asked to go to the next entry. -/
  advances : Nat
  /-- How often it was asked to go to a key. -/
  seeks : Nat
  /-- How often it was asked to close. -/
  closes : Nat
deriving DecidableEq

namespace Scripted

/-- A cursor that was asked nothing yet. -/
def ofEntries (name : String) (entries : List Entry) (failingAdvance : Option Nat)
    (failsSeek failsClose : Bool) : Scripted where
  name
  entries
  failingAdvance
  failsSeek
  failsClose
  index := 0
  advances := 0
  seeks := 0
  closes := 0

/-- What the cursor shows. -/
def view (cursor : Scripted) : View :=
  match cursor.entries[cursor.index]? with
  | none => .blank
  | some entry => .ofEntry entry

/-- Goes to the next entry, unless this is the move that fails. -/
def next (cursor : Scripted) : Step Scripted Fault :=
  let asked := { cursor with advances := cursor.advances + 1 }
  if asked.failingAdvance = some asked.advances then
    .failed asked (.scripted asked.name .advance)
  else if asked.index < asked.entries.length then
    .done { asked with index := asked.index + 1 }
  else
    .done asked

/-- Goes forward to the first entry whose key is not below the given one. -/
def seek (key : Key) (cursor : Scripted) : Step Scripted Fault :=
  let asked := { cursor with seeks := cursor.seeks + 1 }
  if asked.failsSeek then
    .failed asked (.scripted asked.name .seek)
  else
    let below := (asked.entries.drop asked.index).takeWhile (·.key < key)
    .done { asked with index := asked.index + below.length }

/-- Counts a release. -/
def close (cursor : Scripted) : Step Scripted Fault :=
  let asked := { cursor with closes := cursor.closes + 1 }
  if asked.failsClose then .failed asked (.scripted asked.name .close) else .done asked

instance : Cursor Scripted where
  view := view
  next _ := next
  seek _ := seek
  close := close
  active _ := 1
  budget cursor := cursor.entries.length - cursor.index
  budget_next_lt := by
    intro _ cursor moved valid
    unfold next at moved valid ⊢
    dsimp only at moved valid ⊢
    split
    · next failing => simp [failing] at moved
    · next fine =>
      simp only [fine, if_false] at valid
      split
      · simp only [Step.state_done]
        omega
      · next behind =>
        simp only [behind, if_false, Step.state_done, view] at valid
        rw [List.getElem?_eq_none (by omega)] at valid
        simp [View.blank] at valid

end Scripted

end SortedTables
