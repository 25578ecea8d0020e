import SortedTables.Cursor.Scripted
import SortedTables.Proofs.Cursor.Walk

/-!
# What scripted cursors walk through

A scripted cursor that is not told to fail walks through its entries. One that is told to fail on a move
walks up to the entry that it stands at then. So any outcome of a walk through given entries is that
of some scripted cursor, which makes these the sources to state what happens when sources fail.
-/

namespace SortedTables

namespace Scripted

open Cursor

variable {disk : Disk}

/-- A scripted cursor shows the entry at its place. -/
theorem showing?_eq (cursor : Scripted) : showing? cursor = cursor.entries[cursor.index]? := by
  change (Scripted.view cursor).showing? = _
  unfold Scripted.view
  cases cursor.entries[cursor.index]? with
  | none => rfl
  | some entry => exact View.showing?_ofEntry entry

/-- The entry at the place of a cursor is the first one of those left. -/
theorem getElem?_of_drop {cursor : Scripted} {entry : Entry} {later : List Entry}
    (left : cursor.entries.drop cursor.index = entry :: later) :
    cursor.entries[cursor.index]? = some entry ∧
      cursor.entries.drop (cursor.index + 1) = later := by
  constructor
  · rw [← List.head?_drop, left]
    rfl
  · rw [← List.tail_drop, left]
    rfl

/-- A move that is not told to fail goes from an entry to the next place. -/
theorem next_of_getElem? (disk : Disk) {cursor : Scripted} {entry : Entry}
    (here : cursor.entries[cursor.index]? = some entry)
    (fine : cursor.failingAdvance ≠ some (cursor.advances + 1)) :
    Cursor.next disk cursor =
      .done { cursor with advances := cursor.advances + 1, index := cursor.index + 1 } := by
  have inside := (List.getElem?_eq_some_iff.mp here).1
  change Scripted.next cursor = _
  simp [Scripted.next, fine, inside]

/-- A cursor that is not told to fail walks through the entries from its place on. -/
theorem walks_of_unfailing {cursor : Scripted} {left : List Entry}
    (fine : cursor.failingAdvance = none)
    (isLeft : cursor.entries.drop cursor.index = left) :
    Walks disk showing? cursor left none := by
  induction left generalizing cursor with
  | nil =>
    refine .atEnd ?_
    rw [showing?_eq, ← List.head?_drop, isLeft]
    rfl
  | cons entry later ih =>
    obtain ⟨here, isLater⟩ := getElem?_of_drop isLeft
    have moves := next_of_getElem? disk here (by simp [fine])
    refine .goesOn ((showing?_eq cursor).trans here) (by rw [moves]; rfl) ?_
    rw [moves]
    exact ih fine isLater

/-- A cursor that is told to fail on the move from an entry walks up to that one. -/
theorem walks_of_failing {cursor : Scripted} (front : List Entry) {behind : List Entry}
    {last : Entry}
    (isLeft : cursor.entries.drop cursor.index = front ++ last :: behind)
    (fails : cursor.failingAdvance = some (cursor.advances + front.length + 1)) :
    Walks disk showing? cursor (front ++ [last]) (some (.scripted cursor.name .advance)) := by
  induction front generalizing cursor with
  | nil =>
    obtain ⟨here, _⟩ := getElem?_of_drop isLeft
    refine .fails ((showing?_eq cursor).trans here) ?_
    change (Scripted.next cursor).fault = _
    simp only [List.length_nil, Nat.add_zero] at fails
    simp [Scripted.next, fails]
  | cons entry later ih =>
    obtain ⟨here, isLater⟩ := getElem?_of_drop isLeft
    have notYet : cursor.failingAdvance ≠ some (cursor.advances + 1) := by
      rw [fails, List.length_cons]
      intro same
      have counts := Option.some.inj same
      omega
    have moves := next_of_getElem? disk here notYet
    refine .goesOn ((showing?_eq cursor).trans here) (by rw [moves]; rfl) ?_
    rw [moves]
    refine ih isLater ?_
    change cursor.failingAdvance = some (cursor.advances + 1 + later.length + 1)
    rw [fails, List.length_cons]
    congr 1
    omega

/-- Seeking a key leaves those of ascending entries that are not below it. -/
theorem drop_seek {cursor : Scripted} (seeks : cursor.failsSeek = false)
    (ascends : Ascending cursor.entries) (key : Key) :
    (seek key cursor).state.entries.drop (seek key cursor).state.index =
      (cursor.entries.drop cursor.index).filter fun entry => key ≤ entry.key := by
  have inherited : (cursor.entries.drop cursor.index).Pairwise fun left right =>
      decide (right.key < key) = true → decide (left.key < key) = true :=
    ascends.drop.imp fun ordered below => by
      simp only [decide_eq_true_eq] at below ⊢
      exact lt_trans ordered below
  have behind := drop_takeWhile inherited
  rw [List.drop_drop] at behind
  simpa [seek, seeks, ← not_lt] using behind

end Scripted

end SortedTables
