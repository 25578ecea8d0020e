import SortedTables.Cursor.Basic

/-!
# Cursors within bounds

A bounded cursor shows the entries of another cursor that lie between two ends. The lower end counts
once, when the bounded cursor is made. When the other cursor gets behind the upper end, the bounded
cursor is at its end for good and does not move the other one any more.
-/

namespace SortedTables

/-- A cursor that stops at an upper end. -/
structure Bounded (σ : Type) where
  /-- The cursor whose entries are shown. -/
  inner : σ
  /-- The upper end. -/
  upper : Bound
  /-- Whether an entry behind the upper end was seen. -/
  reachedEnd : Bool

namespace Bounded

variable {σ : Type} [Cursor σ]

/-- Takes note of the upper end, if the cursor got behind it. -/
def noteEnd (bounded : Bounded σ) : Bounded σ :=
  let inner := Cursor.view bounded.inner
  if bounded.reachedEnd || !inner.valid then bounded
  else { bounded with reachedEnd := !bounded.upper.admitsBelow inner.key }

/-- Seeks a key, if the cursor stands before it. -/
def skipBelow (disk : Disk) (key : Key) (cursor : σ) : Step σ Fault :=
  let view := Cursor.view cursor
  if view.valid && view.key < key then Cursor.seek disk key cursor else .done cursor

/-- Passes an entry, if the cursor stands at its key. -/
def skipAt (disk : Disk) (key : Key) (cursor : σ) : Step σ Fault :=
  let view := Cursor.view cursor
  if view.valid && view.key = key then Cursor.next disk cursor else .done cursor

/-- Brings a cursor behind a lower end. -/
def skipTo (disk : Disk) (lower : Bound) (cursor : σ) : Step σ Fault :=
  match lower with
  | .unbounded => .done cursor
  | .included key => skipBelow disk key cursor
  | .excluded key => (skipBelow disk key cursor).andThen (skipAt disk key)

/-- The part of a cursor between two ends. -/
def create (disk : Disk) (inner : σ) (lower upper : Bound) : Step (Bounded σ) Fault :=
  let step := skipTo disk lower inner
  match step.fault with
  | none => .done (noteEnd ⟨step.state, upper, false⟩)
  | some fault => .failed ⟨step.state, upper, false⟩ fault

/-- What the cursor shows. Behind the end it still shows the entry that it stopped at, but not as
its own. -/
def view (bounded : Bounded σ) : View :=
  let inner := Cursor.view bounded.inner
  { inner with valid := !bounded.reachedEnd && inner.valid }

/-- Takes a move of the inner cursor. -/
def adopt (bounded : Bounded σ) (step : Step σ Fault) : Step (Bounded σ) Fault :=
  match step.fault with
  | none => .done (noteEnd { bounded with inner := step.state })
  | some fault => .failed { bounded with inner := step.state } fault

/-- Goes to the next entry, unless there is no current one. -/
def next (disk : Disk) (bounded : Bounded σ) : Step (Bounded σ) Fault :=
  if (view bounded).valid then bounded.adopt (Cursor.next disk bounded.inner) else .done bounded

/-- Goes to a key, unless the end was reached. -/
def seek (disk : Disk) (key : Key) (bounded : Bounded σ) : Step (Bounded σ) Fault :=
  if bounded.reachedEnd then .done bounded
  else bounded.adopt (Cursor.seek disk key bounded.inner)

theorem inner_noteEnd (bounded : Bounded σ) : bounded.noteEnd.inner = bounded.inner := by
  unfold noteEnd
  dsimp only
  split <;> rfl

theorem inner_adopt (bounded : Bounded σ) (step : Step σ Fault) :
    (bounded.adopt step).state.inner = step.state := by
  unfold adopt
  split
  · simp [inner_noteEnd]
  · rfl

theorem fault_adopt (bounded : Bounded σ) (step : Step σ Fault) :
    (bounded.adopt step).fault = step.fault := by
  unfold adopt
  split <;> simp_all

instance : Cursor (Bounded σ) where
  view := view
  next := next
  seek := seek
  close bounded := (Cursor.close bounded.inner).map ({ bounded with inner := · })
  active bounded := Cursor.active bounded.inner
  budget bounded := Cursor.budget bounded.inner
  budget_next_lt := by
    intro disk bounded moved valid
    unfold next at moved valid ⊢
    by_cases standing : (view bounded).valid = true
    · simp only [standing, if_true, fault_adopt, inner_adopt] at moved valid ⊢
      simp only [view, inner_adopt, Bool.and_eq_true] at valid
      exact Cursor.budget_next_lt disk bounded.inner moved valid.2
    · simp only [standing, Bool.false_eq_true, if_false, Step.state_done] at valid

end Bounded

end SortedTables
