import SortedTables.Cursor.Basic

/-!
# Cursors that fail once

A fused cursor moves another cursor until that fails. From then on it shows no entry and refuses to
move, so that nobody goes on with a cursor whose place is in doubt.
-/

namespace SortedTables

/-- A cursor that does not go on after a fault. -/
structure Fused (σ : Type) where
  /-- The cursor whose entries are shown. -/
  inner : σ
  /-- Whether a move failed. -/
  hasFailed : Bool

namespace Fused

variable {σ : Type} [Forward σ]

/-- A cursor that has not failed yet. -/
def ofCursor (inner : σ) : Fused σ := ⟨inner, false⟩

/-- What the cursor shows. -/
def view (fused : Fused σ) : View :=
  let inner := Cursor.view fused.inner
  { inner with valid := !fused.hasFailed && inner.valid }

/-- Takes a move of the inner cursor, noting a fault. -/
def adopt (step : Step σ Fault) : Step (Fused σ) Fault :=
  ⟨⟨step.state, step.fault.isSome⟩, step.fault⟩

/-- Goes to the next entry, unless there is no current one. -/
def next (disk : Disk) (fused : Fused σ) : Step (Fused σ) Fault :=
  if fused.hasFailed then .failed fused .alreadyFailed
  else if Cursor.isValid fused.inner then adopt (Cursor.next disk fused.inner)
  else .done fused

/-- Goes to a key. -/
def seek (disk : Disk) (key : Key) (fused : Fused σ) : Step (Fused σ) Fault :=
  if fused.hasFailed then .failed fused .alreadyFailed
  else adopt (Cursor.seek disk key fused.inner)

instance : Forward (Fused σ) where
  view := view
  next := next
  seek := seek
  close fused := (Cursor.close fused.inner).map ({ fused with inner := · })
  active fused := Cursor.active fused.inner

instance {τ : Type} [Cursor τ] : Cursor (Fused τ) where
  budget fused := Cursor.budget fused.inner
  budget_next_lt := by
    intro disk fused moved valid
    change (next disk fused).fault = none at moved
    change (view (next disk fused).state).valid = true at valid
    change Cursor.budget (next disk fused).state.inner < Cursor.budget fused.inner
    unfold next at moved valid ⊢
    by_cases failed : fused.hasFailed = true
    · simp [failed] at moved
    · simp only [failed, Bool.false_eq_true, if_false] at moved valid ⊢
      by_cases standing : Cursor.isValid fused.inner = true
      · simp only [standing, if_true, adopt, view, Bool.and_eq_true] at moved valid ⊢
        exact Cursor.budget_next_lt disk fused.inner moved valid.2
      · simp only [standing, Bool.false_eq_true, if_false, Step.state_done, view, failed,
          Bool.not_false, Bool.true_and] at valid
        exact absurd valid standing

end Fused

end SortedTables
