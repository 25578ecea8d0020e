import SortedTables.Proofs.Cursor.Walk

/-!
# Draining a cursor

Whoever wants all entries of a cursor moves it until it stands nowhere. `Cursor.Drains` is such a walk
without a fault. Unlike `Cursor.Walks` it also gives the cursor that is left at the end, so that it can
be said in what state a cursor is used up: what all moves keep holds of that cursor
(`Cursor.Drains.invariant`). `Cursor.Passes` is the part of a walk up to some place.
-/

namespace SortedTables

namespace Cursor

variable {σ α : Type} [Cursor σ] {disk : Disk} {look : σ → Option α} {cursor last : σ}
  {seen : List α}

/-- What is seen of a cursor that is moved without a fault until it stands nowhere, and what is left of
it then. -/
inductive Drains (disk : Disk) (look : σ → Option α) : σ → List α → σ → Prop where
  | atEnd {cursor : σ} (nothing : look cursor = none) : Drains disk look cursor [] cursor
  | goesOn {cursor last : σ} {shown : α} {later : List α} (here : look cursor = some shown)
      (moved : (next disk cursor).fault = none)
      (rest : Drains disk look (next disk cursor).state later last) :
      Drains disk look cursor (shown :: later) last

/-- What is seen of a cursor that is moved over some places without a fault, and the cursor behind
them. -/
inductive Passes (disk : Disk) (look : σ → Option α) : σ → List α → σ → Prop where
  | stays {cursor : σ} : Passes disk look cursor [] cursor
  | moves {cursor last : σ} {shown : α} {later : List α} (here : look cursor = some shown)
      (moved : (next disk cursor).fault = none)
      (rest : Passes disk look (next disk cursor).state later last) :
      Passes disk look cursor (shown :: later) last

/-- A walk that ends without a fault drains the cursor. -/
theorem Walks.exists_drains (walks : Walks disk look cursor seen none) :
    ∃ last, Drains disk look cursor seen last := by
  generalize ended : (none : Option Fault) = ending at walks
  induction walks with
  | @atEnd cursor nothing => exact ⟨cursor, .atEnd nothing⟩
  | fails _ _ => cases ended
  | goesOn here moved _ ih =>
    obtain ⟨last, rest⟩ := ih ended
    exact ⟨last, .goesOn here moved rest⟩

/-- A cursor that was drained shows nothing any more. -/
theorem Drains.look_last (drains : Drains disk look cursor seen last) : look last = none := by
  induction drains with
  | atEnd nothing => exact nothing
  | goesOn _ _ _ ih => exact ih

/-- What every move from an entry keeps holds of a cursor that was drained. -/
theorem Drains.invariant (Kept : σ → Prop) (drains : Drains disk look cursor seen last)
    (start : Kept cursor)
    (step : ∀ cursor, Kept cursor → (look cursor).isSome = true →
      (next disk cursor).fault = none → Kept (next disk cursor).state) : Kept last := by
  induction drains with
  | atEnd _ => exact start
  | goesOn here moved _ ih => exact ih (step _ start (by rw [here]; rfl) moved)

/-- A cursor is drained of one list only. -/
theorem Drains.unique {other : List α} {otherLast : σ} (drains : Drains disk look cursor seen last)
    (drainsOther : Drains disk look cursor other otherLast) : seen = other := by
  induction drains generalizing other with
  | atEnd nothing =>
    cases drainsOther with
    | atEnd _ => rfl
    | goesOn here _ _ => cases nothing.symm.trans here
  | goesOn here _ _ ih =>
    cases drainsOther with
    | atEnd nothing => cases nothing.symm.trans here
    | goesOn otherHere _ rest =>
      cases here.symm.trans otherHere
      rw [ih rest]

/-- A cursor that was moved over some places is drained by draining what is behind them. -/
theorem Passes.drains {middle : σ} {before : List α} (passes : Passes disk look cursor before middle)
    (drains : Drains disk look middle seen last) : Drains disk look cursor (before ++ seen) last := by
  induction passes with
  | stays => exact drains
  | moves here moved _ ih => exact .goesOn here moved (ih drains)

/-- A cursor that is moved to a place where the next move fails cannot be drained. -/
theorem Passes.not_drains {middle : σ} {before : List α} {shown : α} {fault : Fault}
    (passes : Passes disk look cursor before middle) (here : look middle = some shown)
    (failed : (next disk middle).fault = some fault) : ¬ Drains disk look cursor seen last := by
  intro drains
  induction passes generalizing seen with
  | stays =>
    cases drains with
    | atEnd nothing => cases nothing.symm.trans here
    | goesOn _ moved _ => cases moved.symm.trans failed
  | moves passed _ _ ih =>
    cases drains with
    | atEnd nothing => cases nothing.symm.trans passed
    | goesOn _ _ rest => exact ih here failed rest

end Cursor

end SortedTables
