import SortedTables.Cursor.Bounded
import SortedTables.Proofs.Order

/-!
# Walking a cursor to its end

`Cursor.Walks` is what is seen of a cursor that is moved until it stands nowhere or fails. It is
justified by the moves alone and says nothing about how the cursor works. Every cursor over files is
treated by showing what it walks through; restricting it to an upper end is treated here, for all
cursors at once.

A walk ends with the first fault. A cursor that fails when it is made does not walk at all.
-/

namespace SortedTables

namespace View

/-- The entry that a view shows. -/
def showing? (view : View) : Option Entry :=
  if view.valid then
    some ⟨view.key, view.seq, if view.tombstone then .delete else .put, view.value⟩
  else
    none

/-- The view of an entry shows it. -/
theorem showing?_ofEntry (entry : Entry) : (ofEntry entry).showing? = some entry := by
  obtain ⟨key, seq, kind, value⟩ := entry
  cases kind <;> rfl

/-- What shows an entry is the view of it. -/
theorem eq_ofEntry {view : View} {entry : Entry} (here : view.showing? = some entry) :
    view = .ofEntry entry := by
  obtain ⟨valid, key, value, seq, tombstone⟩ := view
  cases valid with
  | false => cases here
  | true =>
    cases here
    cases tombstone <;> rfl

/-- A view shows an entry if it is valid. -/
theorem isSome_showing? (view : View) : view.showing?.isSome = view.valid := by
  unfold showing?
  cases view.valid <;> rfl

end View

namespace Cursor

variable {σ α β : Type} [Cursor σ] {disk : Disk}

/-- What is seen of a cursor until it stands nowhere, or until a move fails: what it shows at each
place, and the fault of that move. -/
inductive Walks (disk : Disk) (look : σ → Option α) : σ → List α → Option Fault → Prop where
  | atEnd {cursor : σ} (nothing : look cursor = none) : Walks disk look cursor [] none
  | fails {cursor : σ} {shown : α} {fault : Fault} (here : look cursor = some shown)
      (failed : (next disk cursor).fault = some fault) : Walks disk look cursor [shown] (some fault)
  | goesOn {cursor : σ} {shown : α} {later : List α} {ending : Option Fault}
      (here : look cursor = some shown) (moved : (next disk cursor).fault = none)
      (rest : Walks disk look (next disk cursor).state later ending) :
      Walks disk look cursor (shown :: later) ending

/-- The entry that a cursor stands at. -/
def showing? (cursor : σ) : Option Entry :=
  (view cursor).showing?

/-- A cursor that stands at no entry shows nothing. -/
theorem valid_of_showing?_eq_none {cursor : σ} (nothing : showing? cursor = none) :
    (view cursor).valid = false := by
  rw [← View.isSome_showing?]
  exact congrArg Option.isSome nothing

namespace Walks

variable {look : σ → Option α} {cursor : σ} {seen : List α} {ending : Option Fault}

/-- Looking at a cursor in another way shows the same places. -/
theorem map {other : σ → Option β} {f : α → β} (walks : Walks disk look cursor seen ending)
    (same : ∀ cursor, other cursor = (look cursor).map f) :
    Walks disk other cursor (seen.map f) ending := by
  induction walks with
  | atEnd nothing => exact .atEnd (by rw [same, nothing]; rfl)
  | fails here failed => exact .fails (by rw [same, here]; rfl) failed
  | goesOn here moved _ ih => exact .goesOn (by rw [same, here]; rfl) moved ih

/-- A cursor inside another one that shows and moves just it walks through the same. -/
theorem lift {τ : Type} [Cursor τ] (walks : Walks disk look cursor seen ending) (wrap : σ → τ)
    (outer : τ → Option α) (shows : ∀ cursor, outer (wrap cursor) = look cursor)
    (moves : ∀ cursor, next disk (wrap cursor) = (next disk cursor).map wrap) :
    Walks disk outer (wrap cursor) seen ending := by
  induction walks with
  | atEnd nothing => exact .atEnd ((shows _).trans nothing)
  | fails here failed => exact .fails ((shows _).trans here) (by rw [moves]; exact failed)
  | goesOn here moved _ ih =>
    refine .goesOn ((shows _).trans here) (by rw [moves]; exact moved) ?_
    rw [moves]
    exact ih

/-- What is seen first is what the cursor shows. -/
theorem head?_eq (walks : Walks disk look cursor seen ending) : seen.head? = look cursor := by
  cases walks with
  | atEnd nothing => exact nothing.symm
  | fails here _ => exact here.symm
  | goesOn here _ _ => exact here.symm

/-- A cursor that stands nowhere has no fault to come. -/
theorem ending_eq_none (walks : Walks disk look cursor seen ending) (nothing : seen = []) :
    ending = none := by
  cases walks with
  | atEnd _ => rfl
  | fails _ _ => cases nothing
  | goesOn _ _ _ => cases nothing

/-- A move that succeeds leads on to what was behind the first place. -/
theorem tail (walks : Walks disk look cursor seen ending) {shown : α} {later : List α}
    (whole : seen = shown :: later) (moved : (next disk cursor).fault = none) :
    Walks disk look (next disk cursor).state later ending := by
  cases walks with
  | atEnd _ => cases whole
  | fails _ failed => cases failed.symm.trans moved
  | goesOn _ _ rest =>
    cases whole
    exact rest

/-- A move that fails ends the walk at the first place. -/
theorem of_failed (walks : Walks disk look cursor seen ending) {shown : α} {later : List α}
    {fault : Fault} (whole : seen = shown :: later)
    (failed : (next disk cursor).fault = some fault) : later = [] ∧ ending = some fault := by
  cases walks with
  | atEnd _ => cases whole
  | fails _ other =>
    cases whole
    exact ⟨rfl, other.symm.trans failed⟩
  | goesOn _ moved _ => cases failed.symm.trans moved

end Walks

end Cursor

namespace Bounded

open Cursor

variable {σ : Type} [Cursor σ] {disk : Disk} {upper : Bound}

/-- At an admitted entry there is nothing to take note of. -/
theorem noteEnd_of_admitted {inner : σ} {entry : Entry} (here : showing? inner = some entry)
    (admitted : upper.admitsBelow entry.key = true) :
    noteEnd ⟨inner, upper, false⟩ = ⟨inner, upper, false⟩ := by
  have shown := View.eq_ofEntry here
  simp [noteEnd, shown, View.ofEntry, admitted]

/-- Moving on from an admitted entry is moving the inner cursor on. -/
theorem next_of_admitted {inner : σ} {entry : Entry} (here : showing? inner = some entry)
    (admitted : upper.admitsBelow entry.key = true) :
    Cursor.next disk (noteEnd ⟨inner, upper, false⟩) =
      adopt ⟨inner, upper, false⟩ (Cursor.next disk inner) := by
  have shown := View.eq_ofEntry here
  rw [noteEnd_of_admitted here admitted]
  simp [Cursor.next, Bounded.next, Bounded.view, shown, View.ofEntry]

/-- A move from an admitted entry that succeeds leads to where the inner cursor is then. -/
theorem next_of_moved {inner : σ} {entry : Entry} (here : showing? inner = some entry)
    (admitted : upper.admitsBelow entry.key = true) (moved : (Cursor.next disk inner).fault = none) :
    Cursor.next disk (noteEnd ⟨inner, upper, false⟩) =
      .done (noteEnd ⟨(Cursor.next disk inner).state, upper, false⟩) := by
  rw [next_of_admitted here admitted, adopt, moved]

/-- An admitted entry is shown. -/
theorem showing?_of_admitted {inner : σ} {entry : Entry} (here : showing? inner = some entry)
    (admitted : upper.admitsBelow entry.key = true) :
    showing? (noteEnd ⟨inner, upper, false⟩) = some entry := by
  rw [noteEnd_of_admitted here admitted, ← here]
  simp [showing?, Cursor.view, Bounded.view]

/-- Behind the upper end nothing is shown. -/
theorem showing?_of_not_admitted {inner : σ} {entry : Entry} (here : showing? inner = some entry)
    (behind : upper.admitsBelow entry.key = false) :
    showing? (noteEnd ⟨inner, upper, false⟩) = none := by
  have shown := View.eq_ofEntry here
  simp [showing?, Cursor.view, Bounded.view, noteEnd, shown, View.ofEntry, behind, View.showing?]

/-- Where the inner cursor shows nothing, nothing is shown. -/
theorem showing?_of_none {inner : σ} (nothing : showing? inner = none) :
    showing? (noteEnd ⟨inner, upper, false⟩) = none := by
  have invalid := valid_of_showing?_eq_none nothing
  simp [showing?, Cursor.view, Bounded.view, noteEnd, invalid, View.showing?]

/-- A cursor that stops at an upper end walks through the entries that it admits. It gets to know of
a later fault only if it admits all entries before. -/
theorem walks_noteEnd (upper : Bound) {inner : σ} {seen : List Entry} {ending : Option Fault}
    (walks : Walks disk showing? inner seen ending) :
    Walks disk showing? (noteEnd ⟨inner, upper, false⟩)
      (seen.takeWhile fun entry => upper.admitsBelow entry.key)
      (if seen.all fun entry => upper.admitsBelow entry.key then ending else none) := by
  have stops {inner : σ} {entry : Entry} (here : showing? inner = some entry)
      (behind : upper.admitsBelow entry.key = false) :
      Walks disk showing? (noteEnd ⟨inner, upper, false⟩) [] none :=
    .atEnd (showing?_of_not_admitted here behind)
  induction walks with
  | atEnd nothing => exact .atEnd (showing?_of_none nothing)
  | @fails inner entry fault here failed =>
    cases admitted : upper.admitsBelow entry.key with
    | true =>
      have passed : (Cursor.next disk (noteEnd ⟨inner, upper, false⟩)).fault = some fault := by
        rw [next_of_admitted here admitted, fault_adopt, failed]
      simpa [admitted] using Walks.fails (showing?_of_admitted here admitted) passed
    | false => simpa [admitted] using stops here admitted
  | @goesOn inner entry later ending here moved _ ih =>
    cases admitted : upper.admitsBelow entry.key with
    | true =>
      have goesOn := next_of_moved here admitted moved
      have passed : (Cursor.next disk (noteEnd ⟨inner, upper, false⟩)).fault = none := by
        rw [goesOn]
        rfl
      have reached : (Cursor.next disk (noteEnd ⟨inner, upper, false⟩)).state =
          noteEnd ⟨(Cursor.next disk inner).state, upper, false⟩ := congrArg Step.state goesOn
      rw [← reached] at ih
      simpa [admitted] using Walks.goesOn (showing?_of_admitted here admitted) passed ih
    | false => simpa [admitted] using stops here admitted

/-- A cursor that shows nothing below a key does not seek it. -/
theorem skipBelow_of_le {inner : σ} {key : Key}
    (above : ∀ entry, showing? inner = some entry → key ≤ entry.key) :
    skipBelow disk key inner = .done inner := by
  cases here : showing? inner with
  | none =>
    have invalid := valid_of_showing?_eq_none here
    simp [skipBelow, invalid]
  | some entry =>
    have shown := View.eq_ofEntry here
    simp [skipBelow, shown, View.ofEntry, above entry here]

/-- A cursor that shows nothing below the lower end is not moved when it is restricted. -/
theorem create_of_le {inner : σ} {lower : Bound}
    (above : lower = .unbounded ∨ ∃ key, lower = .included key ∧
      ∀ entry, showing? inner = some entry → key ≤ entry.key) :
    create disk inner lower upper = .done (noteEnd ⟨inner, upper, false⟩) := by
  rcases above with rfl | ⟨key, rfl, above⟩
  · rfl
  · have stays : skipBelow disk key inner = .done inner := skipBelow_of_le above
    simp [create, skipTo, stays]

end Bounded

end SortedTables
