import SortedTables.Cursor.Basic

/-!
# Watching a cursor

What was asked of a cursor cannot be told from what it shows. A `Watched` cursor is the cursor that it
was at first together with the requests since then, so that it can be said how often and when it was
moved and released, and which of these requests failed (`Watched.outcomes`).

A watched cursor shows and does what the cursor under it would (`Watched.conveys`). So whoever treats
all cursors alike does with a watched one what is done with the cursor itself.
-/

namespace SortedTables

/-- What a cursor is asked to do, with the files as they are then. -/
inductive Request where
  /-- To go to the next entry. -/
  | next (disk : Disk)
  /-- To go to the first entry whose key is not below the given one. -/
  | seek (disk : Disk) (key : Key)
  /-- To release what it holds. -/
  | close

namespace Request

variable {σ : Type} [Forward σ]

/-- What a cursor does when it is asked. -/
def run (cursor : σ) : Request → Step σ Fault
  | next disk => Cursor.next disk cursor
  | seek disk key => Cursor.seek disk key cursor
  | close => Cursor.close cursor

/-- The cursor behind requests. -/
def replay (cursor : σ) : List Request → σ
  | [] => cursor
  | request :: later => replay (request.run cursor).state later

/-- Requests, each with the fault that it met. -/
def outcomes (cursor : σ) : List Request → List (Request × Option Fault)
  | [] => []
  | request :: later =>
    (request, (request.run cursor).fault) :: outcomes (request.run cursor).state later

/-- Whether the cursor is asked to release what it holds. -/
def isClose : Request → Bool
  | close => true
  | next _ | seek _ _ => false

/-- Only one request is to release. -/
theorem isClose_iff {request : Request} : request.isClose = true ↔ request = close := by
  cases request <;> simp [isClose]

/-- The last of several requests is made of the cursor behind the others. -/
theorem replay_concat (cursor : σ) (requests : List Request) (request : Request) :
    replay cursor (requests ++ [request]) = (request.run (replay cursor requests)).state := by
  induction requests generalizing cursor with
  | nil => rfl
  | cons first later ih => exact ih _

/-- The last of several requests meets the fault of the cursor behind the others. -/
theorem outcomes_concat (cursor : σ) (requests : List Request) (request : Request) :
    outcomes cursor (requests ++ [request]) =
      outcomes cursor requests ++ [(request, (request.run (replay cursor requests)).fault)] := by
  induction requests generalizing cursor with
  | nil => rfl
  | cons first later ih => exact congrArg (_ :: ·) (ih _)

end Request

/-- A cursor with all that was asked of it. -/
structure Watched (σ : Type) where
  /-- The cursor before the first request. -/
  origin : σ
  /-- The requests, the first one first. -/
  requests : List Request

namespace Watched

variable {σ : Type} [Forward σ]

/-- A cursor of which nothing was asked yet. -/
def ofCursor (cursor : σ) : Watched σ := ⟨cursor, []⟩

/-- The cursor behind the requests. -/
def cursor (watched : Watched σ) : σ := Request.replay watched.origin watched.requests

/-- The requests, each with the fault that it met. -/
def outcomes (watched : Watched σ) : List (Request × Option Fault) :=
  Request.outcomes watched.origin watched.requests

/-- Whether the cursor was asked to release what it holds. -/
def isClosed (watched : Watched σ) : Bool := watched.requests.any Request.isClose

/-- Makes a request and notes it. -/
def note (request : Request) (watched : Watched σ) : Step (Watched σ) Fault :=
  ⟨⟨watched.origin, watched.requests ++ [request]⟩, (request.run watched.cursor).fault⟩

instance : Forward (Watched σ) where
  view watched := Cursor.view watched.cursor
  next disk := note (.next disk)
  seek disk key := note (.seek disk key)
  close := note .close
  active watched := Cursor.active watched.cursor

@[simp]
theorem origin_note (request : Request) (watched : Watched σ) :
    (watched.note request).state.origin = watched.origin := rfl

@[simp]
theorem requests_note (request : Request) (watched : Watched σ) :
    (watched.note request).state.requests = watched.requests ++ [request] := rfl

@[simp]
theorem fault_note (request : Request) (watched : Watched σ) :
    (watched.note request).fault = (request.run watched.cursor).fault := rfl

@[simp]
theorem cursor_note (request : Request) (watched : Watched σ) :
    (watched.note request).state.cursor = (request.run watched.cursor).state :=
  Request.replay_concat _ _ _

@[simp]
theorem outcomes_note (request : Request) (watched : Watched σ) :
    (watched.note request).state.outcomes =
      watched.outcomes ++ [(request, (request.run watched.cursor).fault)] :=
  Request.outcomes_concat _ _ _

@[simp]
theorem isClosed_note (request : Request) (watched : Watched σ) :
    (watched.note request).state.isClosed = (watched.isClosed || request.isClose) := by
  simp [isClosed]

instance {τ : Type} [Cursor τ] : Cursor (Watched τ) where
  budget watched := Cursor.budget watched.cursor
  budget_next_lt := by
    intro disk watched moved valid
    have reached : (note (.next disk) watched).state.cursor =
        (Cursor.next disk watched.cursor).state := cursor_note _ _
    change (Cursor.view (note (.next disk) watched).state.cursor).valid = true at valid
    change Cursor.budget (note (.next disk) watched).state.cursor < _
    rw [reached] at valid ⊢
    exact Cursor.budget_next_lt disk watched.cursor moved valid

end Watched

namespace Cursor

/-- A function gives cursors that show and do the same as those that it is given. -/
structure Conveys {σ τ : Type} [Forward σ] [Forward τ] (f : σ → τ) : Prop where
  /-- They show the same. -/
  view : ∀ cursor, view (f cursor) = view cursor
  /-- They go to the same entries. -/
  next : ∀ disk cursor, next disk (f cursor) = (next disk cursor).map f
  /-- They seek alike. -/
  seek : ∀ disk key cursor, seek disk key (f cursor) = (seek disk key cursor).map f
  /-- They are released alike. -/
  close : ∀ cursor, close (f cursor) = (close cursor).map f

end Cursor

namespace Request

variable {σ τ : Type} [Forward σ] [Forward τ] {f : σ → τ} (conveys : Cursor.Conveys f)

include conveys

/-- Cursors that show and do the same take a request alike. -/
theorem run_conveyed (cursor : σ) (request : Request) :
    request.run (f cursor) = (request.run cursor).map f := by
  cases request with
  | next disk => exact conveys.next disk cursor
  | seek disk key => exact conveys.seek disk key cursor
  | close => exact conveys.close cursor

/-- Cursors that show and do the same are so behind all requests. -/
theorem replay_conveyed (cursor : σ) (requests : List Request) :
    replay (f cursor) requests = f (replay cursor requests) := by
  induction requests generalizing cursor with
  | nil => rfl
  | cons request later ih => simp only [replay, run_conveyed conveys, Step.state_map, ih]

/-- Cursors that show and do the same meet the same faults. -/
theorem outcomes_conveyed (cursor : σ) (requests : List Request) :
    outcomes (f cursor) requests = outcomes cursor requests := by
  induction requests generalizing cursor with
  | nil => rfl
  | cons request later ih =>
    simp only [outcomes, run_conveyed conveys, Step.fault_map, Step.state_map, ih]

end Request

/-- The cursor under a watched one shows and does the same. -/
theorem Watched.conveys {σ : Type} [Forward σ] : Cursor.Conveys (cursor : Watched σ → σ) where
  view _ := rfl
  next disk watched := by
    change (Request.next disk).run watched.cursor = (watched.note (.next disk)).map cursor
    rw [Step.map, cursor_note, fault_note]
  seek disk key watched := by
    change (Request.seek disk key).run watched.cursor = (watched.note (.seek disk key)).map cursor
    rw [Step.map, cursor_note, fault_note]
  close watched := by
    change Request.close.run watched.cursor = (watched.note .close).map cursor
    rw [Step.map, cursor_note, fault_note]

end SortedTables
