import SortedTables.Cursor.Basic

/-!
# Streams of keys

A stream hands out the keys of a cursor, each with whether it is deleted, until the cursor is used
up, gets behind an upper end, or fails. After that it hands out nothing. The cursor moves only when a
key is asked for, and not for the first one.

Closing releases the cursor, once. That this fails matters only as long as the stream was not used
up, since the keys handed out until then may not be all.
-/

namespace SortedTables

/-- Which keys are read. -/
inductive ReadMode where
  /-- The keys whose entry is a write. -/
  | live
  /-- All keys, deleted ones included. -/
  | withTombstones
deriving DecidableEq

/-- What a stream has come to. -/
inductive StreamPhase where
  /-- No key was asked for. -/
  | fresh
  /-- Keys were handed out. -/
  | running
  /-- All keys were handed out. -/
  | exhausted
  /-- The cursor failed. -/
  | failed
deriving DecidableEq

/-- A stream of the keys of a cursor. -/
structure KeyStream (σ : Type) where
  /-- Which keys are read. -/
  mode : ReadMode
  /-- The cursor; none if there is nothing to read. It stays here, out of use, when the stream is
  closed. -/
  source : Option σ
  /-- The upper end. -/
  upper : Bound
  /-- What the stream has come to. -/
  phase : StreamPhase
  /-- Whether the cursor was released. -/
  isClosed : Bool

namespace KeyStream

variable {σ : Type} [Forward σ]

/-- The stream of a cursor up to an end. -/
def ofCursor (mode : ReadMode) (source : σ) (upper : Bound) : KeyStream σ :=
  ⟨mode, some source, upper, .fresh, false⟩

/-- The stream of nothing, which needs no closing. -/
def empty (mode : ReadMode) : KeyStream σ :=
  ⟨mode, none, .unbounded, .exhausted, true⟩

/-- A pulled key, and whether it is deleted. -/
abbrev Pulled : Type := Key × Bool

/-- Hands out what a cursor shows, unless it shows nothing or is behind the end. -/
def hand (stream : KeyStream σ) (source : σ) :
    Option (Except ReaderFault Pulled) × KeyStream σ :=
  let view := Cursor.view source
  if view.valid && stream.upper.admitsBelow view.key then
    (some (.ok (view.key, view.tombstone)),
      { stream with source := some source, phase := .running })
  else
    (none, { stream with source := some source, phase := .exhausted })

/-- Pulls the next key. -/
def next (disk : Disk) (stream : KeyStream σ) :
    Option (Except ReaderFault Pulled) × KeyStream σ :=
  if stream.isClosed then
    (none, stream)
  else
    match stream.source, stream.phase with
    | none, _ | _, .exhausted | _, .failed => (none, stream)
    | some source, .fresh => stream.hand source
    | some source, .running =>
      let step := Cursor.next disk source
      match step.fault with
      | none => stream.hand step.state
      | some fault =>
        (some (.error (.ofFault none fault)),
          { stream with source := some step.state, phase := .failed })

/-- Pulls the next key and not whether it is deleted. -/
def nextKey (disk : Disk) (stream : KeyStream σ) :
    Option (Except ReaderFault Key) × KeyStream σ :=
  let (pulled, after) := stream.next disk
  (pulled.map (·.map Prod.fst), after)

/-- Releases the cursor, unless it was released before. -/
def close (stream : KeyStream σ) : Step (KeyStream σ) ReaderFault :=
  match stream.source, stream.isClosed with
  | none, _ | _, true => .done stream
  | some source, false =>
    let step := Cursor.close source
    let closed := { stream with source := some step.state, isClosed := true }
    match step.fault with
    | none => .done closed
    | some fault =>
      if stream.phase = .exhausted then .done closed else .failed closed (.release fault)

/-- Gives the stream up. A cursor that was not released is released then, and a fault of that is
dropped. -/
def drop (stream : KeyStream σ) : KeyStream σ :=
  stream.close.state

end KeyStream

end SortedTables
