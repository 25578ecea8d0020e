import SortedTables.Cursor.Fused
import SortedTables.KeyStream
import SortedTables.Proofs.Cursor.Watching

/-!
# The life of a stream

A stream is asked for keys and closed, in any order and as often as its owner likes, and given up in the
end. `KeyStream.Turn` is one such call with the stream that it was made of; the source is watched, so
that a turn shows what it asked of the source and what this shows then. `Turn.Lawful` says what a turn
does behind those before it, and `KeyStream.lifeCycle` that all turns are lawful and that the source is
released once in all. Nothing is assumed of the source: any move of it and its release may fail, its
keys need not ascend, and it need not come to an end.

What the answers have to be is said by the source. As long as each pull finds it at an entry inside of
the upper end, the next one moves it and tells what it finds: a fault, the key of an entry, or nothing.
That a source ran out (`Turn.RanOut`) means that a pull saw it at no such entry, so no other end of a
stream can be taken for this one, nor hide that releasing the source failed.

The invariant is `KeyStream.Since`, which says for each phase of a stream what the turns were that led
to it. A source that refuses to go on behind a fault makes no difference to a stream
(`KeyStream.answers_ofFused`).
-/

namespace SortedTables

/-- What can be asked of a stream. -/
inductive StreamCall where
  /-- The next key, with whether it is deleted. -/
  | entry
  /-- The next key. -/
  | key
  /-- To release the cursor. -/
  | close
deriving DecidableEq

/-- What a stream answers. -/
inductive StreamAnswer where
  /-- A key with whether it is deleted, a fault, or nothing. -/
  | entry (pulled : Option (Except ReaderFault KeyStream.Pulled))
  /-- A key, a fault, or nothing. -/
  | key (pulled : Option (Except ReaderFault Key))
  /-- The fault of closing, if it failed. -/
  | closed (fault : Option ReaderFault)

namespace StreamAnswer

/-- What a pull gave: a key, a fault, or nothing. Closing is no pull. -/
def pulled? : StreamAnswer → Option (Option (Except ReaderFault Key))
  | entry pulled => some (pulled.map (·.map Prod.fst))
  | key pulled => some pulled
  | closed _ => none

/-- Whether a pull gave a key. -/
def isKey (answer : StreamAnswer) : Bool :=
  match answer.pulled? with
  | some (some (.ok _)) => true
  | _ => false

/-- An answer that is a key says which. -/
theorem isKey_iff {answer : StreamAnswer} :
    answer.isKey = true ↔ ∃ key, answer.pulled? = some (some (.ok key)) := by
  unfold isKey
  split
  · next key given => simp [given]
  · next other =>
    constructor
    · intro impossible
      cases impossible
    · rintro ⟨key, given⟩
      exact absurd given (other key)

end StreamAnswer

/-- What is answered to a pull by which this was pulled. Closing is no pull. -/
inductive StreamCall.Tells :
    StreamCall → Option (Except ReaderFault KeyStream.Pulled) → StreamAnswer → Prop
  /-- All of it is told. -/
  | entry (pulled : Option (Except ReaderFault KeyStream.Pulled)) :
      Tells .entry pulled (.entry pulled)
  /-- It is not told whether the key is deleted. -/
  | key (pulled : Option (Except ReaderFault KeyStream.Pulled)) :
      Tells .key pulled (.key (pulled.map (·.map Prod.fst)))

/-- What a pull is known to have given from what was pulled. -/
theorem StreamCall.Tells.pulled?_eq {call : StreamCall} {answer : StreamAnswer}
    {pulled : Option (Except ReaderFault KeyStream.Pulled)} (tells : call.Tells pulled answer) :
    answer.pulled? = some (pulled.map (·.map Prod.fst)) := by
  cases tells <;> rfl

/-- Asks something of a stream. -/
def StreamCall.run {σ : Type} [Forward σ] (disk : Disk) (stream : KeyStream σ) :
    StreamCall → StreamAnswer × KeyStream σ
  | entry => (.entry (stream.next disk).1, (stream.next disk).2)
  | key => (.key (stream.nextKey disk).1, (stream.nextKey disk).2)
  | close => (.closed stream.close.fault, stream.close.state)

namespace KeyStream

/-! ## Handing out -/

/-- Whether what a source shows is an entry inside of the upper end. -/
def Inside (upper : Bound) (shown : View) : Prop :=
  shown.valid = true ∧ upper.admitsBelow shown.key = true

instance (upper : Bound) (shown : View) : Decidable (Inside upper shown) :=
  inferInstanceAs (Decidable (_ ∧ _))

/-- What is to be handed out of what a source shows: the key with its flag, if it is an entry inside of
the upper end. -/
def handed (upper : Bound) (shown : View) : Option (Except ReaderFault Pulled) :=
  if Inside upper shown then some (.ok (shown.key, shown.tombstone)) else none

/-- A stream hands out what is to be handed out of what its source shows, and is used up if this is
nothing. -/
theorem hand_eq {σ : Type} [Forward σ] (stream : KeyStream σ) (source : σ) :
    stream.hand source =
      (handed stream.upper (Cursor.view source),
        { stream with
          source := some source
          phase := if Inside stream.upper (Cursor.view source) then .running else .exhausted }) := by
  by_cases inside : Inside stream.upper (Cursor.view source)
  · rw [handed, if_pos inside, if_pos inside, hand, inside.1, inside.2]
    rfl
  · have outside : ((Cursor.view source).valid &&
        stream.upper.admitsBelow (Cursor.view source).key) = false := by
      simpa [Inside] using inside
    rw [handed, if_neg inside, if_neg inside, hand, outside]
    rfl

section Calls

variable {σ τ : Type} [Forward σ] [Forward τ]

/-- What a stream answers to calls, each made with the files as they are then. -/
def answers (stream : KeyStream σ) : List (Disk × StreamCall) → List StreamAnswer
  | [] => []
  | (disk, call) :: later => (call.run disk stream).1 :: answers (call.run disk stream).2 later

/-- The stream behind calls. -/
def after (stream : KeyStream σ) : List (Disk × StreamCall) → KeyStream σ
  | [] => stream
  | (disk, call) :: later => after (call.run disk stream).2 later

section Opened

variable {mode : ReadMode} {source : σ} {upper : Bound}

/-- A running stream hands out what its source shows behind a move. -/
theorem next_running_of_moved {disk : Disk} (moved : (Cursor.next disk source).fault = none) :
    next disk ⟨mode, some source, upper, .running, false⟩ =
      hand ⟨mode, some source, upper, .running, false⟩ (Cursor.next disk source).state := by
  simp [next, moved]

/-- A running stream hands out the fault of a move, and fails. -/
theorem next_running_of_fault {disk : Disk} {fault : Fault}
    (failed : (Cursor.next disk source).fault = some fault) :
    next disk ⟨mode, some source, upper, .running, false⟩ =
      (some (.error (.ofFault none fault)),
        ⟨mode, some (Cursor.next disk source).state, upper, .failed, false⟩) := by
  simp [next, failed]

/-- Closing releases the source, and reports a fault of that unless the stream was used up. -/
theorem close_opened (phase : StreamPhase) :
    close ⟨mode, some source, upper, phase, false⟩ =
      ⟨⟨mode, some (Cursor.close source).state, upper, phase, true⟩,
        if phase = .exhausted then none else (Cursor.close source).fault.map .release⟩ := by
  cases failed : (Cursor.close source).fault <;> by_cases spent : phase = .exhausted <;>
    simp [close, failed, spent, Step.done, Step.failed]

end Opened

/-- The stream of another source. -/
def mapSource (f : σ → τ) (stream : KeyStream σ) : KeyStream τ :=
  { stream with source := stream.source.map f }

variable {f : σ → τ} (conveys : Cursor.Conveys f)

include conveys

/-- A stream hands out what its source shows. -/
theorem hand_mapSource (stream : KeyStream σ) (source : σ) :
    (stream.mapSource f).hand (f source) =
      ((stream.hand source).1, (stream.hand source).2.mapSource f) := by
  rw [hand_eq, hand_eq, conveys.view source]
  rfl

/-- A stream is pulled alike if its source shows and does the same. -/
theorem next_mapSource (disk : Disk) (stream : KeyStream σ) :
    (stream.mapSource f).next disk =
      ((stream.next disk).1, (stream.next disk).2.mapSource f) := by
  obtain ⟨mode, source?, upper, phase, isClosed⟩ := stream
  cases isClosed with
  | true => simp [next, mapSource]
  | false =>
    cases source? with
    | none => simp [next, mapSource]
    | some source =>
      cases phase with
      | exhausted => simp [next, mapSource]
      | failed => simp [next, mapSource]
      | fresh => exact hand_mapSource conveys _ source
      | running =>
        have moves := conveys.next disk source
        cases failed : (Cursor.next disk source).fault with
        | none =>
          have handed := hand_mapSource conveys ⟨mode, some source, upper, .running, false⟩
            (Cursor.next disk source).state
          have moved : (Cursor.next disk (f source)).fault = none := by rw [moves]; exact failed
          rw [next_running_of_moved failed, ← handed]
          refine (next_running_of_moved moved).trans ?_
          rw [moves]
          rfl
        | some fault =>
          have broke : (Cursor.next disk (f source)).fault = some fault := by rw [moves]; exact failed
          rw [next_running_of_fault failed]
          refine (next_running_of_fault broke).trans ?_
          rw [moves]
          rfl

/-- A stream is closed alike if its source is released alike. -/
theorem close_mapSource (stream : KeyStream σ) :
    (stream.mapSource f).close = stream.close.map (mapSource f) := by
  obtain ⟨mode, source?, upper, phase, isClosed⟩ := stream
  cases source? with
  | none => simp [close, mapSource, Step.map, Step.done]
  | some source =>
    cases isClosed with
    | true => simp [close, mapSource, Step.map, Step.done]
    | false =>
      refine (close_opened phase).trans ?_
      rw [close_opened, conveys.close source]
      rfl

/-- What a stream answers, and what it becomes, is told by what its source shows and does. -/
theorem run_mapSource (disk : Disk) (call : StreamCall) (stream : KeyStream σ) :
    call.run disk (stream.mapSource f) =
      ((call.run disk stream).1, (call.run disk stream).2.mapSource f) := by
  have pulled := next_mapSource conveys disk stream
  cases call with
  | entry => simp only [StreamCall.run, pulled]
  | key => simp only [StreamCall.run, nextKey, pulled]
  | close => simp only [StreamCall.run, close_mapSource conveys, Step.fault_map, Step.state_map]

/-- Streams answer alike if their sources show and do the same. -/
theorem answers_mapSource (stream : KeyStream σ) (calls : List (Disk × StreamCall)) :
    (stream.mapSource f).answers calls = stream.answers calls := by
  induction calls generalizing stream with
  | nil => rfl
  | cons call later ih => simp only [answers, run_mapSource conveys, ih]

end Calls

/-! ## Turns -/

section Turns

variable {σ : Type} [Forward σ] {mode : ReadMode} {upper : Bound}

/-- What was asked of the source of a stream, each request with the fault that it met. -/
def outcomes (stream : KeyStream (Watched σ)) : List (Request × Option Fault) :=
  stream.source.elim [] Watched.outcomes

/-- A call on the stream of a watched source. -/
structure Turn (σ : Type) where
  /-- The files as they are then. -/
  disk : Disk
  /-- What is asked. -/
  call : StreamCall
  /-- The stream before. -/
  before : KeyStream (Watched σ)

namespace Turn

/-- What the stream answers. -/
def answer (turn : Turn σ) : StreamAnswer := (turn.call.run turn.disk turn.before).1

/-- The stream behind the call. -/
def after (turn : Turn σ) : KeyStream (Watched σ) := (turn.call.run turn.disk turn.before).2

/-- What the call asked of the source, each request with the fault that it met. -/
def made (turn : Turn σ) : List (Request × Option Fault) :=
  turn.after.outcomes.drop turn.before.outcomes.length

/-- What the source shows behind the call. -/
def shown? (turn : Turn σ) : Option View := turn.after.source.map Cursor.view

/-- A pull that met no fault at the source, and what the source shows behind it. -/
structure Sees (turn : Turn σ) (shown : View) : Prop where
  /-- The call is a pull. -/
  pull : turn.call ≠ .close
  /-- No request failed. -/
  unfailed : ∀ request fault, (request, some fault) ∉ turn.made
  /-- This is shown. -/
  shows : turn.shown? = some shown

/-- A pull that leaves the source at an entry inside of the upper end. -/
def GoesWell (upper : Bound) (turn : Turn σ) : Prop :=
  ∃ shown, turn.Sees shown ∧ Inside upper shown

/-- The source ran out in the course of turns: the first one that did not go well is a pull that met no
fault and saw the source at no entry, or at one beyond the upper end. -/
def RanOut (upper : Bound) (past : List (Turn σ)) : Prop :=
  ∃ before turn later shown, past = before ++ turn :: later ∧
    (∀ earlier ∈ before, earlier.GoesWell upper) ∧ turn.Sees shown ∧ ¬ Inside upper shown

/-- What a turn does behind other turns. Whether a pull hands out a key, a fault or nothing is read off
what the source was asked and shows, and not off what the stream has answered. -/
structure Lawful (upper : Bound) (past : List (Turn σ)) (turn : Turn σ) : Prop where
  /-- A pull gives a key or a fault only if all turns before were pulls that gave keys. So there is at
  most one fault, and nothing is given behind it, behind a pull that gave nothing, or behind a
  call to close. -/
  gives : ∀ given, turn.answer.pulled? = some (some given) →
    ∀ earlier ∈ past, earlier.answer.isKey = true
  /-- A key that is given is inside of the upper end. -/
  inside : ∀ key, turn.answer.pulled? = some (some (.ok key)) → upper.admitsBelow key = true
  /-- A pull behind others that all went well tells the fault of moving the source, or else the key
  that the source shows then with its flag, or nothing if that is no entry inside of the upper
  end. -/
  tells : turn.call ≠ .close → (∀ earlier ∈ past, earlier.GoesWell upper) →
    (∃ fault, (.next turn.disk, some fault) ∈ turn.made ∧
      turn.call.Tells (some (.error (.ofFault none fault))) turn.answer) ∨
    ∃ shown, turn.Sees shown ∧ turn.call.Tells (handed upper shown) turn.answer
  /-- Any other pull tells nothing. -/
  silent : turn.call ≠ .close → (¬ ∀ earlier ∈ past, earlier.GoesWell upper) →
    turn.call.Tells none turn.answer
  /-- The first call to close asks the source to release what it holds. -/
  releases : turn.call = .close → (∀ earlier ∈ past, earlier.call ≠ .close) →
    ∃ fault?, turn.made = [(.close, fault?)]
  /-- A pull behind others that all went well moves the source. -/
  moves : turn.call ≠ .close → past ≠ [] → (∀ earlier ∈ past, earlier.GoesWell upper) →
    ∃ fault?, turn.made = [(.next turn.disk, fault?)]
  /-- Nothing is asked of the source by any other turn. So it is not moved by the first pull, nor by a
  pull behind one that failed or that saw it at no entry or beyond the upper end, nor behind a
  call to close. -/
  rests : turn.made ≠ [] →
    (turn.call = .close ∧ ∀ earlier ∈ past, earlier.call ≠ .close) ∨
      (turn.call ≠ .close ∧ past ≠ [] ∧ ∀ earlier ∈ past, earlier.GoesWell upper)
  /-- Closing reports a fault exactly if it is the first time, releasing the source fails with it, and
  the source did not run out before. -/
  reports : turn.call = .close → ∀ fault, turn.answer = .closed (some fault) ↔
    (∀ earlier ∈ past, earlier.call ≠ .close) ∧
      (∃ cause, (.close, some cause) ∈ turn.made ∧ fault = .release cause) ∧ ¬ RanOut upper past

end Turn

/-- The turns of a stream under calls. -/
def turns (stream : KeyStream (Watched σ)) : List (Disk × StreamCall) → List (Turn σ)
  | [] => []
  | (disk, call) :: later => ⟨disk, call, stream⟩ :: turns (call.run disk stream).2 later

namespace Turn

variable {turn : Turn σ} {past : List (Turn σ)} {watched : Watched σ}

/-- The answer to a pull tells what the stream handed out. -/
theorem tells_of_pull (pull : turn.call ≠ .close) :
    turn.call.Tells (turn.before.next turn.disk).1 turn.answer := by
  obtain ⟨disk, call, before⟩ := turn
  cases call with
  | entry => exact .entry _
  | key => exact .key _
  | close => exact absurd rfl pull

/-- A pull leaves the stream that has handed out. -/
theorem after_of_pull (pull : turn.call ≠ .close) :
    turn.after = (turn.before.next turn.disk).2 := by
  obtain ⟨disk, call, before⟩ := turn
  cases call with
  | entry => rfl
  | key => rfl
  | close => exact absurd rfl pull

/-- Nothing is asked of a source that is the same behind the call. -/
theorem made_of_same (same : turn.after.source = turn.before.source) : turn.made = [] := by
  simp [made, outcomes, same]

/-- A request is asked of a source that has one more behind the call. -/
theorem made_of_note {request : Request} (before : turn.before.source = some watched)
    (after : turn.after.source = some (watched.note request).state) :
    turn.made = [(request, (request.run watched.cursor).fault)] := by
  simp [made, outcomes, before, after]

/-- A turn that met a fault did not go well. -/
theorem not_goesWell_of_fault {request : Request} {fault : Fault}
    (failed : (request, some fault) ∈ turn.made) : ¬ turn.GoesWell upper := by
  rintro ⟨shown, sees, -⟩
  exact sees.unfailed request fault failed

/-- A turn that saw no entry inside of the upper end did not go well. -/
theorem Sees.not_goesWell {shown : View} (sees : turn.Sees shown) (outside : ¬ Inside upper shown) :
    ¬ turn.GoesWell upper := by
  rintro ⟨other, alsoSees, inside⟩
  cases sees.shows.symm.trans alsoSees.shows
  exact outside inside

/-- A call to close did not go well. -/
theorem not_goesWell_of_close (closing : turn.call = .close) : ¬ turn.GoesWell upper := by
  rintro ⟨shown, sees, -⟩
  exact sees.pull closing

end Turn

/-! ## What the turns before were -/

/-- In a list there is only one element that is the first to lack a property. -/
theorem eq_of_append_cons_eq {α : Type} {P : α → Prop} {before others later rest : List α}
    {first other : α} (same : before ++ first :: later = others ++ other :: rest)
    (well : ∀ element ∈ before, P element) (alsoWell : ∀ element ∈ others, P element)
    (lacks : ¬ P first) (alsoLacks : ¬ P other) : first = other := by
  induction before generalizing others with
  | nil =>
    cases others with
    | nil => exact (List.cons.inj same).1
    | cons element others =>
      obtain ⟨rfl, -⟩ := List.cons.inj same
      exact absurd (alsoWell _ List.mem_cons_self) lacks
  | cons element before ih =>
    cases others with
    | nil =>
      obtain ⟨rfl, -⟩ := List.cons.inj same
      exact absurd (well _ List.mem_cons_self) alsoLacks
    | cons head others =>
      exact ih (List.cons.inj same).2 (fun element member => well element (.tail _ member))
        fun element member => alsoWell element (.tail _ member)

/-- The source failed in the course of turns: the first one that did not go well met a fault. -/
def Failed (upper : Bound) (past : List (Turn σ)) : Prop :=
  ∃ before turn later request fault, past = before ++ turn :: later ∧
    (∀ earlier ∈ before, earlier.GoesWell upper) ∧ (request, some fault) ∈ turn.made

/-- What the turns were that led to a phase, if there was no call to close. -/
def Course (upper : Bound) (past : List (Turn σ)) : StreamPhase → Prop
  | .fresh => past = []
  | .running => past ≠ [] ∧ ∀ earlier ∈ past, earlier.GoesWell upper ∧ earlier.answer.isKey = true
  | .exhausted => Turn.RanOut upper past
  | .failed => Failed upper past

/-- A source that ran out did not go well in all turns. -/
theorem Turn.RanOut.not_all {past : List (Turn σ)} (ranOut : RanOut upper past) :
    ¬ ∀ earlier ∈ past, earlier.GoesWell upper := by
  obtain ⟨before, turn, later, shown, rfl, -, sees, outside⟩ := ranOut
  intro well
  exact sees.not_goesWell outside (well turn (by simp))

/-- A source that failed did not go well in all turns. -/
theorem Failed.not_all {past : List (Turn σ)} (failed : Failed upper past) :
    ¬ ∀ earlier ∈ past, earlier.GoesWell upper := by
  obtain ⟨before, turn, later, request, fault, rfl, -, met⟩ := failed
  intro well
  exact Turn.not_goesWell_of_fault met (well turn (by simp))

/-- A source that failed did not run out. -/
theorem Failed.not_ranOut {past : List (Turn σ)} (failed : Failed upper past) :
    ¬ Turn.RanOut upper past := by
  obtain ⟨before, turn, later, request, fault, rfl, well, met⟩ := failed
  rintro ⟨others, other, rest, shown, same, alsoWell, sees, outside⟩
  obtain rfl := eq_of_append_cons_eq same well alsoWell (Turn.not_goesWell_of_fault met)
    (sees.not_goesWell outside)
  exact sees.unfailed request fault met

/-- The source ran out exactly if the stream is used up. -/
theorem Course.ranOut_iff {past : List (Turn σ)} {phase : StreamPhase}
    (course : Course upper past phase) : Turn.RanOut upper past ↔ phase = .exhausted := by
  cases phase with
  | fresh =>
    subst course
    refine iff_of_false (fun ranOut => ranOut.not_all ?_) nofun
    simp
  | running =>
    refine iff_of_false (fun ranOut => ranOut.not_all ?_) nofun
    exact fun earlier member => (course.2 earlier member).1
  | exhausted => exact iff_of_true course rfl
  | failed => exact iff_of_false course.not_ranOut nofun

/-- In a phase in which nothing is handed out any more, not all turns went well. -/
theorem Course.not_all {past : List (Turn σ)} {phase : StreamPhase} (course : Course upper past phase)
    (ended : phase = .exhausted ∨ phase = .failed) :
    ¬ ∀ earlier ∈ past, earlier.GoesWell upper := by
  obtain rfl | rfl := ended
  · exact Turn.RanOut.not_all course
  · exact Failed.not_all course

/-- A phase in which nothing is handed out any more stays. -/
theorem Course.concat {past : List (Turn σ)} {phase : StreamPhase} (course : Course upper past phase)
    (ended : phase = .exhausted ∨ phase = .failed) (turn : Turn σ) :
    Course upper (past ++ [turn]) phase := by
  obtain rfl | rfl := ended
  · obtain ⟨before, first, later, shown, rfl, well, seen⟩ := course
    exact ⟨before, first, later ++ [turn], shown, by simp, well, seen⟩
  · obtain ⟨before, first, later, request, fault, rfl, well, met⟩ := course
    exact ⟨before, first, later ++ [turn], request, fault, by simp, well, met⟩

/-- A stream that turns have led to. -/
inductive Since (mode : ReadMode) (upper : Bound) (past : List (Turn σ)) :
    KeyStream (Watched σ) → Prop
  /-- There was no call to close. The source was not released, and the phase tells the turns. -/
  | opened {watched : Watched σ} {phase : StreamPhase} (unreleased : watched.isClosed = false)
      (noClose : ∀ earlier ∈ past, earlier.call ≠ .close) (course : Course upper past phase) :
      Since mode upper past ⟨mode, some watched, upper, phase, false⟩
  /-- There was a call to close. The source was released once. -/
  | closed {watched : Watched σ} {phase : StreamPhase}
      (once : watched.requests.countP Request.isClose = 1)
      (closing : ∃ earlier ∈ past, earlier.call = .close) :
      Since mode upper past ⟨mode, some watched, upper, phase, true⟩

/-! ## One turn -/

section OneTurn

variable {past : List (Turn σ)} {turn : Turn σ} {watched : Watched σ}

/-- A pull that tells nothing and leaves the source alone is lawful if not all turns before went
well. -/
theorem Turn.Lawful.of_nothing (pull : turn.call ≠ .close)
    (stopped : ¬ ∀ earlier ∈ past, earlier.GoesWell upper)
    (nothing : turn.call.Tells none turn.answer) (alone : turn.made = []) :
    turn.Lawful upper past where
  gives := by simp [nothing.pulled?_eq]
  inside := by simp [nothing.pulled?_eq]
  tells _ well := absurd well stopped
  silent _ _ := nothing
  releases closing := absurd closing pull
  moves _ _ well := absurd well stopped
  rests asked := absurd alone asked
  reports closing := absurd closing pull

/-- A pull behind pulls that all went well is lawful if it tells what it meets at the source, and
moves the source unless it is the first one. -/
theorem Turn.Lawful.of_goesWell (pull : turn.call ≠ .close)
    (well : ∀ earlier ∈ past, earlier.GoesWell upper ∧ earlier.answer.isKey = true)
    (tells : (∃ fault, (.next turn.disk, some fault) ∈ turn.made ∧
        turn.call.Tells (some (.error (.ofFault none fault))) turn.answer) ∨
      ∃ shown, turn.Sees shown ∧ turn.call.Tells (handed upper shown) turn.answer)
    (moves : past ≠ [] → ∃ fault?, turn.made = [(.next turn.disk, fault?)])
    (rests : turn.made ≠ [] → past ≠ []) :
    turn.Lawful upper past where
  gives _ _ earlier member := (well earlier member).2
  inside := by
    intro key given
    obtain ⟨fault, -, told⟩ | ⟨shown, -, told⟩ := tells
    · rw [told.pulled?_eq] at given
      cases given
    · rw [told.pulled?_eq, handed] at given
      split at given
      · next inside =>
        cases given
        exact inside.2
      · cases given
  tells _ _ := tells
  silent _ stopped := absurd (fun earlier member => (well earlier member).1) stopped
  releases closing := absurd closing pull
  moves _ begun _ := moves begun
  rests asked := .inr ⟨pull, rests asked, fun earlier member => (well earlier member).1⟩
  reports closing := absurd closing pull

omit [Forward σ] in
/-- There still was no call to close behind a pull. -/
theorem noClose_concat (pull : turn.call ≠ .close)
    (noClose : ∀ earlier ∈ past, earlier.call ≠ .close) :
    ∀ earlier ∈ past ++ [turn], earlier.call ≠ .close :=
  List.forall_mem_append.mpr ⟨noClose, List.forall_mem_singleton.mpr pull⟩

/-- A stream that is closed stays as it is. -/
theorem Since.step_closed {phase : StreamPhase}
    (before : turn.before = ⟨mode, some watched, upper, phase, true⟩)
    (once : watched.requests.countP Request.isClose = 1)
    (closing : ∃ earlier ∈ past, earlier.call = .close) :
    turn.Lawful upper past ∧ Since mode upper (past ++ [turn]) turn.after := by
  obtain ⟨earlier, member, isClose⟩ := closing
  have stays : turn.after = turn.before := by
    obtain ⟨disk, call, stream⟩ := turn
    subst before
    cases call <;> rfl
  have alone : turn.made = [] :=
    Turn.made_of_same (by rw [stays])
  constructor
  · by_cases pull : turn.call = .close
    · have quiet : turn.answer = .closed none := by
        obtain ⟨disk, call, stream⟩ := turn
        subst before pull
        rfl
      exact
        { gives := by simp [quiet, StreamAnswer.pulled?]
          inside := by simp [quiet, StreamAnswer.pulled?]
          tells := fun other => absurd pull other
          silent := fun other => absurd pull other
          releases := fun _ first => absurd isClose (first earlier member)
          moves := fun other => absurd pull other
          rests := fun asked => absurd alone asked
          reports := by simp [alone, quiet] }
    · refine .of_nothing pull ?_ ?_ alone
      · exact fun well => Turn.not_goesWell_of_close isClose (well earlier member)
      · have tells := Turn.tells_of_pull pull
        rwa [before] at tells
  · rw [stays, before]
    exact .closed once ⟨earlier, List.mem_append_left _ member, isClose⟩

/-- A stream that hands out no more stays as it is until it is closed. -/
theorem Since.step_ended {phase : StreamPhase} (pull : turn.call ≠ .close)
    (before : turn.before = ⟨mode, some watched, upper, phase, false⟩)
    (unreleased : watched.isClosed = false) (noClose : ∀ earlier ∈ past, earlier.call ≠ .close)
    (course : Course upper past phase) (ended : phase = .exhausted ∨ phase = .failed) :
    turn.Lawful upper past ∧ Since mode upper (past ++ [turn]) turn.after := by
  have gives : turn.before.next turn.disk = (none, turn.before) := by
    rw [before]
    obtain rfl | rfl := ended <;> rfl
  have stays : turn.after = turn.before := by rw [Turn.after_of_pull pull, gives]
  constructor
  · refine .of_nothing pull (course.not_all ended) ?_ (Turn.made_of_same (by rw [stays]))
    have tells := Turn.tells_of_pull pull
    rwa [gives] at tells
  · rw [stays, before]
    exact .opened unreleased (noClose_concat pull noClose) (course.concat ended turn)

/-- A stream hands out what its source shows behind pulls that all went well. -/
theorem Since.step_hand {phase : StreamPhase} {source : Watched σ} (pull : turn.call ≠ .close)
    (before : turn.before = ⟨mode, some watched, upper, phase, false⟩)
    (isHanded : turn.before.next turn.disk = turn.before.hand source)
    (unreleased : source.isClosed = false) (noClose : ∀ earlier ∈ past, earlier.call ≠ .close)
    (well : ∀ earlier ∈ past, earlier.GoesWell upper ∧ earlier.answer.isKey = true)
    (unfailed : ∀ request fault, (request, some fault) ∉ turn.made)
    (moves : past ≠ [] → ∃ fault?, turn.made = [(.next turn.disk, fault?)])
    (rests : turn.made ≠ [] → past ≠ []) :
    turn.Lawful upper past ∧ Since mode upper (past ++ [turn]) turn.after := by
  have tells := Turn.tells_of_pull pull
  have after := Turn.after_of_pull pull
  rw [isHanded, hand_eq, before] at tells after
  have sees : turn.Sees (Cursor.view source) := ⟨pull, unfailed, by rw [Turn.shown?, after]; rfl⟩
  constructor
  · exact .of_goesWell pull well (.inr ⟨_, sees, tells⟩) moves rests
  · rw [after]
    refine .opened unreleased (noClose_concat pull noClose) ?_
    dsimp only
    split
    · next inside =>
      have isKey : turn.answer.isKey = true := by
        rw [handed, if_pos inside] at tells
        exact StreamAnswer.isKey_iff.mpr ⟨_, tells.pulled?_eq⟩
      refine ⟨by simp, List.forall_mem_append.mpr ⟨well, ?_⟩⟩
      exact List.forall_mem_singleton.mpr ⟨⟨_, sees, inside⟩, isKey⟩
    · next outside =>
      exact ⟨past, turn, [], _, rfl, fun earlier member => (well earlier member).1, sees, outside⟩

/-- The first pull looks at what the source shows, every other one moves the source before. -/
theorem Since.step_pull {phase : StreamPhase} (pull : turn.call ≠ .close)
    (before : turn.before = ⟨mode, some watched, upper, phase, false⟩)
    (unreleased : watched.isClosed = false) (noClose : ∀ earlier ∈ past, earlier.call ≠ .close)
    (course : Course upper past phase) :
    turn.Lawful upper past ∧ Since mode upper (past ++ [turn]) turn.after := by
  cases phase with
  | exhausted => exact step_ended pull before unreleased noClose course (.inl rfl)
  | failed => exact step_ended pull before unreleased noClose course (.inr rfl)
  | fresh =>
    obtain rfl : past = [] := course
    have isHanded : turn.before.next turn.disk = turn.before.hand watched := by rw [before]; rfl
    have alone : turn.made = [] := by
      refine Turn.made_of_same ?_
      rw [Turn.after_of_pull pull, isHanded, before, hand_eq]
    exact step_hand pull before isHanded unreleased noClose (by simp) (by simp [alone])
      (fun begun => absurd rfl begun) fun asked => absurd alone asked
  | running =>
    obtain ⟨begun, well⟩ := course
    let moved := watched.note (.next turn.disk)
    have unreleased' : moved.state.isClosed = false := by
      simp [moved, unreleased, Request.isClose]
    cases failed : moved.fault with
    | none =>
      have isHanded : turn.before.next turn.disk = turn.before.hand moved.state := by
        rw [before]
        exact next_running_of_moved failed
      have made : turn.made = [(.next turn.disk, none)] := by
        rw [← failed]
        refine Turn.made_of_note (by rw [before]) ?_
        rw [Turn.after_of_pull pull, isHanded, hand_eq]
      exact step_hand pull before isHanded unreleased' noClose well (by simp [made])
        (fun _ => ⟨none, made⟩) fun _ => begun
    | some fault =>
      have broken : turn.before.next turn.disk =
          (some (.error (.ofFault none fault)),
            ⟨mode, some moved.state, upper, .failed, false⟩) := by
        rw [before]
        exact next_running_of_fault failed
      have tells := Turn.tells_of_pull pull
      have after := Turn.after_of_pull pull
      rw [broken] at tells after
      have made : turn.made = [(.next turn.disk, some fault)] := by
        rw [← failed]
        exact Turn.made_of_note (by rw [before]) (by rw [after])
      have met : (.next turn.disk, some fault) ∈ turn.made := by simp [made]
      constructor
      · exact .of_goesWell pull well (.inl ⟨fault, met, tells⟩) (fun _ => ⟨_, made⟩) fun _ => begun
      · rw [after]
        refine .opened unreleased' (noClose_concat pull noClose) ?_
        exact ⟨past, turn, [], _, _, rfl, fun earlier member => (well earlier member).1, met⟩

omit [Forward σ] in
/-- A source that is released for the first time was released once. -/
theorem countP_isClose_concat (unreleased : watched.isClosed = false) :
    (watched.requests ++ [Request.close]).countP Request.isClose = 1 := by
  have none : watched.requests.countP Request.isClose = 0 := by
    simpa [Watched.isClosed, List.countP_eq_zero] using unreleased
  simp [none, Request.isClose]

/-- The first call to close releases the source. -/
theorem Since.step_close {phase : StreamPhase} (closing : turn.call = .close)
    (before : turn.before = ⟨mode, some watched, upper, phase, false⟩)
    (unreleased : watched.isClosed = false) (noClose : ∀ earlier ∈ past, earlier.call ≠ .close)
    (course : Course upper past phase) :
    turn.Lawful upper past ∧ Since mode upper (past ++ [turn]) turn.after := by
  let released := watched.note .close
  have closed : turn.before.close =
      ⟨⟨mode, some released.state, upper, phase, true⟩,
        if phase = .exhausted then none else released.fault.map .release⟩ :=
    before ▸ close_opened phase
  have after : turn.after = turn.before.close.state := by
    obtain ⟨disk, call, stream⟩ := turn
    subst closing
    rfl
  have answer : turn.answer = .closed turn.before.close.fault := by
    obtain ⟨disk, call, stream⟩ := turn
    subst closing
    rfl
  rw [closed] at after answer
  have made : turn.made = [(.close, released.fault)] :=
    Turn.made_of_note (by rw [before]) (by rw [after])
  constructor
  · exact
      { gives := by simp [answer, StreamAnswer.pulled?]
        inside := by simp [answer, StreamAnswer.pulled?]
        tells := fun pull => absurd closing pull
        silent := fun pull => absurd closing pull
        releases := fun _ _ => ⟨_, made⟩
        moves := fun pull => absurd closing pull
        rests := fun _ => .inl ⟨closing, noClose⟩
        reports := by
          intro _ fault
          rw [course.ranOut_iff, answer, made]
          by_cases spent : phase = .exhausted
          · simp [spent]
          · cases failed : released.fault with
            | none => simp
            | some cause =>
              simpa [spent, eq_comm] using fun _ : fault = .release cause => noClose }
  · rw [after]
    refine .closed ?_ ⟨turn, by simp, closing⟩
    exact countP_isClose_concat unreleased

/-- Each turn is lawful behind the turns before, and leads on. -/
theorem Since.step (since : Since mode upper past turn.before) :
    turn.Lawful upper past ∧ Since mode upper (past ++ [turn]) turn.after := by
  generalize standing : turn.before = stream at since
  cases since with
  | opened unreleased noClose course =>
    by_cases closing : turn.call = .close
    · exact step_close closing standing unreleased noClose course
    · exact step_pull closing standing unreleased noClose course
  | closed once closing => exact step_closed standing once closing

end OneTurn

/-! ## All turns -/

/-- All turns are lawful, each behind the ones before, and lead to the stream behind the calls. -/
theorem Since.run {past : List (Turn σ)} {stream : KeyStream (Watched σ)}
    (since : Since mode upper past stream) (calls : List (Disk × StreamCall)) :
    (∀ between turn, between ++ [turn] <+: stream.turns calls →
      turn.Lawful upper (past ++ between)) ∧
    Since mode upper (past ++ stream.turns calls) (stream.after calls) := by
  induction calls generalizing past stream with
  | nil => simpa [turns, after] using since
  | cons call later ih =>
    obtain ⟨disk, call⟩ := call
    let turn : Turn σ := ⟨disk, call, stream⟩
    have step : turn.Lawful upper past ∧ Since mode upper (past ++ [turn]) turn.after :=
      Since.step since
    have rest := ih step.2
    simp only [turns, after]
    constructor
    · intro between turn before
      cases between with
      | nil =>
        rw [List.nil_append, List.cons_prefix_cons] at before
        rw [List.append_nil, before.1]
        exact step.1
      | cons first between =>
        rw [List.cons_append, List.cons_prefix_cons] at before
        rw [← List.singleton_append, ← List.append_assoc, before.1]
        exact rest.1 between turn before.2
    · rw [← List.singleton_append, ← List.append_assoc]
      exact rest.2

/-- The turns make the calls. -/
theorem map_call_turns (stream : KeyStream (Watched σ)) (calls : List (Disk × StreamCall)) :
    (stream.turns calls).map Turn.call = calls.map Prod.snd := by
  induction calls generalizing stream with
  | nil => rfl
  | cons call later ih => simp [turns, ih]

/-- The turns give the answers. -/
theorem map_answer_turns (stream : KeyStream (Watched σ)) (calls : List (Disk × StreamCall)) :
    (stream.turns calls).map Turn.answer = stream.answers calls := by
  induction calls generalizing stream with
  | nil => rfl
  | cons call later ih => simp [turns, answers, ih, Turn.answer]

/-- A stream that is given up has released its source once. It is released then unless there was a
call to close. -/
theorem Since.drop {past : List (Turn σ)} {stream : KeyStream (Watched σ)}
    (since : Since mode upper past stream) :
    ∃ left given, stream.source = some left ∧ stream.drop.source = some given ∧
      given.requests = left.requests ++
        (if .close ∈ past.map Turn.call then [] else [Request.close]) ∧
      given.requests.countP Request.isClose = 1 := by
  cases since with
  | opened unreleased noClose course =>
    have none : .close ∉ past.map Turn.call := by simpa using noClose
    refine ⟨_, _, rfl, by rw [KeyStream.drop, close_opened], ?_, ?_⟩
    · rw [if_neg none]
      exact Watched.requests_note .close _
    · exact countP_isClose_concat unreleased
  | closed once closing =>
    have some : .close ∈ past.map Turn.call := by simpa using closing
    exact ⟨_, _, rfl, rfl, by rw [if_pos some, List.append_nil], once⟩

end Turns

/-! ## Sources that refuse to go on behind a fault -/

section Refusing

variable {σ : Type} [Forward σ] {stream : KeyStream σ}

/-- The stream of a source that refuses to go on behind a fault. -/
def fused (stream : KeyStream σ) : KeyStream (Fused σ) :=
  { stream with source := stream.source.map (⟨·, decide (stream.phase = .failed)⟩) }

/-- The source of a running stream stands at an entry until the stream is closed. -/
def Stands (stream : KeyStream σ) : Prop :=
  stream.isClosed = false → stream.phase = .running →
    ∀ source ∈ stream.source, Cursor.isValid source = true

/-- A stream that has handed out a key stands at its entry. -/
theorem stands_hand (stream : KeyStream σ) (source : σ) : (stream.hand source).2.Stands := by
  rw [hand_eq]
  rintro - running _ ⟨⟩
  by_cases inside : Inside stream.upper (Cursor.view source)
  · exact inside.1
  · simp [inside] at running

/-- A source that has not failed is handed out as if it never refused. -/
theorem hand_fused (stream : KeyStream σ) (source : σ) :
    stream.fused.hand ⟨source, false⟩ =
      ((stream.hand source).1, (stream.hand source).2.fused) := by
  have shown : Cursor.view (⟨source, false⟩ : Fused σ) = Cursor.view source := rfl
  rw [hand_eq, hand_eq, shown]
  by_cases inside : Inside stream.upper (Cursor.view source) <;> simp [inside, fused]

/-- A stream whose source refuses to go on behind a fault is pulled as if it never refused, since
it asks for no move behind a fault. -/
theorem next_fused (stands : stream.Stands) (disk : Disk) :
    stream.fused.next disk = ((stream.next disk).1, (stream.next disk).2.fused) ∧
      (stream.next disk).2.Stands := by
  obtain ⟨mode, source?, upper, phase, isClosed⟩ := stream
  cases isClosed with
  | true => exact ⟨rfl, stands⟩
  | false =>
    cases source? with
    | none => exact ⟨rfl, stands⟩
    | some source =>
      cases phase with
      | exhausted => exact ⟨rfl, stands⟩
      | failed => exact ⟨rfl, stands⟩
      | fresh => exact ⟨hand_fused _ source, stands_hand _ source⟩
      | running =>
        let refusing : Fused σ := ⟨source, false⟩
        have moves : Cursor.next disk refusing = Fused.adopt (Cursor.next disk source) :=
          if_pos (stands rfl rfl source rfl)
        have fault : (Cursor.next disk refusing).fault = (Cursor.next disk source).fault := by
          rw [moves]
          rfl
        change next disk ⟨mode, some refusing, upper, .running, false⟩ = _ ∧ _
        cases failed : (Cursor.next disk source).fault with
        | none =>
          rw [next_running_of_moved failed, next_running_of_moved (fault.trans failed), moves,
            Fused.adopt, failed]
          exact ⟨hand_fused ⟨mode, some source, upper, .running, false⟩ _, stands_hand _ _⟩
        | some _ =>
          rw [next_running_of_fault failed, next_running_of_fault (fault.trans failed), moves,
            Fused.adopt, failed]
          exact ⟨rfl, fun _ impossible => by cases impossible⟩

/-- A stream whose source refuses to go on behind a fault is closed as if it never refused. -/
theorem close_fused (stream : KeyStream σ) : stream.fused.close = stream.close.map fused := by
  obtain ⟨mode, source?, upper, phase, isClosed⟩ := stream
  cases isClosed with
  | true => cases source? <;> rfl
  | false =>
    cases source? with
    | none => rfl
    | some source =>
      rw [close_opened]
      exact close_opened phase

/-- A stream that is closed need not stand anywhere. -/
theorem stands_close (stands : stream.Stands) : stream.close.state.Stands := by
  obtain ⟨mode, source?, upper, phase, isClosed⟩ := stream
  cases isClosed with
  | true => cases source? <;> exact stands
  | false =>
    cases source? with
    | none => exact stands
    | some source =>
      rw [close_opened]
      exact fun impossible => by cases impossible

/-- A source that refuses to go on behind a fault makes no difference to a stream: it answers alike, and
leaves the same cursor in the same state. -/
theorem answers_ofFused (mode : ReadMode) (source : σ) (upper : Bound)
    (calls : List (Disk × StreamCall)) :
    (ofCursor mode (Fused.ofCursor source) upper).answers calls =
        (ofCursor mode source upper).answers calls ∧
      (ofCursor mode (Fused.ofCursor source) upper).after calls =
        ((ofCursor mode source upper).after calls).fused := by
  suffices alike : ∀ stream : KeyStream σ, stream.Stands →
      stream.fused.answers calls = stream.answers calls ∧
        stream.fused.after calls = (stream.after calls).fused from
    alike (ofCursor mode source upper) fun _ impossible => by cases impossible
  induction calls with
  | nil => exact fun _ _ => ⟨rfl, rfl⟩
  | cons call later ih =>
    intro stream stands
    obtain ⟨disk, call⟩ := call
    obtain ⟨pulled, stands'⟩ := next_fused stands disk
    have closed := close_fused stream
    have stands'' := stands_close stands
    cases call with
    | entry =>
      simp only [answers, after, StreamCall.run, pulled, ih _ stands', and_self]
    | key =>
      simp only [answers, after, StreamCall.run, nextKey, pulled, ih _ stands', and_self]
    | close =>
      simp only [answers, after, StreamCall.run, closed, Step.fault_map, Step.state_map,
        ih _ stands'', and_self]

end Refusing

/-! ## Whole lives -/

section Lives

variable {σ : Type} [Forward σ]

/-- A stream of any source goes through a life in order, whatever it is asked, and in whatever state the
files are then. It answers as its turns say; each turn is lawful behind those before; and the source is
released once in all, when the stream is given up if there was no call to close. If the source is made
to refuse going on behind a fault, all of this is the same, and the same is asked of it. -/
theorem lifeCycle (mode : ReadMode) (source : σ) (upper : Bound)
    (calls : List (Disk × StreamCall)) :
    let stream := ofCursor mode (Watched.ofCursor source) upper
    let refusing := ofCursor mode (Fused.ofCursor (Watched.ofCursor source)) upper
    (stream.turns calls).map Turn.answer = (ofCursor mode source upper).answers calls ∧
    (∀ past turn, past ++ [turn] <+: stream.turns calls → turn.Lawful upper past) ∧
    (∃ left given, (stream.after calls).source = some left ∧
      (stream.after calls).drop.source = some given ∧
      given.requests = left.requests ++
        (if .close ∈ calls.map Prod.snd then [] else [Request.close]) ∧
      given.requests.countP Request.isClose = 1) ∧
    refusing.answers calls = stream.answers calls ∧
    refusing.after calls = (stream.after calls).fused ∧
    (refusing.after calls).drop = (stream.after calls).drop.fused := by
  intro stream refusing
  have since : Since mode upper [] stream := .opened rfl (by simp) rfl
  obtain ⟨lawful, lives⟩ := since.run calls
  obtain ⟨sameAnswers, sameAfter⟩ := answers_ofFused mode (Watched.ofCursor source) upper calls
  refine ⟨?_, lawful, ?_, sameAnswers, sameAfter, ?_⟩
  · rw [map_answer_turns]
    exact (answers_mapSource Watched.conveys stream calls).symm
  · rw [← map_call_turns stream]
    exact lives.drop
  · rw [sameAfter, drop, close_fused]
    rfl

end Lives

end KeyStream

end SortedTables
