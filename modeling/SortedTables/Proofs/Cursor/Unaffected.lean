import SortedTables.Cursor.Bounded
import SortedTables.Proofs.Cursor.Conveying
import SortedTables.Proofs.Cursor.LifeCycle

/-!
# Streams that are unaffected by other files

A cursor that is only asked to go on may do the same in two directories, as the files that it reads may
be the same where it reads them. `Cursor.Unaffected` says this of all cursors of a kind. Cursors that are
made of such ones go on alike too, and a stream over them gives the same answers
(`KeyStream.answers_unaffected`): it asks its source for nothing but to go on, and to be released, which
does not read files.
-/

namespace SortedTables

/-- Cursors of a kind go on alike in two directories, and to cursors of that kind. -/
structure Cursor.Unaffected {σ : Type} [Cursor σ] (disk other : Disk) (Kind : σ → Prop) : Prop where
  /-- They do the same. -/
  same : ∀ cursor, Kind cursor → Cursor.next other cursor = Cursor.next disk cursor
  /-- What they become is of the same kind. -/
  still : ∀ cursor, Kind cursor → Kind (Cursor.next disk cursor).state

variable {σ : Type} [Cursor σ] {disk other : Disk} {Kind : σ → Prop}
  (unaffected : Cursor.Unaffected disk other Kind)

include unaffected

/-- Parts of cursors go on alike if the cursors do. -/
theorem Cursor.Unaffected.bounded :
    Unaffected disk other fun bounded : Bounded σ => Kind bounded.inner where
  same bounded isKind := by
    change bounded.next other = bounded.next disk
    unfold Bounded.next
    rw [unaffected.same bounded.inner isKind]
  still bounded isKind := by
    change Kind (bounded.next disk).state.inner
    unfold Bounded.next
    split
    · rw [Bounded.inner_adopt]
      exact unaffected.still bounded.inner isKind
    · exact isKind

namespace Merge

open Ranked

/-- Duplicates are passed over alike. -/
theorem passDuplicates_unaffected (policy : DuplicatePolicy) (key : Key)
    (waiting released : List (Ranked σ)) (areKind : ∀ source ∈ waiting, Kind source.source) :
    passDuplicates other policy key waiting released =
        passDuplicates disk policy key waiting released ∧
      ∀ source ∈ (passDuplicates disk policy key waiting released).state.1, Kind source.source := by
  fun_induction passDuplicates disk policy key waiting released with
  | case1 waiting released none =>
    refine ⟨passDuplicates_of_apart fun _ _ taken => ?_, areKind⟩
    cases none.symm.trans taken
  | case2 waiting released first others taken atKey step moved fault failed =>
    obtain ⟨here, there⟩ := forall_of_takeFirst taken areKind
    rw [passDuplicates_of_same taken atKey, unaffected.same _ here]
    simp only [show (Cursor.next disk first.source).fault = _ from failed]
    exact ⟨rfl, List.forall_mem_cons.mpr ⟨unaffected.still _ here, there⟩⟩
  | case3 waiting released first others taken atKey step moved fine standing ih =>
    obtain ⟨here, there⟩ := forall_of_takeFirst taken areKind
    rw [passDuplicates_of_same taken atKey, unaffected.same _ here]
    simp only [show (Cursor.next disk first.source).fault = _ from fine,
      show Cursor.isValid (Cursor.next disk first.source).state = true from standing, if_true]
    exact ih (List.forall_mem_cons.mpr ⟨unaffected.still _ here, there⟩)
  | case4 waiting released first others taken atKey step moved fine spent ih =>
    obtain ⟨here, there⟩ := forall_of_takeFirst taken areKind
    rw [passDuplicates_of_same taken atKey, unaffected.same _ here]
    simp only [show (Cursor.next disk first.source).fault = _ from fine]
    rw [if_neg spent]
    exact ih there
  | case5 waiting released first others taken apart =>
    refine ⟨passDuplicates_of_apart fun _ _ taken' => ?_, areKind⟩
    cases taken.symm.trans taken'
    exact apart

/-- Merges go on alike if their sources do. -/
theorem next_unaffected {merge : Merge σ} (areKind : ∀ source ∈ merge.inUse, Kind source.source) :
    merge.next other = merge.next disk ∧
      ∀ source ∈ (merge.next disk).state.inUse, Kind source.source := by
  unfold next
  cases standing : merge.current with
  | none => exact ⟨rfl, areKind⟩
  | some current =>
    simp only [inUse, standing, Option.toList_some, List.singleton_append, List.forall_mem_cons]
      at areKind
    obtain ⟨samePass, areKind'⟩ := passDuplicates_unaffected unaffected merge.policy
      (Cursor.key current.source) merge.waiting merge.released areKind.2
    have isMoved := unaffected.still _ areKind.1
    simp only [samePass, unaffected.same _ areKind.1]
    refine ⟨trivial, ?_⟩
    cases passed : (passDuplicates disk merge.policy (Cursor.key current.source) merge.waiting
        merge.released).fault with
    | some fault => exact List.forall_mem_cons.mpr ⟨areKind.1, areKind'⟩
    | none =>
      cases advanced : (Cursor.next disk current.source).fault with
      | some fault => exact List.forall_mem_cons.mpr ⟨isMoved, areKind'⟩
      | none =>
        intro source member
        rcases mem_inUse_select_enter member with ⟨rfl, _⟩ | waits
        · exact isMoved
        · exact areKind' source waits

end Merge

/-- Merges go on alike if their sources do. -/
theorem Cursor.Unaffected.merge :
    Unaffected disk other fun merge : Merge σ => ∀ source ∈ merge.inUse, Kind source.source where
  same _ areKind := (Merge.next_unaffected unaffected areKind).1
  still _ areKind := (Merge.next_unaffected unaffected areKind).2

namespace KeyStream

omit unaffected in
/-- What is handed out leaves the source as it is. -/
theorem source_hand (stream : KeyStream σ) (source : σ) :
    (stream.hand source).2.source = some source := by
  unfold hand
  dsimp only
  split <;> rfl

/-- A stream is pulled alike if its source goes on alike. -/
theorem next_unaffected {stream : KeyStream σ}
    (isKind : stream.isClosed = false → ∀ source ∈ stream.source, Kind source) :
    stream.next other = stream.next disk ∧
      ((stream.next disk).2.isClosed = false →
        ∀ source ∈ (stream.next disk).2.source, Kind source) := by
  obtain ⟨mode, source?, upper, phase, isClosed⟩ := stream
  cases isClosed with
  | true => exact ⟨rfl, isKind⟩
  | false =>
    cases source? with
    | none => exact ⟨rfl, isKind⟩
    | some source =>
      have here : Kind source := isKind rfl source rfl
      have hands {stream : KeyStream σ} {source : σ} (here : Kind source) :
          ∀ handed ∈ (stream.hand source).2.source, Kind handed := by
        rw [source_hand]
        rintro _ ⟨⟩
        exact here
      cases phase with
      | exhausted => exact ⟨rfl, isKind⟩
      | failed => exact ⟨rfl, isKind⟩
      | fresh => exact ⟨rfl, fun _ => hands here⟩
      | running =>
        have same := unaffected.same source here
        have still := unaffected.still source here
        cases moved : (Cursor.next disk source).fault with
        | none =>
          rw [next_running_of_moved moved, next_running_of_moved (by rw [same, moved]), same]
          exact ⟨rfl, fun _ => hands still⟩
        | some fault =>
          rw [next_running_of_fault moved, next_running_of_fault (by rw [same, moved]), same]
          refine ⟨rfl, fun _ => ?_⟩
          rintro _ ⟨⟩
          exact still

/-- A stream answers alike if its source goes on alike. -/
theorem run_unaffected {stream : KeyStream σ}
    (isKind : stream.isClosed = false → ∀ source ∈ stream.source, Kind source) (call : StreamCall) :
    call.run other stream = call.run disk stream ∧
      ((call.run disk stream).2.isClosed = false →
        ∀ source ∈ (call.run disk stream).2.source, Kind source) := by
  obtain ⟨same, still⟩ := next_unaffected unaffected isKind
  cases call with
  | entry => exact ⟨by simp only [StreamCall.run, same], still⟩
  | key => exact ⟨by simp only [StreamCall.run, nextKey, same], still⟩
  | close =>
    refine ⟨rfl, ?_⟩
    obtain ⟨mode, source?, upper, phase, isClosed⟩ := stream
    cases isClosed with
    | true => cases source? <;> exact isKind
    | false =>
      cases source? with
      | none => exact isKind
      | some source =>
        intro opened
        change (close _).state.isClosed = false at opened
        rw [close_opened] at opened
        cases opened

/-- A stream gives the same answers to all calls if its source goes on alike. -/
theorem answers_unaffected {stream : KeyStream σ}
    (isKind : stream.isClosed = false → ∀ source ∈ stream.source, Kind source)
    (calls : List StreamCall) :
    stream.answers (calls.map (other, ·)) = stream.answers (calls.map (disk, ·)) := by
  induction calls generalizing stream with
  | nil => rfl
  | cons call later ih =>
    obtain ⟨same, still⟩ := run_unaffected unaffected isKind call
    simp only [List.map_cons, answers, same, ih still]

end KeyStream

end SortedTables
