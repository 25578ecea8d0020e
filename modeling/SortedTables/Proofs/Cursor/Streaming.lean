import SortedTables.KeyStream
import SortedTables.Proofs.Cursor.Walk

/-!
# What a stream of keys hands out

`KeyStream.HandsOut` describes all answers of a stream at once, one for each number of pulls before:
first keys, then possibly a fault, then nothing for ever. The stream of a cursor hands out the keys
that the cursor walks through, and the fault that ends the walk.
-/

namespace SortedTables

namespace KeyStream

variable {σ : Type} [Cursor σ] {disk : Disk}

/-- What a stream answers to the pull that follows a number of pulls. -/
def answer (disk : Disk) (stream : KeyStream σ) : Nat → Option (Except ReaderFault Pulled)
  | 0 => (stream.next disk).1
  | pulls + 1 => answer disk (stream.next disk).2 pulls

/-- The stream hands out keys, then possibly a fault, then nothing any more. -/
def HandsOut (disk : Disk) (stream : KeyStream σ) (pulled : List Pulled)
    (ending : Option ReaderFault) : Prop :=
  ∀ pulls, stream.answer disk pulls =
    (pulled.map Except.ok ++ ending.toList.map Except.error)[pulls]?

/-- What is pulled at an entry. -/
def Pulled.ofEntry (entry : Entry) : Pulled := (entry.key, entry.isTombstone)

/-- A stream that ends without a fault hands out none. -/
theorem HandsOut.ending_eq_none {stream : KeyStream σ} {pulled others : List Pulled}
    {ending : Option ReaderFault} (handsOut : stream.HandsOut disk pulled none)
    (alsoHandsOut : stream.HandsOut disk others ending) : ending = none := by
  have same : pulled.map Except.ok = others.map Except.ok ++ ending.toList.map Except.error := by
    refine List.ext_getElem? fun pulls => ?_
    have answers := (handsOut pulls).symm.trans (alsoHandsOut pulls)
    rwa [Option.toList_none, List.map_nil, List.append_nil] at answers
  cases ending with
  | none => rfl
  | some fault =>
    have isAnswer : Except.error fault ∈ pulled.map (Except.ok (ε := ReaderFault)) := by
      rw [same]
      exact List.mem_append_right _ List.mem_cons_self
    obtain ⟨_, _, differs⟩ := List.mem_map.mp isAnswer
    cases differs

/-- A stream that gives nothing, and nothing after that, hands out nothing. -/
theorem handsOut_nil {stream after : KeyStream σ} (here : stream.next disk = (none, after))
    (later : after.HandsOut disk [] none) : stream.HandsOut disk [] none := by
  intro pulls
  cases pulls with
  | zero => rw [answer, here]; rfl
  | succ pulls => rw [answer, here]; exact later pulls

/-- A key is handed out before what the stream hands out after it. -/
theorem handsOut_cons {stream after : KeyStream σ} {first : Pulled} {pulled : List Pulled}
    {ending : Option ReaderFault} (here : stream.next disk = (some (.ok first), after))
    (later : after.HandsOut disk pulled ending) : stream.HandsOut disk (first :: pulled) ending := by
  intro pulls
  cases pulls with
  | zero => rw [answer, here]; rfl
  | succ pulls => rw [answer, here]; exact later pulls

/-- A fault is handed out, and nothing after it. -/
theorem handsOut_fault {stream after : KeyStream σ} {fault : ReaderFault}
    (here : stream.next disk = (some (.error fault), after))
    (later : after.HandsOut disk [] none) : stream.HandsOut disk [] (some fault) := by
  intro pulls
  cases pulls with
  | zero => rw [answer, here]; rfl
  | succ pulls => rw [answer, here]; exact later pulls

/-- A stream that was used up or has failed hands out nothing. -/
theorem handsOut_of_phase {stream : KeyStream σ}
    (spent : stream.phase = .exhausted ∨ stream.phase = .failed) : stream.HandsOut disk [] none := by
  have stays : stream.next disk = (none, stream) := by
    unfold next
    split
    · rfl
    · split <;> simp_all
  intro pulls
  induction pulls with
  | zero => rw [answer, stays]; rfl
  | succ pulls ih => rw [answer, stays]; exact ih

/-- The stream of nothing hands out nothing. -/
theorem handsOut_empty (mode : ReadMode) : (empty mode : KeyStream σ).HandsOut disk [] none :=
  handsOut_of_phase (Or.inl rfl)

/-- A pull that looks at a cursor hands out what the cursor walks through from there on, if all of
it is admitted. -/
theorem handsOut_of_hand {cursor : σ} {seen : List Entry} {ending : Option Fault}
    (walks : Cursor.Walks disk Cursor.showing? cursor seen ending) {stream looking : KeyStream σ}
    (isOpen : stream.isClosed = false)
    (admitted : ∀ entry ∈ seen, stream.upper.admitsBelow entry.key = true)
    (looks : looking.next disk = stream.hand cursor) :
    looking.HandsOut disk (seen.map Pulled.ofEntry) (ending.map (.ofFault none)) := by
  have handed {cursor : σ} {entry : Entry} (here : Cursor.showing? cursor = some entry)
      {stream : KeyStream σ} (admitted : stream.upper.admitsBelow entry.key = true) :
      stream.hand cursor = (some (.ok (Pulled.ofEntry entry)),
        { stream with source := some cursor, phase := .running }) := by
    have shown := View.eq_ofEntry here
    simp [hand, shown, View.ofEntry, admitted, Pulled.ofEntry]
  induction walks generalizing stream looking with
  | @atEnd cursor nothing =>
    have invalid := Cursor.valid_of_showing?_eq_none nothing
    have spent : looking.next disk =
        (none, { stream with source := some cursor, phase := .exhausted }) := by
      simp [looks, hand, invalid]
    exact handsOut_nil spent (handsOut_of_phase (Or.inl rfl))
  | @fails cursor entry fault here failed =>
    rw [handed here (admitted entry List.mem_cons_self)] at looks
    have fails : next disk { stream with source := some cursor, phase := .running } =
        (some (.error (.ofFault none fault)),
          { stream with source := some (Cursor.next disk cursor).state, phase := .failed }) := by
      simp [next, isOpen, failed]
    exact handsOut_cons looks (handsOut_fault fails (handsOut_of_phase (Or.inr rfl)))
  | @goesOn cursor entry later ending here moved _ ih =>
    rw [handed here (admitted entry List.mem_cons_self)] at looks
    let running := { stream with source := some cursor, phase := .running }
    have behind : ∀ entry ∈ later, running.upper.admitsBelow entry.key = true :=
      fun entry member => admitted entry (List.mem_cons_of_mem _ member)
    have moves : running.next disk = running.hand (Cursor.next disk cursor).state := by
      simp [next, running, isOpen, moved]
    exact handsOut_cons looks (ih isOpen behind moves)

/-- The stream of a cursor hands out the keys that the cursor walks through and the fault that ends
the walk, if the upper end admits them. -/
theorem handsOut_ofCursor {cursor : σ} {seen : List Entry} {ending : Option Fault} {upper : Bound}
    (mode : ReadMode) (walks : Cursor.Walks disk Cursor.showing? cursor seen ending)
    (admitted : ∀ entry ∈ seen, upper.admitsBelow entry.key = true) :
    (ofCursor mode cursor upper).HandsOut disk (seen.map Pulled.ofEntry)
      (ending.map (.ofFault none)) := by
  have isOpen : (ofCursor mode cursor upper).isClosed = false := rfl
  exact handsOut_of_hand walks isOpen admitted rfl

end KeyStream

end SortedTables
