import Mathlib.Data.List.Forall2
import SortedTables.Cursor.Basic

/-!
# Calls on a cursor

Whoever has a cursor moves it, seeks in it and closes it, in any order and also behind a call that
failed. `Cursor.steps` are the steps that a cursor makes under a list of calls. Two cursors make steps
alike under all calls if each single call keeps them alike (`Cursor.forall₂_steps`).
-/

namespace SortedTables

namespace Cursor

/-- The calls that change a cursor. -/
inductive Call where
  /-- Goes to the next entry. -/
  | next
  /-- Goes to the first entry whose key is not below the given one. -/
  | seek (key : Key)
  /-- Releases what the cursor holds. -/
  | close
deriving DecidableEq

variable {σ τ : Type} [Cursor σ] [Cursor τ] {disk : Disk}

/-- What a call does to a cursor. -/
def Call.run (disk : Disk) (call : Call) (cursor : σ) : Step σ Fault :=
  match call with
  | next => Cursor.next disk cursor
  | seek key => Cursor.seek disk key cursor
  | close => Cursor.close cursor

/-- The steps of a cursor under calls, the one that led to the cursor being the first. -/
def steps (disk : Disk) (step : Step σ Fault) : List Call → List (Step σ Fault)
  | [] => [step]
  | call :: later => step :: steps disk (call.run disk step.state) later

/-- What every call preserves of two steps holds of all steps under the same calls. -/
theorem forall₂_steps {Related : Step σ Fault → Step τ Fault → Prop}
    (preserves : ∀ own other, Related own other → ∀ call : Call,
      Related (call.run disk own.state) (call.run disk other.state))
    {own : Step σ Fault} {other : Step τ Fault} (related : Related own other)
    (calls : List Call) : List.Forall₂ Related (steps disk own calls) (steps disk other calls) := by
  induction calls generalizing own other with
  | nil => exact .cons related .nil
  | cons call later ih => exact .cons related (ih (preserves own other related call))

/-- What each of some calls preserves holds behind them. -/
theorem forall_steps_of_mem (Kept : σ → Prop) {calls : List Call}
    (preserves : ∀ call ∈ calls, ∀ cursor, Kept cursor → Kept (call.run disk cursor).state)
    {step : Step σ Fault} (kept : Kept step.state) :
    ∀ later ∈ steps disk step calls, Kept later.state := by
  induction calls generalizing step with
  | nil =>
    intro later member
    cases List.mem_singleton.mp member
    exact kept
  | cons call calls ih =>
    obtain ⟨first, rest⟩ := List.forall_mem_cons.mp preserves
    intro later member
    rcases List.mem_cons.mp member with rfl | member
    · exact kept
    · exact ih rest (first step.state kept) later member

/-- What every call preserves holds behind all calls. -/
theorem forall_steps (Kept : σ → Prop)
    (preserves : ∀ cursor, Kept cursor → ∀ call : Call, Kept (call.run disk cursor).state)
    {step : Step σ Fault} (kept : Kept step.state) (calls : List Call) :
    ∀ later ∈ steps disk step calls, Kept later.state :=
  forall_steps_of_mem Kept (fun call _ cursor kept => preserves cursor kept call) kept

/-- If a cursor goes on under every call, and goes on by going on twice, then each step leads on from all
steps before. -/
theorem pairwise_steps (Kept : σ → Prop) (Onward : σ → σ → Prop)
    (trans : ∀ first second third, Onward first second → Onward second third → Onward first third)
    (preserves : ∀ cursor, Kept cursor → ∀ call : Call,
      Kept (call.run disk cursor).state ∧ Onward cursor (call.run disk cursor).state)
    {step : Step σ Fault} (kept : Kept step.state) (calls : List Call) :
    (steps disk step calls).Pairwise fun earlier later => Onward earlier.state later.state := by
  induction calls generalizing step with
  | nil => exact List.pairwise_singleton _ _
  | cons call calls ih =>
    obtain ⟨still, onward⟩ := preserves step.state kept call
    refine List.pairwise_cons.mpr ⟨fun later member => ?_, ih still⟩
    refine (forall_steps (fun cursor => Kept cursor ∧ Onward step.state cursor) ?_
      ⟨still, onward⟩ calls later member).2
    rintro cursor ⟨kept, onward⟩ call
    obtain ⟨still, further⟩ := preserves cursor kept call
    exact ⟨still, trans _ _ _ onward further⟩

end Cursor

end SortedTables
