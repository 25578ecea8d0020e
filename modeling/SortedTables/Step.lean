/-!
# Steps

An operation on a builder or a cursor can fail half-way, and its caller goes on with what the
failed operation left. So a step gives the state it reached in either case, beside the fault.
-/

namespace SortedTables

/-- The state that an operation reached, and the fault that ended it, if it failed. -/
structure Step (σ ε : Type) where
  /-- What the operation left, also when it failed. -/
  state : σ
  /-- Why the operation failed. -/
  fault : Option ε

namespace Step

variable {σ τ ε : Type}

/-- A step that succeeded. -/
def done (state : σ) : Step σ ε := ⟨state, none⟩

/-- A step that failed. -/
def failed (state : σ) (fault : ε) : Step σ ε := ⟨state, some fault⟩

/-- Looks at the state of a step from outside. -/
def map (f : σ → τ) (step : Step σ ε) : Step τ ε := ⟨f step.state, step.fault⟩

/-- Goes on after a step, unless it failed. -/
def andThen (step : Step σ ε) (next : σ → Step σ ε) : Step σ ε :=
  match step.fault with
  | none => next step.state
  | some _ => step

@[simp]
theorem state_done (state : σ) : (done state : Step σ ε).state = state := rfl

@[simp]
theorem fault_done (state : σ) : (done state : Step σ ε).fault = none := rfl

@[simp]
theorem state_failed (state : σ) (fault : ε) : (failed state fault).state = state := rfl

@[simp]
theorem fault_failed (state : σ) (fault : ε) : (failed state fault).fault = some fault := rfl

/-- A step without a fault succeeded. -/
theorem eq_done {step : Step σ ε} (fine : step.fault = none) : step = .done step.state := by
  rw [done, ← fine]

/-- A step with a fault failed. -/
theorem eq_failed {step : Step σ ε} {fault : ε} (failed : step.fault = some fault) :
    step = .failed step.state fault := by
  rw [Step.failed, ← failed]

@[simp]
theorem state_map (f : σ → τ) (step : Step σ ε) : (step.map f).state = f step.state := rfl

@[simp]
theorem fault_map (f : σ → τ) (step : Step σ ε) : (step.map f).fault = step.fault := rfl

end Step

end SortedTables
