import SortedTables.Cursor.Merge

/-!
# What a merge does in one step

`Merge.Goes` lists what can come of going on: a merge without a current source stays as it is; otherwise
a duplicate of the current key fails, or the current source does, or all of these move. The lemmas beside
it say what the parts of a step do to the sources in use, so that what is proved about merges need not look
into these parts.
-/

namespace SortedTables

namespace Merge

open Ranked

variable {σ : Type} [Cursor σ] {disk : Disk} {policy : DuplicatePolicy} {key : Key}
  {waiting released others : List (Ranked σ)} {first : Ranked σ}

/-! ## Passing over duplicates, one by one -/

/-- What holds of all sources holds of the one that is taken first, and of the others. -/
theorem forall_of_takeFirst {Kept : Ranked σ → Prop}
    (taken : takeFirst policy waiting = some (first, others))
    (areKept : ∀ source ∈ waiting, Kept source) : Kept first ∧ ∀ source ∈ others, Kept source :=
  List.forall_mem_cons.mp fun source member =>
    areKept source ((perm_of_takeFirst taken).mem_iff.mp member)

/-- Nothing is passed over if the first source stands elsewhere, or there is none. -/
theorem passDuplicates_of_apart
    (apart : ∀ first others, takeFirst policy waiting = some (first, others) →
      Cursor.key first.source ≠ key) :
    passDuplicates disk policy key waiting released = .done (waiting, released) := by
  rw [passDuplicates]
  split
  · rfl
  · next taken => rw [if_neg (apart _ _ taken)]

/-- A duplicate is moved on. It stays or is released, and the next one is looked at, unless moving it
fails. -/
theorem passDuplicates_of_same (taken : takeFirst policy waiting = some (first, others))
    (same : Cursor.key first.source = key) :
    passDuplicates disk policy key waiting released =
      let step := Cursor.next disk first.source
      let moved : Ranked σ := ⟨first.rank, step.state⟩
      match step.fault with
      | some fault => .failed (moved :: others, released) fault
      | none =>
        if Cursor.isValid step.state then passDuplicates disk policy key (moved :: others) released
        else passDuplicates disk policy key others (moved.release :: released) := by
  rw [passDuplicates]
  split
  · next none => cases taken.symm.trans none
  · next first' others' taken' =>
    cases taken.symm.trans taken'
    rw [if_pos same]
    dsimp only
    split
    · next fault failed => simp only [failed]
    · next moved =>
      simp only [moved]
      split <;> rfl

/-! ## Entering and choosing -/

/-- Choosing the current source keeps the sources in use. -/
theorem inUse_select_perm (merge : Merge σ) : merge.select.inUse.Perm merge.waiting := by
  unfold select
  split
  · exact .refl _
  · next first others taken => exact perm_of_takeFirst taken

/-- Choosing the current source releases none. -/
theorem released_select (merge : Merge σ) : merge.select.released = merge.released := by
  unfold select
  split <;> rfl

/-- A source that waits after sources have entered is one of these, or waited before. -/
theorem mem_waiting_foldl_enter {entering : List (Ranked σ)} {merge : Merge σ} {source : Ranked σ}
    (waits : source ∈ (entering.foldl (fun merge source => enter source merge) merge).waiting) :
    source ∈ entering ∨ source ∈ merge.waiting := by
  rw [waiting_foldl_enter, List.mem_append, List.mem_reverse] at waits
  exact waits.imp_left fun enters => (List.mem_filter.mp enters).1

/-- A source in use after another has entered is that one, which then stands at an entry, or waited
before. -/
theorem mem_inUse_select_enter {merge : Merge σ} {entering source : Ranked σ}
    (used : source ∈ (merge.enter entering).select.inUse) :
    source = entering ∧ Cursor.isValid entering.source = true ∨ source ∈ merge.waiting := by
  have waits := (inUse_select_perm _).mem_iff.mp used
  unfold enter at waits
  split at waits
  · next valid => exact (List.mem_cons.mp waits).imp_left fun same => ⟨same, valid⟩
  · exact .inr waits

/-- A source in use of a merge that was just made is the one listed at its place. -/
theorem getElem?_of_mem_inUse_create {sources : List σ} {source : Ranked σ}
    (member : source ∈ (create policy sources).inUse) :
    sources[source.rank]? = some source.source := by
  rcases mem_waiting_foldl_enter ((inUse_select_perm _).mem_iff.mp member) with listed | nothing
  · obtain ⟨⟨inner, rank⟩, isListed, rfl⟩ := List.mem_map.mp listed
    exact List.mem_zipIdx_iff_getElem?.mp isListed
  · cases nothing

/-- Entering a source keeps the policy. -/
theorem policy_enter (merge : Merge σ) (source : Ranked σ) :
    (merge.enter source).policy = merge.policy := by
  unfold enter
  split <;> rfl

/-- Selecting keeps the policy. -/
theorem policy_select (merge : Merge σ) : merge.select.policy = merge.policy := by
  unfold select
  split <;> rfl

/-- Entering sources keeps the policy. -/
theorem policy_foldl_enter (entering : List (Ranked σ)) (merge : Merge σ) :
    (entering.foldl (fun merge source => enter source merge) merge).policy = merge.policy := by
  induction entering generalizing merge with
  | nil => rfl
  | cons source later ih => rw [List.foldl_cons, ih, policy_enter]

/-! ## Going on -/

/-- What can come of going on with a merge. -/
inductive Goes (disk : Disk) (merge : Merge σ) : Step (Merge σ) Fault → Prop where
  /-- Without a current source there is nothing to do. -/
  | stays (nothing : merge.current = none) : Goes disk merge (.done merge)
  /-- A duplicate fails, and the ones before it have been passed over. -/
  | fails {current : Ranked σ} {passed : List (Ranked σ) × List (Ranked σ)} {fault : Fault}
      (standing : merge.current = some current)
      (failed : passDuplicates disk merge.policy (Cursor.key current.source) merge.waiting
        merge.released = .failed passed fault) :
      Goes disk merge (.failed { merge with waiting := passed.1, released := passed.2 } fault)
  /-- All duplicates have been passed over, and the current source fails. -/
  | failsLast {current : Ranked σ} {passed : List (Ranked σ) × List (Ranked σ)} {fault : Fault}
      (standing : merge.current = some current)
      (passes : passDuplicates disk merge.policy (Cursor.key current.source) merge.waiting
        merge.released = .done passed)
      (failed : (Cursor.next disk current.source).fault = some fault) :
      Goes disk merge (.failed ⟨merge.policy, passed.1,
        some ⟨current.rank, (Cursor.next disk current.source).state⟩, passed.2⟩ fault)
  /-- The current source moves too, and the one that goes first then is chosen. -/
  | moves {current : Ranked σ} {passed : List (Ranked σ) × List (Ranked σ)}
      (standing : merge.current = some current)
      (passes : passDuplicates disk merge.policy (Cursor.key current.source) merge.waiting
        merge.released = .done passed)
      (moved : (Cursor.next disk current.source).fault = none) :
      Goes disk merge (.done
        (({ merge with waiting := passed.1, released := passed.2 } : Merge σ).enter
          ⟨current.rank, (Cursor.next disk current.source).state⟩).select)

/-- Going on with a merge comes to one of these. -/
theorem goes_next (disk : Disk) (merge : Merge σ) : Goes disk merge (Cursor.next disk merge) := by
  change Goes disk merge (Merge.next disk merge)
  unfold Merge.next
  split
  · next nothing => exact .stays nothing
  · next current standing =>
    dsimp only
    split
    · next failed => exact .fails standing (Step.eq_failed failed)
    · next passes =>
      split
      · next failed => exact .failsLast standing (Step.eq_done passes) failed
      · next moved => exact .moves standing (Step.eq_done passes) moved

/-- Going on keeps the policy, also if it fails. -/
theorem policy_next (merge : Merge σ) : (Cursor.next disk merge).state.policy = merge.policy := by
  have goes := goes_next disk merge
  generalize Cursor.next disk merge = step at goes ⊢
  cases goes with
  | stays => rfl
  | fails => rfl
  | failsLast => rfl
  | moves => exact (policy_select _).trans (policy_enter _ _)

/-- A merge without a current source stays as it is. -/
theorem next_of_spent {merge : Merge σ} (spent : merge.current = none) :
    Cursor.next disk merge = .done merge := by
  have goes := goes_next disk merge
  generalize Cursor.next disk merge = step at goes ⊢
  cases goes with
  | stays => rfl
  | fails standing => cases spent.symm.trans standing
  | failsLast standing => cases spent.symm.trans standing
  | moves standing => cases spent.symm.trans standing

end Merge

end SortedTables
