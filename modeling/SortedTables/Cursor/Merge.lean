import SortedTables.Cursor.Basic

/-!
# Merging cursors

A merge shows the entries of any number of cursors in one ascending sequence in which every key
occurs once. When several sources stand at the same key, a policy says which of them is shown: the
others are passed over when the merge moves on.

A source without further entries is released at once, and so is one that cannot be sought. A source
that fails to move is kept, with the current entry, so that the move can be tried again. Released
sources stay part of the merge, out of use; every source is in exactly one of the three places.
-/

namespace SortedTables

/-- Which of several entries with the same key counts. -/
inductive DuplicatePolicy where
  /-- The one with the largest sequence number; of equal ones that from the source listed last. -/
  | newestSequence
  /-- The one from the source listed last. -/
  | lastListed
deriving DecidableEq, Inhabited

/-- A source of a merge with its place in the listing. -/
structure Ranked (σ : Type) where
  /-- The place in the listing. -/
  rank : Nat
  /-- The source. -/
  source : σ

namespace Ranked

variable {σ : Type} [Cursor σ]

/-- What a source shows, with its place in the listing. -/
def shown (source : Ranked σ) : Ranked View :=
  ⟨source.rank, Cursor.view source.source⟩

/-- Whether the first entry counts and not the second one, their keys being equal. -/
def beats (policy : DuplicatePolicy) (left right : Ranked View) : Bool :=
  match policy with
  | .newestSequence =>
    right.source.seq < left.source.seq ||
      (left.source.seq = right.source.seq && right.rank < left.rank)
  | .lastListed => right.rank < left.rank

/-- Whether the first entry is to be shown before the second one: its key is smaller, or it has the
same key and counts. -/
def goesBefore (policy : DuplicatePolicy) (left right : Ranked View) : Bool :=
  left.source.key < right.source.key ||
    (left.source.key = right.source.key && beats policy left right)

/-- The source that goes before all others, and the others. -/
def takeFirst (policy : DuplicatePolicy) :
    List (Ranked σ) → Option (Ranked σ × List (Ranked σ))
  | [] => none
  | source :: sources =>
    match takeFirst policy sources with
    | none => some (source, [])
    | some (best, others) =>
      if goesBefore policy best.shown source.shown then some (best, source :: others)
      else some (source, best :: others)

/-- Taking the first source loses none and repeats none. -/
theorem perm_of_takeFirst {policy : DuplicatePolicy} {sources others : List (Ranked σ)}
    {best : Ranked σ} (taken : takeFirst policy sources = some (best, others)) :
    (best :: others).Perm sources := by
  induction sources generalizing best others with
  | nil => cases taken
  | cons source sources ih =>
    unfold takeFirst at taken
    split at taken
    · next none =>
      cases taken
      cases sources with
      | nil => exact List.Perm.refl _
      | cons next later =>
        unfold takeFirst at none
        split at none
        · cases none
        · split at none <;> cases none
    · next found rest recursive =>
      split at taken
      · cases taken
        exact (List.Perm.swap _ _ _).trans ((ih recursive).cons _)
      · cases taken
        exact (ih recursive).cons _

/-- Releases a source. Whether that succeeds makes no difference once its entries are used up. -/
def release (source : Ranked σ) : Ranked σ :=
  { source with source := (Cursor.close source.source).state }

/-- A bound on the moves of several sources, releasing a source being a move. -/
def totalBudget : List (Ranked σ) → Nat
  | [] => 0
  | source :: sources => Cursor.budget source.source + 1 + totalBudget sources

theorem totalBudget_cons (source : Ranked σ) (sources : List (Ranked σ)) :
    totalBudget (source :: sources) = Cursor.budget source.source + 1 + totalBudget sources := by
  rfl

theorem totalBudget_of_perm {left right : List (Ranked σ)} (same : left.Perm right) :
    totalBudget left = totalBudget right := by
  induction same with
  | nil => rfl
  | cons source _ ih => simp only [totalBudget_cons, ih]
  | swap first second => simp only [totalBudget_cons]; omega
  | trans _ _ ihLeft ihRight => exact ihLeft.trans ihRight

end Ranked

/-- A merge of cursors. -/
structure Merge (σ : Type) where
  /-- Which of several entries with the same key counts. -/
  policy : DuplicatePolicy
  /-- The sources in use but the current one, in no particular order. -/
  waiting : List (Ranked σ)
  /-- The source whose entry is shown. -/
  current : Option (Ranked σ)
  /-- The sources that were released, the last one first. -/
  released : List (Ranked σ)

namespace Merge

open Ranked

variable {σ : Type} [Cursor σ]

/-- Puts a source among those in use or, if it has no entry, among the released ones. -/
def enter (source : Ranked σ) (merge : Merge σ) : Merge σ :=
  if Cursor.isValid source.source then { merge with waiting := source :: merge.waiting }
  else { merge with released := source.release :: merge.released }

/-- When sources have entered, those of them that have an entry wait, the last one first, before the ones
that waited already. -/
theorem waiting_foldl_enter (entering : List (Ranked σ)) (merge : Merge σ) :
    (entering.foldl (fun merge source => enter source merge) merge).waiting =
      (entering.filter fun source => Cursor.isValid source.source).reverse ++ merge.waiting := by
  induction entering generalizing merge with
  | nil => rfl
  | cons source later ih =>
    rw [List.foldl_cons, ih, List.filter_cons]
    unfold enter
    split <;> simp

/-- Makes the source that goes first the current one. -/
def select (merge : Merge σ) : Merge σ :=
  match takeFirst merge.policy merge.waiting with
  | none => { merge with current := none }
  | some (first, others) => { merge with waiting := others, current := some first }

/-- The merge of sources in listing order. -/
def create (policy : DuplicatePolicy) (sources : List σ) : Merge σ :=
  let ranked := sources.zipIdx.map fun (source, rank) => (⟨rank, source⟩ : Ranked σ)
  let empty : Merge σ := ⟨policy, [], none, []⟩
  (ranked.foldl (fun merge source => enter source merge) empty).select

/-- The place in the listing of the source whose entry is shown. -/
def currentSource (merge : Merge σ) : Option Nat :=
  merge.current.map Ranked.rank

/-- What the merge shows. -/
def view (merge : Merge σ) : View :=
  match merge.current with
  | none => .blank
  | some current => Cursor.view current.source

/-- Moves every waiting source that stands at a key on, until none does: waiting sources and
released ones after that. -/
def passDuplicates (disk : Disk) (policy : DuplicatePolicy) (key : Key)
    (waiting released : List (Ranked σ)) :
    Step (List (Ranked σ) × List (Ranked σ)) Fault :=
  match _taken : takeFirst policy waiting with
  | none => .done (waiting, released)
  | some (first, others) =>
    if Cursor.key first.source = key then
      let step := Cursor.next disk first.source
      let moved : Ranked σ := { first with source := step.state }
      match _fault : step.fault with
      | some fault => .failed (moved :: others, released) fault
      | none =>
        if _valid : Cursor.isValid step.state then
          passDuplicates disk policy key (moved :: others) released
        else
          passDuplicates disk policy key others (moved.release :: released)
    else
      .done (waiting, released)
termination_by totalBudget waiting
decreasing_by
  · have whole := totalBudget_of_perm (perm_of_takeFirst _taken)
    have less := Cursor.budget_next_lt disk first.source _fault _valid
    rw [totalBudget_cons] at whole ⊢
    dsimp only
    omega
  · have whole := totalBudget_of_perm (perm_of_takeFirst _taken)
    rw [totalBudget_cons] at whole
    omega

/-- Goes to the next key. -/
def next (disk : Disk) (merge : Merge σ) : Step (Merge σ) Fault :=
  match merge.current with
  | none => .done merge
  | some current =>
    let passed := passDuplicates disk merge.policy (Cursor.key current.source)
      merge.waiting merge.released
    let merge := { merge with waiting := passed.state.1, released := passed.state.2 }
    match passed.fault with
    | some fault => .failed merge fault
    | none =>
      let step := Cursor.next disk current.source
      let moved : Ranked σ := { current with source := step.state }
      match step.fault with
      | some fault => .failed { merge with current := some moved } fault
      | none => .done (merge.enter moved).select

/-- Seeks a key with one more source. A source that fails is released, and its fault reported unless
another was before. -/
def seekSource (disk : Disk) (key : Key) (step : Step (Merge σ) Fault) (source : Ranked σ) :
    Step (Merge σ) Fault :=
  let sought := Cursor.seek disk key source.source
  let moved : Ranked σ := { source with source := sought.state }
  match sought.fault with
  | none => ⟨step.state.enter moved, step.fault⟩
  | some fault =>
    ⟨{ step.state with released := moved.release :: step.state.released },
      step.fault <|> some fault⟩

/-- Goes to the first entry whose key is not below the given one, with every source. -/
def seek (disk : Disk) (key : Key) (merge : Merge σ) : Step (Merge σ) Fault :=
  ((merge.waiting ++ merge.current.toList).foldl (seekSource disk key)
    (.done { merge with waiting := [], current := none })).map select

/-- Releases one more source, reporting its fault unless another was before. -/
def closeSource (step : Step (Merge σ) Fault) (source : Ranked σ) : Step (Merge σ) Fault :=
  let closed := Cursor.close source.source
  ⟨{ step.state with
      released := { source with source := closed.state } :: step.state.released },
    step.fault <|> closed.fault⟩

/-- Releases every source in use, the current one first. -/
def close (merge : Merge σ) : Step (Merge σ) Fault :=
  (merge.current.toList ++ merge.waiting).foldl closeSource
    (.done { merge with waiting := [], current := none })

/-- The sources in use. -/
def inUse (merge : Merge σ) : List (Ranked σ) :=
  merge.current.toList ++ merge.waiting

/-- All sources in listing order. -/
def sources (merge : Merge σ) : List σ :=
  ((merge.inUse ++ merge.released).mergeSort (fun left right => left.rank ≤ right.rank)).map
    Ranked.source

/-- A bound on the moves of the sources in use. -/
def budget (merge : Merge σ) : Nat :=
  totalBudget merge.inUse

theorem budget_select_le (merge : Merge σ) : merge.select.budget ≤ totalBudget merge.waiting := by
  unfold select
  split
  · exact Nat.le_refl _
  · next first others taken =>
    have whole := totalBudget_of_perm (perm_of_takeFirst taken)
    simp only [budget, inUse, Option.toList_some, List.singleton_append]
    omega

/-- Passing over duplicates uses up part of the bound. -/
theorem totalBudget_passDuplicates_le (disk : Disk) (policy : DuplicatePolicy) (key : Key)
    (waiting released : List (Ranked σ))
    (passed : (passDuplicates disk policy key waiting released).fault = none) :
    totalBudget (passDuplicates disk policy key waiting released).state.1 ≤
      totalBudget waiting := by
  fun_induction passDuplicates disk policy key waiting released with
  | case1 => exact Nat.le_refl _
  | case2 => simp at passed
  | case3 waiting released first others taken same step moved fault valid ih =>
    refine Nat.le_trans (ih passed) ?_
    have whole := totalBudget_of_perm (perm_of_takeFirst taken)
    have less := Cursor.budget_next_lt disk first.source fault valid
    rw [totalBudget_cons] at whole ⊢
    simp only [moved, step]
    omega
  | case4 waiting released first others taken same step moved fault valid ih =>
    refine Nat.le_trans (ih passed) ?_
    have whole := totalBudget_of_perm (perm_of_takeFirst taken)
    rw [totalBudget_cons] at whole
    omega
  | case5 => exact Nat.le_refl _

instance : Cursor (Merge σ) where
  view := view
  next := next
  seek := seek
  close := close
  active merge := merge.inUse.foldl (fun total source => total + Cursor.active source.source) 0
  budget := budget
  budget_next_lt := by
    intro disk merge moved valid
    cases standing : merge.current with
    | none => simp [next, standing, view, View.blank] at valid
    | some current =>
      cases passed : (passDuplicates disk merge.policy (Cursor.key current.source)
          merge.waiting merge.released).fault with
      | some fault => simp [next, standing, passed] at moved
      | none =>
        cases advanced : (Cursor.next disk current.source).fault with
        | some fault => simp [next, standing, passed, advanced] at moved
        | none =>
          have fewer := totalBudget_passDuplicates_le disk merge.policy
            (Cursor.key current.source) merge.waiting merge.released passed
          have before : merge.budget =
              Cursor.budget current.source + 1 + totalBudget merge.waiting := by
            simp [budget, inUse, standing, totalBudget_cons]
          simp only [next, standing, passed, advanced, Step.state_done]
          refine Nat.lt_of_le_of_lt (budget_select_le _) ?_
          rw [before]
          unfold enter
          split
          · next still =>
            have less := Cursor.budget_next_lt disk current.source advanced still
            rw [totalBudget_cons]
            dsimp only
            omega
          · dsimp only
            omega

end Merge

end SortedTables
