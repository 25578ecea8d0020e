import SortedTables.Proofs.Cursor.MergeSteps
import SortedTables.Proofs.Cursor.Watching

/-!
# Merges of sources that do the same

A merge asks its sources only what they show, and moves and releases them. So a function that gives
sources that show and do the same (`Cursor.Conveys`) gives merges that show and do the same
(`Merge.conveys_map`). In particular a merge of watched sources does what the merge of the sources
does.
-/

namespace SortedTables

namespace Ranked

variable {σ τ : Type}

/-- Another source at the same place in the listing. -/
def map (f : σ → τ) (source : Ranked σ) : Ranked τ := ⟨source.rank, f source.source⟩

variable [Cursor σ] [Cursor τ] {f : σ → τ} (conveys : Cursor.Conveys f)

include conveys

/-- Sources that show the same are shown alike. -/
theorem shown_map (source : Ranked σ) : (source.map f).shown = source.shown := by
  simp only [shown, map, conveys.view]

/-- Sources that are released alike are released alike by a merge. -/
theorem release_map (source : Ranked σ) : (source.map f).release = source.release.map f := by
  simp only [release, map, conveys.close, Step.state_map]

/-- Which source goes first is told by what the sources show. -/
theorem takeFirst_map (policy : DuplicatePolicy) (sources : List (Ranked σ)) :
    takeFirst policy (sources.map (map f)) =
      (takeFirst policy sources).map (Prod.map (map f) (List.map (map f))) := by
  induction sources with
  | nil => rfl
  | cons source sources ih =>
    simp only [List.map_cons, takeFirst, ih]
    cases takeFirst policy sources with
    | none => rfl
    | some taken =>
      simp only [Option.map_some, Prod.map, shown_map conveys]
      split <;> rfl

end Ranked

namespace Merge

section Map

variable {σ τ : Type}

/-- The merge of other sources. -/
def map (f : σ → τ) (merge : Merge σ) : Merge τ where
  policy := merge.policy
  waiting := merge.waiting.map (Ranked.map f)
  current := merge.current.map (Ranked.map f)
  released := merge.released.map (Ranked.map f)

variable [Cursor σ] [Cursor τ] {f : σ → τ} (conveys : Cursor.Conveys f)

include conveys

/-- A source enters alike. -/
theorem enter_map (merge : Merge σ) (source : Ranked σ) :
    (merge.map f).enter (source.map f) = (merge.enter source).map f := by
  have same : Cursor.isValid (source.map f).source = Cursor.isValid source.source :=
    congrArg View.valid (conveys.view source.source)
  unfold enter
  rw [same, Ranked.release_map conveys]
  split <;> rfl

/-- The same source becomes the current one. -/
theorem select_map (merge : Merge σ) : (merge.map f).select = merge.select.map f := by
  simp only [select, map, Ranked.takeFirst_map conveys]
  cases Ranked.takeFirst merge.policy merge.waiting <;> rfl

/-- Merges are made alike. -/
theorem create_map (policy : DuplicatePolicy) (sources : List σ) :
    create policy (sources.map f) = (create policy sources).map f := by
  have enters (entering : List (Ranked σ)) (merge : Merge σ) :
      (entering.map (Ranked.map f)).foldl (fun merge source => enter source merge) (merge.map f) =
        (entering.foldl (fun merge source => enter source merge) merge).map f := by
    induction entering generalizing merge with
    | nil => rfl
    | cons source later ih => simp only [List.map_cons, List.foldl_cons, enter_map conveys, ih]
  rw [create, List.zipIdx_map, List.map_map, create, ← select_map conveys, ← enters, List.map_map]
  rfl

/-- The same duplicates are passed over. -/
theorem passDuplicates_map (disk : Disk) (policy : DuplicatePolicy) (key : Key)
    (waiting released : List (Ranked σ)) :
    passDuplicates disk policy key (waiting.map (Ranked.map f)) (released.map (Ranked.map f)) =
      (passDuplicates disk policy key waiting released).map
        (Prod.map (List.map (Ranked.map f)) (List.map (Ranked.map f))) := by
  have sameKey (source : Ranked σ) : Cursor.key (source.map f).source = Cursor.key source.source :=
    congrArg View.key (conveys.view source.source)
  have sameValid (cursor : σ) : Cursor.isValid (f cursor) = Cursor.isValid cursor :=
    congrArg View.valid (conveys.view cursor)
  have first {waiting : List (Ranked σ)} {first : Ranked σ} {others : List (Ranked σ)}
      (taken : Ranked.takeFirst policy waiting = some (first, others)) :
      Ranked.takeFirst policy (waiting.map (Ranked.map f)) =
        some (first.map f, others.map (Ranked.map f)) := by
    rw [Ranked.takeFirst_map conveys, taken]
    rfl
  fun_induction passDuplicates disk policy key waiting released with
  | case1 waiting released none =>
    refine passDuplicates_of_apart fun _ _ taken => ?_
    rw [Ranked.takeFirst_map conveys, none] at taken
    cases taken
  | case2 waiting released first' others taken same step moved fault failed =>
    have moves : Cursor.next disk (first'.map f).source = step.map f := conveys.next disk _
    rw [passDuplicates_of_same (first taken) ((sameKey first').trans same), moves]
    simp only [Step.fault_map, failed]
    rfl
  | case3 waiting released first' others taken same step moved fine standing ih =>
    have moves : Cursor.next disk (first'.map f).source = step.map f := conveys.next disk _
    rw [passDuplicates_of_same (first taken) ((sameKey first').trans same), moves]
    simp only [Step.fault_map, fine, Step.state_map, sameValid, standing, if_true]
    exact ih
  | case4 waiting released first' others taken same step moved fine spent ih =>
    have moves : Cursor.next disk (first'.map f).source = step.map f := conveys.next disk _
    rw [passDuplicates_of_same (first taken) ((sameKey first').trans same), moves]
    simp only [Step.fault_map, fine, Step.state_map, sameValid, spent, Bool.false_eq_true, if_false]
    rw [← ih, List.map_cons, ← Ranked.release_map conveys]
    rfl
  | case5 waiting released first' others taken differs =>
    refine passDuplicates_of_apart fun _ _ taken' => ?_
    rw [first taken] at taken'
    cases taken'
    rw [sameKey]
    exact differs

/-- A merge goes on alike. -/
theorem next_map (disk : Disk) (merge : Merge σ) :
    (merge.map f).next disk = (merge.next disk).map (map f) := by
  cases standing : merge.current with
  | none => simp [next, map, standing, Step.map, Step.done]
  | some current =>
    have passes := passDuplicates_map conveys disk merge.policy (Cursor.key current.source)
      merge.waiting merge.released
    have sameKey : Cursor.key (current.map f).source = Cursor.key current.source :=
      congrArg View.key (conveys.view current.source)
    have moves : Cursor.next disk (current.map f).source =
        (Cursor.next disk current.source).map f := conveys.next disk current.source
    simp only [next, map, standing, Option.map_some, sameKey, passes, Step.fault_map]
    cases (passDuplicates disk merge.policy (Cursor.key current.source) merge.waiting
      merge.released).fault with
    | some fault => rfl
    | none =>
      simp only [moves, Step.fault_map]
      cases (Cursor.next disk current.source).fault with
      | some fault => rfl
      | none =>
        simp only [Step.map, Step.done, Step.mk.injEq, and_true]
        rw [← select_map conveys, ← enter_map conveys]
        rfl

/-- A merge seeks alike. -/
theorem seek_map (disk : Disk) (key : Key) (merge : Merge σ) :
    (merge.map f).seek disk key = (merge.seek disk key).map (map f) := by
  have seeks (sources : List (Ranked σ)) (step : Step (Merge σ) Fault) :
      (sources.map (Ranked.map f)).foldl (seekSource disk key) (step.map (map f)) =
        (sources.foldl (seekSource disk key) step).map (map f) := by
    induction sources generalizing step with
    | nil => rfl
    | cons source later ih =>
      simp only [List.map_cons, List.foldl_cons, ← ih]
      congr 1
      have sought : Cursor.seek disk key (source.map f).source =
          (Cursor.seek disk key source.source).map f := conveys.seek disk key source.source
      simp only [seekSource, sought, Step.fault_map]
      cases (Cursor.seek disk key source.source).fault with
      | none =>
        simp only [Step.map, ← enter_map conveys]
        rfl
      | some fault =>
        simp only [Step.map, Step.mk.injEq, and_true]
        rw [map, map, List.map_cons, ← Ranked.release_map conveys]
        rfl
  let start : Step (Merge σ) Fault := .done { merge with waiting := [], current := none }
  have asked : (merge.map f).waiting ++ (merge.map f).current.toList =
      (merge.waiting ++ merge.current.toList).map (Ranked.map f) := by
    cases standing : merge.current <;> simp [map, standing]
  have sought := seeks (merge.waiting ++ merge.current.toList) start
  rw [← asked] at sought
  change (List.foldl _ (start.map (map f)) _).map select = _
  rw [sought, Step.map, Step.state_map, select_map conveys]
  rfl

/-- A merge is released alike. -/
theorem close_map (merge : Merge σ) : (merge.map f).close = merge.close.map (map f) := by
  have closes (sources : List (Ranked σ)) (step : Step (Merge σ) Fault) :
      (sources.map (Ranked.map f)).foldl closeSource (step.map (map f)) =
        (sources.foldl closeSource step).map (map f) := by
    induction sources generalizing step with
    | nil => rfl
    | cons source later ih =>
      simp only [List.map_cons, List.foldl_cons, ← ih]
      congr 1
      have released : Cursor.close (source.map f).source =
          (Cursor.close source.source).map f := conveys.close source.source
      simp only [closeSource, released]
      rfl
  have asked : (merge.map f).current.toList ++ (merge.map f).waiting =
      (merge.current.toList ++ merge.waiting).map (Ranked.map f) := by
    cases standing : merge.current <;> simp [map, standing]
  rw [close, close, ← closes, ← asked]
  rfl

/-- A merge shows and does the same if its sources show and do the same. -/
theorem conveys_map : Cursor.Conveys (map f) where
  view merge := by
    change view (merge.map f) = view merge
    cases standing : merge.current with
    | none => simp [view, map, standing]
    | some current =>
      simp only [view, map, standing, Option.map_some]
      exact conveys.view current.source
  next := next_map conveys
  seek := seek_map conveys
  close := close_map conveys

end Map

end Merge

end SortedTables
