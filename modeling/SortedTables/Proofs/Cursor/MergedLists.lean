import SortedTables.Proofs.Cursor.Draining
import SortedTables.Proofs.Cursor.Merging
import SortedTables.Proofs.Cursor.Scripts

/-!
# Merging lists of entries

What sources are merged to that do not fail can be said of the lists of entries they walk through:
`MergeOf` asks for one entry of each key, in ascending order, and for the one that counts. Draining the
merge of such sources gives exactly that (`Merge.drains_create`). What is seen of a merge on the way
is the entry that it shows and the source that it names as the current one
(`Merge.shown?_eq_some_iff`).

The entry that counts is the greatest one by the precedence of the policy. Since places in the listing
are part of the precedence, two entries with the same key are never equally great.
-/

namespace SortedTables

/-- What lists of entries are merged to: entries with the places in the listing that they come
from. -/
structure MergeOf (policy : DuplicatePolicy) (lists : List (List Entry))
    (merged : List (Nat × Entry)) : Prop where
  /-- Keys ascend strictly, so that none occurs twice. -/
  ascends : (merged.map fun shown => shown.2.key).Pairwise (· < ·)
  /-- The keys are those of all lists. -/
  mem_keys : ∀ key, key ∈ merged.map (fun shown => shown.2.key) ↔
    ∃ entries ∈ lists, ∃ entry ∈ entries, entry.key = key
  /-- Of the entries with a key the one that counts is taken. -/
  mem_iff : ∀ rank entry, (rank, entry) ∈ merged ↔
    Counts policy (fun rank => lists.getD rank []) rank entry

/-- The runs of sources that walk through lists of entries and do not fail. -/
def Runs.ofLists (lists : List (List Entry)) : Runs := fun rank => (lists.getD rank [], none)

/-- An entry that is held in some place of a listing is in the list at that place. -/
theorem mem_getD_iff {lists : List (List Entry)} {rank : Nat} {entry : Entry} :
    entry ∈ lists.getD rank [] ↔ ∃ entries, lists[rank]? = some entries ∧ entry ∈ entries := by
  rw [List.getD_eq_getElem?_getD]
  cases lists[rank]? <;> simp

/-- Runs through ascending lists ascend. -/
theorem Runs.ascending_ofLists {lists : List (List Entry)}
    (ascends : ∀ entries ∈ lists, Ascending entries) (rank : Nat) :
    Ascending (Runs.ofLists lists rank).1 := by
  unfold Runs.ofLists
  rw [List.getD_eq_getElem?_getD]
  cases isListed : lists[rank]? with
  | none => exact List.Pairwise.nil
  | some entries => exact ascends entries (List.mem_of_getElem? isListed)

/-- To know that an entry of a listing counts, it is enough to compare it with the listed ones. -/
theorem counts_iff_of_lists {policy : DuplicatePolicy} {lists : List (List Entry)} {rank : Nat}
    {entry : Entry} :
    Counts policy (fun rank => lists.getD rank []) rank entry ↔
      entry ∈ lists.getD rank [] ∧ ∀ rivalRank < lists.length, ∀ rival ∈ lists.getD rivalRank [],
        rival.key = entry.key → policy.Prefers rank entry rivalRank rival := by
  refine and_congr_right fun _ => ⟨fun prefers rivalRank _ => prefers rivalRank, ?_⟩
  intro prefers rivalRank rival isRival
  obtain ⟨entries, isListed, _⟩ := mem_getD_iff.mp isRival
  exact prefers rivalRank (List.getElem?_eq_some_iff.mp isListed).1 rival isRival

/-- What a merge makes of sources that do not fail is what their lists are merged to. -/
theorem Merged.mergeOf {policy : DuplicatePolicy} {lists : List (List Entry)}
    {merged : List (Nat × Entry)} (isMerged : Merged policy (Runs.ofLists lists) merged none) :
    MergeOf policy lists merged where
  ascends := by
    have ascends := List.pairwise_map.mp isMerged.ascends
    exact List.pairwise_map.mpr ascends
  mem_keys key := by
    have short (rank : Nat) (outside : lists.length ≤ rank) :
        (Runs.ofLists lists).held rank = [] := by
      simp [Runs.ofLists, Runs.held, List.getElem?_eq_none outside]
    rw [List.mem_map, isMerged.exists_key_iff short]
    constructor
    · rintro ⟨rank, entry, isHeld, same⟩
      obtain ⟨entries, isListed, member⟩ := mem_getD_iff.mp isHeld
      exact ⟨entries, List.mem_of_getElem? isListed, entry, member, same⟩
    · rintro ⟨entries, member, entry, isEntry, same⟩
      obtain ⟨rank, isListed⟩ := List.getElem?_of_mem member
      exact ⟨rank, entry, mem_getD_iff.mpr ⟨entries, isListed, isEntry⟩, same⟩
  mem_iff := mem_iff_counts isMerged

namespace Merge

open Cursor

variable {σ : Type} [Cursor σ] {disk : Disk} {lists : List (List Entry)}

/-- What is seen of a merge at a place: the entry it stands at, and the source this comes from. -/
theorem shown?_eq_some_iff {merge : Merge σ} {rank : Nat} {entry : Entry} :
    shown? merge = some (rank, entry) ↔
      showing? merge = some entry ∧ merge.currentSource = some rank := by
  rw [showing?_eq_map_shown?]
  unfold shown? currentSource
  cases merge.current with
  | none => simp
  | some current => cases showing? current.source <;> simp [and_comm]

/-- A merge that is at its end shows nothing, and no source is its current one. -/
theorem Follows.spent_of_shown? {runs : Runs} {merge : Merge σ} (follows : Follows disk runs merge)
    (nothing : shown? merge = none) : isValid merge = false ∧ merge.currentSource = none := by
  constructor
  · apply valid_of_showing?_eq_none
    rw [showing?_eq_map_shown?, nothing]
    rfl
  · cases standing : merge.current with
    | none => simp [currentSource, standing]
    | some current =>
      obtain ⟨entry, _, _, _, here, _⟩ := follows.least standing
      simp [shown?, standing, here] at nothing

/-- Sources follow the listed runs that they walk through, if these ascend. -/
theorem follows_of_runs (policy : DuplicatePolicy) {sources : List σ}
    {runs : List (List Entry × Option Fault)}
    (walks : List.Forall₂ (fun source run => Walks disk showing? source run.1 run.2) sources runs)
    (ascends : ∀ rank, Ascending (runs.getD rank ([], none)).1) :
    Follows disk (fun rank => runs.getD rank ([], none)) (create policy sources) := by
  refine follows_create ?_ ascends ?_
  · intro rank source isSource
    obtain ⟨run, isRun, walk⟩ := exists_getElem?_of_forall₂ walks isSource
    simpa [isRun] using walk
  · intro rank outside
    rw [walks.length_eq] at outside
    simp [List.getElem?_eq_none outside]

/-- Sources that walk through ascending lists follow the runs of these. -/
theorem follows_of_lists (policy : DuplicatePolicy) {sources : List σ}
    (walks : List.Forall₂ (fun source entries => Walks disk showing? source entries none) sources
      lists) (ascends : ∀ entries ∈ lists, Ascending entries) :
    Follows disk (Runs.ofLists lists) (create policy sources) := by
  have listedRuns : Runs.ofLists lists =
      fun rank => (lists.map fun entries => (entries, none)).getD rank ([], none) := by
    funext rank
    simp only [Runs.ofLists, List.getD_eq_getElem?_getD, List.getElem?_map]
    cases lists[rank]? <;> rfl
  have wholeAscends := Runs.ascending_ofLists ascends
  rw [listedRuns] at wholeAscends ⊢
  exact follows_of_runs policy (List.forall₂_map_right_iff.mpr walks) wholeAscends

/-- A merge of sources that do not fail walks through what their lists are merged to. -/
theorem walks_of_lists (policy : DuplicatePolicy) {sources : List σ}
    (walks : List.Forall₂ (fun source entries => Walks disk showing? source entries none) sources
      lists) (ascends : ∀ entries ∈ lists, Ascending entries) :
    ∃ merged, Walks disk shown? (create policy sources) merged none ∧
      Merged policy (Runs.ofLists lists) merged none := by
  obtain ⟨merged, seen, isMerged⟩ :=
    (follows_of_lists policy walks ascends).exists_walks fun _ => rfl
  rw [policy_create] at isMerged
  exact ⟨merged, seen, isMerged⟩

/-- Draining the merge of sources that walk through ascending lists of entries and do not fail gives
what the lists are merged to. Every entry is shown with all its fields, and with the place in the
listing of the source it comes from; no move fails. The merge that is left then shows nothing, and no
source is its current one. -/
theorem drains_create (policy : DuplicatePolicy) {sources : List σ}
    (walks : List.Forall₂ (fun source entries => Walks disk showing? source entries none) sources
      lists) (ascends : ∀ entries ∈ lists, Ascending entries) :
    ∃ merged last, MergeOf policy lists merged ∧
      Drains disk shown? (create policy sources) merged last ∧
      isValid last = false ∧ last.currentSource = none := by
  obtain ⟨merged, seen, isMerged⟩ := walks_of_lists policy walks ascends
  obtain ⟨last, drains⟩ := seen.exists_drains
  have follows : ∃ runs, Follows disk runs last := by
    refine drains.invariant (fun merge => ∃ runs, Follows disk runs merge)
      ⟨_, follows_of_lists policy walks ascends⟩ ?_
    rintro merge ⟨runs, follows⟩ isShown moved
    obtain ⟨⟨rank, entry⟩, shown⟩ := Option.isSome_iff_exists.mp isShown
    have next := follows.next shown
    rw [moved] at next
    exact ⟨_, next.1⟩
  obtain ⟨runs, follows⟩ := follows
  exact ⟨merged, last, isMerged.mergeOf, drains, follows.spent_of_shown? drains.look_last⟩

/-- Three lists with keys in common, and one without entries. -/
def contested : List (List Entry) :=
  [[⟨⟨[97]⟩, 5, .put, [1]⟩, ⟨⟨[98]⟩, 3, .put, [2]⟩], [],
    [⟨⟨[97]⟩, 2, .delete, []⟩, ⟨⟨[98]⟩, 3, .delete, []⟩],
    [⟨⟨[]⟩, 0, .put, []⟩, ⟨⟨[98]⟩, 2, .put, [3]⟩]]

/-- Sources that walk through these lists. -/
def contestants : List Scripted :=
  contested.map fun entries => .ofEntries "" entries none false false

/-- Of equally new entries the one from the source listed last is shown, which here is a tombstone. An
older one is not shown even if its source is listed later. -/
theorem drains_create_contested :
    ∃ merged last, Drains .empty shown? (create .newestSequence contestants) merged last ∧
      isValid last = false ∧ (0, ⟨⟨[97]⟩, 5, .put, [1]⟩) ∈ merged ∧
      (2, ⟨⟨[98]⟩, 3, .delete, []⟩) ∈ merged := by
  have walks : List.Forall₂ (fun source entries => Walks .empty showing? source entries none)
      contestants contested := by
    rw [contestants, List.forall₂_map_left_iff, List.forall₂_same]
    exact fun entries _ => Scripted.walks_of_unfailing rfl rfl
  obtain ⟨merged, last, isMerge, drains, ended, _⟩ :=
    drains_create .newestSequence walks (by unfold Ascending; decide)
  refine ⟨merged, last, drains, ended, ?_, ?_⟩
  · exact (isMerge.mem_iff _ _).mpr (counts_iff_of_lists.mpr (by decide))
  · exact (isMerge.mem_iff _ _).mpr (counts_iff_of_lists.mpr (by decide))

end Merge

end SortedTables
