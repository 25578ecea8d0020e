import Mathlib.Order.Bounds.Defs
import SortedTables.Proofs.Cursor.MergedLists
import SortedTables.Proofs.Cursor.Streaming

/-!
# Merging sources that fail

A source that cannot be moved on from one of its entries shows nothing behind that entry, and what it
would have shown there is not known. `Cursor.Carries` says how far a source goes through the entries it
was meant to show. The merge of such sources shows what the complete lists are merged to, up to the
least key behind which some source fails, and then fails (`Merge.handsOut_of_failing`).

Up to that key nothing is missing, since every failing source still stands at it or before. So no
entry is shown instead of a better one that a failing source would have had.
-/

namespace SortedTables

namespace Cursor

variable {σ : Type} [Cursor σ] {disk : Disk} {cursor : σ} {entries : List Entry}

/-- A cursor goes through entries, all of them or only up to the one with a given key: the move from
that entry fails, whatever entries are behind it. -/
inductive Carries (disk : Disk) (cursor : σ) : List Entry → Option Key → Prop where
  | complete {entries : List Entry} (walks : Walks disk showing? cursor entries none) :
      Carries disk cursor entries none
  | upTo {front behind : List Entry} {last : Entry} {fault : Fault}
      (walks : Walks disk showing? cursor (front ++ [last]) (some fault)) :
      Carries disk cursor (front ++ last :: behind) (some last.key)

/-- What a cursor walks through of entries that it goes through up to some point, and the fault
behind. -/
structure Cuts (stored : List Entry × Option Key) (run : List Entry × Option Fault) : Prop where
  /-- Nothing is left out between. -/
  isPrefix : run.1 <+: stored.1
  /-- Without a fault, all of the entries are had. -/
  complete : run.2 = none → run.1 = stored.1 ∧ stored.2 = none
  /-- A run that fails has an entry that is not below a key exactly if it does not stop before that
  key. -/
  reach_iff : ∀ key, (run.2 ≠ none → ∃ entry ∈ run.1, key ≤ entry.key) ↔
    ∀ last, stored.2 = some last → key ≤ last

/-- A cursor that goes through ascending entries walks through a front of them. -/
theorem Carries.exists_walks {stop : Option Key} (carries : Carries disk cursor entries stop)
    (ascends : Ascending entries) :
    ∃ run : List Entry × Option Fault, Walks disk showing? cursor run.1 run.2 ∧
      Cuts (entries, stop) run := by
  cases carries with
  | complete walks => exact ⟨(entries, none), walks, List.prefix_rfl, by simp, by simp⟩
  | @upTo front behind last fault walks =>
    refine ⟨(front ++ [last], some fault), walks, ⟨behind, by simp⟩, by simp, fun key => ?_⟩
    have isLast : ∀ entry ∈ front ++ [last], entry.key ≤ last.key := by
      intro entry member
      rcases List.mem_append.mp member with isFront | isLast
      · exact le_of_lt ((List.pairwise_append.mp ascends).2.2 entry isFront last
          List.mem_cons_self)
      · exact le_of_eq (congrArg Entry.key (List.mem_singleton.mp isLast))
    constructor
    · rintro reached _ ⟨⟩
      obtain ⟨entry, member, bound⟩ := reached (by simp)
      exact le_trans bound (isLast entry member)
    · intro bound _
      exact ⟨last, by simp, bound _ rfl⟩

/-- Cursors that go through listed entries walk through fronts of them. -/
theorem exists_runs_of_carries {sources : List σ} {listed : List (List Entry × Option Key)}
    (carries : List.Forall₂ (fun source stored => Carries disk source stored.1 stored.2) sources
      listed) (ascends : ∀ stored ∈ listed, Ascending stored.1) :
    ∃ runs : List (List Entry × Option Fault),
      List.Forall₂ (fun source run => Walks disk showing? source run.1 run.2) sources runs ∧
      List.Forall₂ Cuts listed runs := by
  induction carries with
  | nil => exact ⟨[], .nil, .nil⟩
  | cons here _ ih =>
    obtain ⟨first, ascends⟩ := List.forall_mem_cons.mp ascends
    obtain ⟨runs, walks, cuts⟩ := ih ascends
    obtain ⟨run, walk, cut⟩ := here.exists_walks first
    exact ⟨run :: runs, .cons walk walks, .cons cut cuts⟩

end Cursor

namespace Merge

open Cursor KeyStream

variable {σ : Type} [Cursor σ] {disk : Disk} {listed : List (List Entry × Option Key)}
  {runs : List (List Entry × Option Fault)}

/-- The run at any place of a listing is cut from the entries there. Behind the end of the listing there
are no entries. -/
theorem cuts_getD (cuts : List.Forall₂ Cuts listed runs) (rank : Nat) :
    Cuts (listed.getD rank ([], none)) (runs.getD rank ([], none)) := by
  rw [List.getD_eq_getElem?_getD, List.getD_eq_getElem?_getD]
  cases isListed : listed[rank]? with
  | some stored =>
    obtain ⟨run, isRun, cut⟩ := exists_getElem?_of_forall₂ cuts isListed
    simpa [isRun] using cut
  | none =>
    have outside := List.getElem?_eq_none_iff.mp isListed
    rw [cuts.length_eq] at outside
    rw [List.getElem?_eq_none outside]
    exact ⟨List.prefix_rfl, by simp, by simp⟩

/-- Runs that are cut from listed entries reach a key if it is not above any at which one stops. -/
theorem reach_iff_of_cuts (cuts : List.Forall₂ Cuts listed runs) {least : Key}
    (isLeast : IsLeast {last | some last ∈ listed.map Prod.snd} least) (key : Key) :
    Runs.Reach (fun rank => runs.getD rank ([], none)) key ↔ key ≤ least := by
  constructor
  · intro reached
    obtain ⟨stored, member, stops⟩ := List.mem_map.mp isLeast.1
    obtain ⟨rank, isListed⟩ := List.getElem?_of_mem member
    refine ((cuts_getD cuts rank).reach_iff key).mp (reached rank) least ?_
    rw [List.getD_eq_getElem?_getD, isListed]
    exact stops
  · intro bound rank
    refine ((cuts_getD cuts rank).reach_iff key).mpr fun last stops => le_trans bound ?_
    apply isLeast.2
    rw [List.getD_eq_getElem?_getD] at stops
    cases isListed : listed[rank]? with
    | none => simp [isListed] at stops
    | some stored =>
      rw [isListed] at stops
      exact List.mem_map.mpr ⟨stored, List.mem_of_getElem? isListed, stops⟩

/-- Some source fails, if the least key is asked for at which one stops. -/
theorem exists_failing (cuts : List.Forall₂ Cuts listed runs) {last : Key}
    (stops : some last ∈ listed.map Prod.snd) : ∃ rank, (runs.getD rank ([], none)).2 ≠ none := by
  obtain ⟨stored, member, isLast⟩ := List.mem_map.mp stops
  obtain ⟨rank, isListed⟩ := List.getElem?_of_mem member
  refine ⟨rank, fun fine => ?_⟩
  have unstopped := ((cuts_getD cuts rank).complete fine).2
  rw [List.getD_eq_getElem?_getD, isListed] at unstopped
  cases isLast.symm.trans unstopped

/-- Ascending lists are merged to something: any sources that go through them show what. -/
theorem exists_merged (policy : DuplicatePolicy) {lists : List (List Entry)}
    (ascends : ∀ entries ∈ lists, Ascending entries) :
    ∃ merged, Merged policy (Runs.ofLists lists) merged none := by
  have walks : List.Forall₂ (fun source entries => Walks .empty showing? source entries none)
      (lists.map fun entries => Scripted.ofEntries "" entries none false false) lists := by
    rw [List.forall₂_map_left_iff, List.forall₂_same]
    exact fun entries _ => Scripted.walks_of_unfailing rfl rfl
  obtain ⟨merged, _, isMerged⟩ := walks_of_lists policy walks ascends
  exact ⟨merged, isMerged⟩

/-- Runs that are cut from listed entries are fronts of these, and all of them without a fault. -/
theorem fronts_of_cuts (cuts : List.Forall₂ Cuts listed runs) (rank : Nat) :
    (runs.getD rank ([], none)).1 <+: (Runs.ofLists (listed.map Prod.fst) rank).1 ∧
      ((runs.getD rank ([], none)).2 = none →
        (runs.getD rank ([], none)).1 = (Runs.ofLists (listed.map Prod.fst) rank).1) := by
  have whole : (Runs.ofLists (listed.map Prod.fst) rank).1 = (listed.getD rank ([], none)).1 := by
    simp only [Runs.ofLists, List.getD_eq_getElem?_getD, List.getElem?_map]
    cases listed[rank]? <;> rfl
  have cut := cuts_getD cuts rank
  rw [whole]
  exact ⟨cut.isPrefix, fun fine => (cut.complete fine).1⟩

/-- Let sources go through ascending lists of entries, and let some of them fail, each on the move from
a certain entry. Up to the least key of these entries the merge of the sources shows what the complete
lists are merged to, each entry with the source it comes from, and then it fails. A stream of the
merge that has no upper end hands out just these keys, each as deleted if the entry that counts is a
tombstone; then a fault, and nothing after it. -/
theorem handsOut_of_failing (mode : ReadMode) (policy : DuplicatePolicy) {sources : List σ}
    {least : Key}
    (carries : List.Forall₂ (fun source stored => Carries disk source stored.1 stored.2) sources
      listed) (ascends : ∀ stored ∈ listed, Ascending stored.1)
    (isLeast : IsLeast {last | some last ∈ listed.map Prod.snd} least) :
    ∃ merged fault, MergeOf policy (listed.map Prod.fst) merged ∧
      Walks disk shown? (create policy sources)
        (merged.filter fun shown => decide (shown.2.key ≤ least)) (some fault) ∧
      (ofCursor mode (create policy sources) .unbounded).HandsOut disk
        ((merged.filter fun shown => decide (shown.2.key ≤ least)).map fun shown =>
          Pulled.ofEntry shown.2) (some (.ofFault none fault)) := by
  obtain ⟨runs, walks, cuts⟩ := exists_runs_of_carries carries ascends
  have wholeAscends := Runs.ascending_ofLists (List.forall_mem_map.mpr ascends)
  have follows := follows_of_runs policy walks fun rank =>
    (wholeAscends rank).sublist (fronts_of_cuts cuts rank).1.sublist
  obtain ⟨seen, ending, seenWalks, seenMerged⟩ := walks_of_follows follows
  rw [policy_create] at seenMerged
  obtain ⟨merged, isMerged⟩ := exists_merged policy (List.forall_mem_map.mpr ascends)
  obtain ⟨fault, rfl⟩ : ∃ fault, ending = some fault := by
    refine Option.ne_none_iff_exists'.mp fun fine => ?_
    obtain ⟨rank, fails⟩ := exists_failing cuts isLeast.1
    exact fails (seenMerged.complete fine rank)
  have isFilter : seen = merged.filter fun shown => decide (shown.2.key ≤ least) :=
    seenMerged.eq_filter_of_fronts (fun key => decide (key ≤ least)) isMerged wholeAscends
      (fun rank => (fronts_of_cuts cuts rank).1) (fun rank => (fronts_of_cuts cuts rank).2)
      fun key => decide_eq_true_iff.trans (reach_iff_of_cuts cuts isLeast key).symm
  subst isFilter
  have showing := seenWalks.map showing?_eq_map_shown?
  have handsOut : (ofCursor mode (create policy sources) .unbounded).HandsOut disk _ _ :=
    handsOut_ofCursor mode showing fun _ _ => rfl
  rw [List.map_map] at handsOut
  exact ⟨merged, fault, isMerged.mergeOf, seenWalks, handsOut⟩

/-- The lists of three sources. The first one fails behind its second entry, and so does the last one;
both entries have the same key. -/
def stopping : List (List Entry × Option Key) :=
  [([⟨⟨[97]⟩, 1, .put, [1]⟩, ⟨⟨[99]⟩, 1, .put, [2]⟩, ⟨⟨[100]⟩, 9, .put, []⟩], some ⟨[99]⟩),
    ([⟨⟨[98]⟩, 4, .delete, []⟩, ⟨⟨[99]⟩, 4, .delete, []⟩, ⟨⟨[101]⟩, 4, .put, []⟩], none),
    ([⟨⟨[97]⟩, 2, .delete, []⟩, ⟨⟨[99]⟩, 3, .put, [3]⟩, ⟨⟨[100]⟩, 1, .put, []⟩], some ⟨[99]⟩)]

/-- Sources that go through these lists. -/
def stoppers : List Scripted :=
  stopping.map fun stored => .ofEntries "" stored.1 (stored.2.map fun _ => 2) false false

/-- The key behind which two sources fail is handed out, as deleted by an entry of the third one. Larger
keys are not handed out, not even those of the third source. -/
theorem handsOut_of_failing_stoppers :
    ∃ pulled fault, (ofCursor .withTombstones (create .newestSequence stoppers) .unbounded).HandsOut
        .empty pulled (some fault) ∧
      (⟨[97]⟩, true) ∈ pulled ∧ (⟨[99]⟩, true) ∈ pulled ∧ ∀ flag, (⟨[101]⟩, flag) ∉ pulled := by
  have carries : List.Forall₂ (fun source stored => Carries .empty source stored.1 stored.2)
      stoppers stopping := by
    refine .cons ?_ (.cons ?_ (.cons ?_ .nil))
    · exact .upTo (Scripted.walks_of_failing [_] rfl rfl)
    · exact .complete (Scripted.walks_of_unfailing rfl rfl)
    · exact .upTo (Scripted.walks_of_failing [_] rfl rfl)
  have isLeast : IsLeast {last | some last ∈ stopping.map Prod.snd} (⟨[99]⟩ : Key) := by
    refine ⟨by decide, ?_⟩
    intro last member
    have listed : some last ∈ [some ⟨[99]⟩, none, some (⟨[99]⟩ : Key)] := member
    simp only [List.mem_cons, Option.some.injEq, reduceCtorEq, List.not_mem_nil, or_false,
      false_or, or_self] at listed
    exact le_of_eq listed.symm
  obtain ⟨merged, fault, isMerge, _, handsOut⟩ :=
    handsOut_of_failing .withTombstones .newestSequence carries (by unfold Ascending; decide) isLeast
  have isPulled (rank : Nat) (entry : Entry) (reached : entry.key ≤ ⟨[99]⟩)
      (counts : Counts .newestSequence (fun rank => (stopping.map Prod.fst).getD rank []) rank
        entry) :
      Pulled.ofEntry entry ∈ (merged.filter fun shown => decide (shown.2.key ≤ ⟨[99]⟩)).map
        fun shown => Pulled.ofEntry shown.2 :=
    List.mem_map.mpr ⟨(rank, entry), List.mem_filter.mpr
      ⟨(isMerge.mem_iff rank entry).mpr counts, decide_eq_true reached⟩, rfl⟩
  refine ⟨_, _, handsOut, ?_, ?_, ?_⟩
  · exact isPulled 2 ⟨⟨[97]⟩, 2, .delete, []⟩ (by decide) (counts_iff_of_lists.mpr (by decide))
  · exact isPulled 1 ⟨⟨[99]⟩, 4, .delete, []⟩ (by decide) (counts_iff_of_lists.mpr (by decide))
  · intro flag member
    obtain ⟨shown, isShown, same⟩ := List.mem_map.mp member
    have bound := of_decide_eq_true (List.mem_filter.mp isShown).2
    have isKey : shown.2.key = ⟨[101]⟩ := congrArg Prod.fst same
    rw [isKey] at bound
    exact absurd bound (by decide)

end Merge

end SortedTables
