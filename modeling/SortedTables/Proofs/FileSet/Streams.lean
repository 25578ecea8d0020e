import SortedTables.Proofs.Block.Records
import SortedTables.Proofs.Cursor.Merging
import SortedTables.Proofs.Cursor.Streaming
import SortedTables.Proofs.FileSet.Source

/-!
# What a stream over files comes to

A stream over files merges what its files give. `FileSet.Delivers` says what that is, for files of
which some blocks may be unreadable: the runs are what the files offer, and the stream hands out what
these are merged to. If nothing is in the way in any file, these are all entries that the mode reads
(`FileSet.allRuns`), and the stream ends without a fault.

Whether a stream can be opened at all is decided by its files one after the other, and is settled
with the same obstacles.
-/

namespace SortedTables

/-- Where a function does not succeed on all elements, it fails on one. -/
theorem exists_of_mapM_eq_error {α β ε : Type} {f : α → Except ε β} {elements : List α} {fault : ε}
    (fails : elements.mapM f = .error fault) : ∃ element ∈ elements, f element = .error fault := by
  induction elements with
  | nil => cases fails
  | cons first later ih =>
    rw [List.mapM_cons] at fails
    cases here : f first with
    | error other =>
      rw [here] at fails
      cases fails
      exact ⟨first, List.mem_cons_self, here⟩
    | ok result =>
      cases rest : later.mapM f with
      | error other =>
        rw [here, rest] at fails
        cases fails
        obtain ⟨element, member, failed⟩ := ih rest
        exact ⟨element, List.mem_cons_of_mem _ member, failed⟩
      | ok others =>
        rw [here, rest] at fails
        cases fails

namespace FileSet

open Cursor KeyStream

variable {host : Host} {files : FileSet} {mode : ReadMode} {lower upper : Option Key}

/-- A table, and the blocks of entries that it was made of. -/
abbrev Stored : Type := Table × List (List Entry)

/-- A path opens as a table that holds the given entries. -/
structure Opens (disk : Disk) (path : String) (stored : Stored) : Prop where
  /-- The path can be opened. -/
  opened : Table.openPath disk path = .ok stored.1
  /-- What can be read of the table is as given. -/
  holds : stored.1.Holds disk stored.2

/-- What a stream over files comes to. -/
structure Delivers (disk : Disk) (policy : DuplicatePolicy) (mode : ReadMode)
    (lower upper : Option Key) (listed : List Stored) (stream : KeyStream FileSetCursor)
    (runs : Runs) (seen : List (Nat × Entry)) (ending : Option Fault) : Prop where
  /-- Of each file some of what is read is had. -/
  offers : ∀ rank stored, listed[rank]? = some stored →
    Offers disk mode lower upper stored.1 stored.2 (runs rank).1 (runs rank).2
  /-- There are no other runs. -/
  spent : ∀ rank, listed.length ≤ rank → runs rank = ([], none)
  /-- What is had is merged. -/
  merged : Merged policy runs seen ending
  /-- What it is merged to is handed out. -/
  handsOut : stream.HandsOut disk (seen.map fun shown => Pulled.ofEntry shown.2)
    (ending.map (.ofFault none))

/-- A stream over a file that must fail it does not end without a fault. -/
theorem Delivers.ending_ne_none {disk : Disk} {policy : DuplicatePolicy} {listed : List Stored}
    {stream : KeyStream FileSetCursor} {runs : Runs} {seen : List (Nat × Entry)}
    {ending : Option Fault}
    (delivers : Delivers disk policy mode lower upper listed stream runs seen ending)
    {stored : Stored} (member : stored ∈ listed)
    (fails : MustFail disk mode lower upper stored.1 stored.2) : ending ≠ none := by
  intro ended
  obtain ⟨rank, isStored⟩ := List.getElem?_of_mem member
  exact (delivers.offers rank stored isStored).passed (delivers.merged.complete ended rank) fails

/-- What is read of a file lies between the ends. -/
theorem mem_selected {entries : List Entry} {entry : Entry} :
    entry ∈ selected mode lower upper entries ↔
      entry ∈ entries ∧ Key.isWithin lower upper entry.key = true ∧ mode.reads entry = true := by
  rw [selected, List.mem_filter, Bool.and_eq_true]

/-- What is read of a table ascends. -/
theorem ascending_selected {table : Table} {disk : Disk} {groups : List (List Entry)}
    (holds : table.Holds disk groups) : Ascending (selected mode lower upper groups.flatten) :=
  List.Pairwise.filter _ holds.ascends

/-- Sources of files walk through what the files offer. -/
theorem exists_runs {paths : List String} {listed : List Stored}
    {sources : List (Bounded TableSource)} (opens : List.Forall₂ (Opens host.disk) paths listed)
    (opened : List.Forall₂ (fun path source =>
      openSource host mode.capability? lower upper path = .ok source) paths sources) :
    ∃ runs : Runs, (∀ rank, Ascending (runs rank).1) ∧
      (∀ rank, listed.length ≤ rank → runs rank = ([], none)) ∧
      (∀ rank stored, listed[rank]? = some stored →
        Offers host.disk mode lower upper stored.1 stored.2 (runs rank).1 (runs rank).2) ∧
      ∀ rank source, sources[rank]? = some source →
        Walks host.disk showing? source (runs rank).1 (runs rank).2 := by
  induction opens generalizing sources with
  | nil =>
    cases opened
    exact ⟨fun _ => ([], none), fun _ => List.Pairwise.nil, fun _ _ => rfl, by simp, by simp⟩
  | cons here _ ih =>
    cases opened with
    | cons isOpened opened =>
      obtain ⟨runs, ascends, spent, offers, walks⟩ := ih opened
      have offered := offers_of_openSource here.opened here.holds mode lower upper
      rw [isOpened] at offered
      obtain ⟨part, ending, walk, offer⟩ := offered
      refine ⟨fun rank => Nat.casesOn rank (part, ending) runs, ?_, ?_, ?_, ?_⟩
      · rintro (_ | rank)
        · exact List.Pairwise.sublist offer.isPrefix.sublist (ascending_selected here.holds)
        · exact ascends rank
      · rintro (_ | rank) outside
        · cases outside
        · exact spent rank (Nat.le_of_succ_le_succ outside)
      · rintro (_ | rank) stored isStored
        · cases isStored
          exact offer
        · exact offers rank stored isStored
      · rintro (_ | rank) source isSource
        · cases isSource
          exact walk
        · exact walks rank source isSource

/-- What files offer is below the upper end. -/
theorem admitted_of_merged {disk : Disk} {policy : DuplicatePolicy} {listed : List Stored}
    {runs : Runs} {seen : List (Nat × Entry)} {ending : Option Fault}
    (spent : ∀ rank, listed.length ≤ rank → runs rank = ([], none))
    (offers : ∀ rank stored, listed[rank]? = some stored →
      Offers disk mode lower upper stored.1 stored.2 (runs rank).1 (runs rank).2)
    (merged : Merged policy runs seen ending) :
    ∀ entry ∈ seen.map Prod.snd, (upperBound upper).admitsBelow entry.key = true := by
  intro entry member
  obtain ⟨⟨rank, _⟩, isSeen, rfl⟩ := List.mem_map.mp member
  have isHeld := ((merged.mem_iff rank _).mp isSeen).1.1
  cases isStored : listed[rank]? with
  | none =>
    rw [Runs.held, spent rank (List.getElem?_eq_none_iff.mp isStored)] at isHeld
    cases isHeld
  | some stored =>
    have isRead := (offers rank stored isStored).isPrefix.subset isHeld
    have within := (mem_selected.mp isRead).2.1
    rw [Key.isWithin, Bool.and_eq_true] at within
    rw [admitsBelow_upperBound]
    exact within.2

/-- A stream over files that open delivers what they offer. It cannot be opened only if something is in
the way in one of them. -/
theorem delivers_of_openAll {listed : List Stored}
    (opens : List.Forall₂ (Opens host.disk) files.paths listed) :
    match files.openAll host mode mode.capability? lower upper with
    | .error _ => ∃ stored ∈ listed, MayFail host.disk mode lower upper stored.1 stored.2
    | .ok stream => ∃ runs seen ending,
        Delivers host.disk files.policy mode lower upper listed stream runs seen ending := by
  unfold openAll
  cases maps : files.paths.mapM (openSource host mode.capability? lower upper) with
  | error fault =>
    obtain ⟨path, member, failed⟩ := exists_of_mapM_eq_error maps
    obtain ⟨rank, isPath⟩ := List.getElem?_of_mem member
    obtain ⟨stored, isStored, opened, holds⟩ := exists_getElem?_of_forall₂ opens isPath
    have offers := offers_of_openSource opened holds mode lower upper
    rw [failed] at offers
    exact ⟨stored, List.mem_of_getElem? isStored, offers⟩
  | ok sources =>
    have opened := forall₂_of_mapM maps
    have sameLength : sources.length = listed.length :=
      opened.length_eq.symm.trans opens.length_eq
    obtain ⟨runs, ascends, spent, offers, gives⟩ := exists_runs opens opened
    have follows : Merge.Follows host.disk runs (Merge.create files.policy sources) :=
      Merge.follows_create gives ascends fun rank outside => spent rank (sameLength ▸ outside)
    obtain ⟨seen, ending, walks, merged⟩ := Merge.walks_of_follows follows
    rw [Merge.policy_create] at merged
    have handsOut := handsOut_ofCursor mode (walks.map Merge.showing?_eq_map_shown?)
      (admitted_of_merged spent offers merged)
    rw [List.map_map] at handsOut
    exact ⟨runs, seen, ending, offers, spent, merged, handsOut⟩

/-- A mode for which dumps can be had, if it needs them, opens all files. -/
theorem keys_eq_openAll (nonempty : files.paths ≠ [])
    (capable : mode = .withTombstones → files.capability host = .inProcess) :
    files.keys host mode lower upper = files.openAll host mode mode.capability? lower upper := by
  cases mode with
  | live => simp only [keys, liveKeys, nonempty, if_false, ReadMode.capability?]
  | withTombstones =>
    simp only [keys, allKeys, nonempty, if_false, capable rfl, Capability.isAvailable, if_true,
      ReadMode.capability?]

/-- A stream over no files hands out nothing. -/
theorem keys_of_nil (host : Host) (empty : files.paths = []) (mode : ReadMode)
    (lower upper : Option Key) :
    files.keys host mode lower upper = .ok (.empty mode) := by
  cases mode <;> simp [keys, liveKeys, allKeys, empty]

/-- A stream in a mode delivers what the files offer, also if there are no files. -/
theorem delivers_of_keys (host : Host) {listed : List Stored}
    (opens : List.Forall₂ (Opens host.disk) files.paths listed)
    (capable : mode = .withTombstones → files.capability host = .inProcess)
    (lower upper : Option Key) :
    match files.keys host mode lower upper with
    | .error _ => ∃ stored ∈ listed, MayFail host.disk mode lower upper stored.1 stored.2
    | .ok stream => ∃ runs seen ending,
        Delivers host.disk files.policy mode lower upper listed stream runs seen ending := by
  by_cases empty : files.paths = []
  · rw [empty, List.forall₂_nil_left_iff] at opens
    rw [keys_of_nil host empty, opens]
    exact ⟨fun _ => ([], none), [], none, by simp, fun _ _ => rfl, merged_nil fun _ => rfl,
      handsOut_empty mode⟩
  · rw [keys_eq_openAll empty capable]
    exact delivers_of_openAll opens

/-- All that a mode reads of files, without a fault behind it. -/
def allRuns (mode : ReadMode) (lower upper : Option Key) (tables : List (List Entry)) : Runs :=
  fun rank => (selected mode lower upper (tables.getD rank []), none)

/-- What is read of a listed file. -/
theorem allRuns_of_some {listed : List Stored} {rank : Nat} {stored : Stored}
    (isStored : listed[rank]? = some stored) :
    allRuns mode lower upper (listed.map fun stored => stored.2.flatten) rank =
      (selected mode lower upper stored.2.flatten, none) := by
  simp [allRuns, isStored]

/-- Nothing is read behind the listed files. -/
theorem allRuns_of_none {listed : List Stored} {rank : Nat} (nothing : listed[rank]? = none) :
    allRuns mode lower upper (listed.map fun stored => stored.2.flatten) rank = ([], none) := by
  simp [allRuns, nothing, selected]

/-- A stream that nothing is in the way of hands out what all is merged to that the mode reads. -/
theorem exists_stream {listed : List Stored}
    (opens : List.Forall₂ (Opens host.disk) files.paths listed)
    (capable : mode = .withTombstones → files.capability host = .inProcess)
    (free : ∀ stored ∈ listed, ¬ MayFail host.disk mode lower upper stored.1 stored.2) :
    ∃ stream seen, files.keys host mode lower upper = .ok stream ∧
      Merged files.policy
        (allRuns mode lower upper (listed.map fun stored => stored.2.flatten)) seen none ∧
      stream.HandsOut host.disk (seen.map fun shown => Pulled.ofEntry shown.2) none := by
  have delivers := delivers_of_keys host opens capable lower upper
  cases reads : files.keys host mode lower upper with
  | error fault =>
    rw [reads] at delivers
    obtain ⟨stored, member, fails⟩ := delivers
    exact absurd fails (free stored member)
  | ok stream =>
    rw [reads] at delivers
    obtain ⟨runs, seen, ending, offers, spent, merged, handsOut⟩ := delivers
    have isAll : runs = allRuns mode lower upper (listed.map fun stored => stored.2.flatten) := by
      funext rank
      cases isStored : listed[rank]? with
      | none =>
        rw [spent rank (List.getElem?_eq_none_iff.mp isStored), allRuns_of_none isStored]
      | some stored =>
        have offer := offers rank stored isStored
        have passed : (runs rank).2 = none := by
          by_contra failed
          exact free stored (List.mem_of_getElem? isStored) (offer.failed failed)
        rw [allRuns_of_some isStored]
        exact Prod.ext (offer.whole passed) passed
    have passed : ending = none := by
      by_contra failed
      obtain ⟨fault, isFault⟩ := Option.ne_none_iff_exists'.mp failed
      obtain ⟨rank, isBehind⟩ := merged.failed fault isFault
      rw [isAll] at isBehind
      cases isBehind
    subst passed
    rw [isAll] at merged
    exact ⟨stream, seen, rfl, merged, handsOut⟩

end FileSet

end SortedTables
