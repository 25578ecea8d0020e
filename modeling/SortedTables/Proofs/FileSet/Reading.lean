import Mathlib.Data.List.Perm.Basic
import SortedTables.Proofs.FileSet.Streams

/-!
# Reading all keys of a set of files

For files that a builder has made, nothing is in the way of a stream of live keys, and nothing but
tombstones with a value of one with tombstones. So what a stream hands out can be said without
mentioning blocks, cursors or dumps.

The keys of a stream of live keys are those of the writes in any of the files
(`FileSet.liveKeys_handsOut`), so that neither the order of the files nor the policy for duplicates
matters. A stream with tombstones shows every key, and the policy says which of its entries decides
whether it counts as deleted (`FileSet.allKeys_handsOut`). What both have in common is that a key
occurs once, since the keys that are merged ascend.
-/

namespace SortedTables

namespace FileSet

open KeyStream

variable {host : Host} {files : FileSet} {tables : List (List Entry)} {mode : ReadMode}
  {lower upper : Option Key}

/-- Files that hold runs open as tables of which all blocks can be read. -/
theorem opens_of_holdsRun {disk : Disk} {paths : List String}
    (held : List.Forall₂ disk.HoldsRun paths tables) :
    ∃ listed, List.Forall₂ (Opens disk) paths listed ∧
      (listed.map fun stored => stored.2.flatten) = tables ∧
      ∀ stored ∈ listed, ∀ index, ¬ stored.1.IsUnreadable disk index := by
  induction held with
  | nil => exact ⟨[], .nil, rfl, by simp⟩
  | cons here _ ih =>
    obtain ⟨listed, opens, wholes, readable⟩ := ih
    obtain ⟨table, groups, opened, whole, holds, reads⟩ := here.opens
    refine ⟨(table, groups) :: listed, .cons ⟨opened, holds⟩ opens, ?_, ?_⟩
    · rw [List.map_cons, whole, wholes]
    · refine List.forall_mem_cons.mpr ⟨?_, readable⟩
      rintro index ⟨inside, fault, failed⟩
      obtain ⟨group, read⟩ := reads index inside
      cases failed.symm.trans read

/-- A stream over files that hold runs hands out what all is merged to that it reads, if no entry that
it reads is refused. -/
theorem exists_stream_of_holdsRun (mode : ReadMode)
    (held : List.Forall₂ host.disk.HoldsRun files.paths tables)
    (capable : mode = .withTombstones → files.capability host = .inProcess)
    (accepted : ∀ entries ∈ tables, ¬ Refuses mode lower upper entries) :
    ∃ stream seen, files.keys host mode lower upper = .ok stream ∧
      Merged files.policy (allRuns mode lower upper tables) seen none ∧
      stream.HandsOut host.disk (seen.map fun shown => Pulled.ofEntry shown.2) none := by
  obtain ⟨listed, opens, rfl, readable⟩ := opens_of_holdsRun held
  apply exists_stream opens capable
  rintro stored member (⟨index, unreadable⟩ | refused)
  · exact readable stored member index unreadable
  · exact accepted _ (List.mem_map_of_mem member) refused

/-- The entries that a mode reads of the file at a place. -/
theorem mem_held_allRuns {rank : Nat} {entry : Entry} :
    entry ∈ (allRuns mode lower upper tables).held rank ↔
      entry ∈ tables.getD rank [] ∧ Key.isWithin lower upper entry.key = true ∧
        mode.reads entry = true :=
  mem_selected

/-- The keys that are seen are those between the ends that have an entry that the mode reads. -/
theorem mem_keys_iff {policy : DuplicatePolicy} {seen : List (Nat × Entry)}
    (merged : Merged policy (allRuns mode lower upper tables) seen none) (key : Key) :
    (∃ shown ∈ seen, shown.2.key = key) ↔ Key.isWithin lower upper key = true ∧
      ∃ entries ∈ tables, ∃ entry ∈ entries, entry.key = key ∧ mode.reads entry = true := by
  have short (rank : Nat) (outside : tables.length ≤ rank) :
      (allRuns mode lower upper tables).held rank = [] := by
    simp [allRuns, Runs.held, selected, List.getElem?_eq_none outside]
  rw [merged.exists_key_iff short]
  constructor
  · rintro ⟨rank, entry, isHeld, rfl⟩
    obtain ⟨stored, within, isRead⟩ := mem_held_allRuns.mp isHeld
    refine ⟨within, tables.getD rank [], ?_, entry, stored, rfl, isRead⟩
    cases isListed : tables[rank]? with
    | none => simp [isListed] at stored
    | some entries => simpa [isListed] using List.mem_of_getElem? isListed
  · rintro ⟨within, entries, isListed, entry, stored, rfl, isRead⟩
    obtain ⟨rank, isTable⟩ := List.getElem?_of_mem isListed
    exact ⟨rank, entry, mem_held_allRuns.mpr ⟨by simpa [isTable] using stored, within, isRead⟩, rfl⟩

/-- The keys that are seen ascend. -/
theorem pairwise_keys {policy : DuplicatePolicy} {runs : Runs} {seen : List (Nat × Entry)}
    {ending : Option Fault} (merged : Merged policy runs seen ending) :
    (seen.map fun shown => shown.2.key).Pairwise (· < ·) := by
  have ascends : (seen.map Prod.snd).Pairwise fun left right => left.key < right.key :=
    merged.ascends
  rw [List.pairwise_map] at ascends ⊢
  exact ascends

/-- A stream of live keys refuses no entry. -/
theorem not_refuses_live {entries : List Entry} : ¬ Refuses .live lower upper entries := by
  rintro ⟨_, _, _, refused⟩
  cases refused

/-- The live keys of a set of files, as a stream hands them out. -/
theorem exists_liveKeys (host : Host) (files : FileSet)
    (held : List.Forall₂ host.disk.HoldsRun files.paths tables) (lower upper : Option Key) :
    ∃ keys : List Key, keys.Pairwise (· < ·) ∧
      (∀ key, key ∈ keys ↔ Key.isWithin lower upper key = true ∧
        ∃ entries ∈ tables, ∃ entry ∈ entries, entry.key = key ∧ entry.kind = .put) ∧
      ∃ stream, files.liveKeys host lower upper = .ok stream ∧
        stream.HandsOut host.disk (keys.map fun key => (key, false)) none := by
  obtain ⟨stream, seen, opened, merged, handsOut⟩ :=
    exists_stream_of_holdsRun .live held (by simp) fun entries _ => not_refuses_live
  refine ⟨seen.map fun shown => shown.2.key, pairwise_keys merged, ?_, stream, opened, ?_⟩
  · intro key
    rw [List.mem_map, mem_keys_iff merged]
    simp only [ReadMode.reads_live, decide_eq_true_eq]
  · have noTombstone : (seen.map fun shown => Pulled.ofEntry shown.2) =
        (seen.map fun shown => shown.2.key).map fun key => (key, false) := by
      rw [List.map_map]
      refine List.map_congr_left fun shown member => ?_
      have isHeld := ((mem_iff_counts merged shown.1 shown.2).mp member).1
      have isLive := (mem_held_allRuns.mp isHeld).2.2
      simp only [ReadMode.reads, Bool.not_eq_true'] at isLive
      simp [Pulled.ofEntry, isLive]
    rwa [noTombstone] at handsOut

/-- The stream of live keys hands out the keys between its ends that some file has a write of, each
once and in ascending order, none of them as deleted, and ends without a fault. It hands out the same
for every order of the files, for every policy for duplicates, and whether dumps can be had or not. -/
theorem liveKeys_handsOut {disk : Disk} {paths : List String}
    (held : List.Forall₂ disk.HoldsRun paths tables) (lower upper : Option Key) :
    ∃ keys : List Key, keys.Pairwise (· < ·) ∧
      (∀ key, key ∈ keys ↔ Key.isWithin lower upper key = true ∧
        ∃ entries ∈ tables, ∃ entry ∈ entries, entry.key = key ∧ entry.kind = .put) ∧
      ∀ (host : Host) (files : FileSet), host.disk = disk → files.paths.Perm paths →
        ∃ stream, files.liveKeys host lower upper = .ok stream ∧
          stream.HandsOut disk (keys.map fun key => (key, false)) none := by
  obtain ⟨keys, ascends, memKeys, _⟩ :=
    exists_liveKeys ⟨disk, fun _ => none, .unavailable⟩ (.ofPaths paths) held lower upper
  refine ⟨keys, ascends, memKeys, ?_⟩
  rintro host files rfl permuted
  obtain ⟨others, otherHeld, samePermuted⟩ := List.perm_comp_forall₂ permuted held
  obtain ⟨otherKeys, otherAscends, memOthers, stream, opened, handsOut⟩ :=
    exists_liveKeys host files otherHeld lower upper
  have same : otherKeys = keys := by
    refine List.Pairwise.eq_of_mem_iff otherAscends ascends fun key => ?_
    rw [memOthers, memKeys]
    simp only [samePermuted.mem_iff]
  exact ⟨stream, opened, same ▸ handsOut⟩

/-- Two files with a key in common: the second one has a later tombstone for a key that the first one
has a write of. -/
def overlapping : List (String × List Entry) :=
  [("a", [⟨⟨[1]⟩, 1, .put, [7]⟩, ⟨⟨[2]⟩, 1, .put, []⟩]), ("b", [⟨⟨[2]⟩, 2, .delete, []⟩])]

/-- A builder makes these files. -/
theorem holdsRun_overlapping :
    List.Forall₂ (Disk.ofTables 64 overlapping).HoldsRun (overlapping.map Prod.fst)
      (overlapping.map Prod.snd) := by
  refine .cons (Disk.holdsRun_of_content 64 0 ?_ ?_ ?_ ?_)
    (.cons (Disk.holdsRun_of_content 64 1 ?_ ?_ ?_ ?_) .nil)
  all_goals first | exact ByteStore.bytes_ofBytes _ | decide +kernel

/-- In whichever order these files are listed, the key that is deleted in one of them is handed out as
a live one, since the other one has a write of it. -/
theorem liveKeys_handsOut_overlapping :
    ∃ pulled, (⟨[2]⟩, false) ∈ pulled ∧ ∀ paths : List String, paths.Perm ["a", "b"] →
      ∃ stream, (FileSet.ofPaths paths).liveKeys
          ⟨.ofTables 64 overlapping, fun _ => none, .unavailable⟩ none none = .ok stream ∧
        stream.HandsOut (.ofTables 64 overlapping) pulled none := by
  obtain ⟨keys, _, memKeys, handsOut⟩ := liveKeys_handsOut holdsRun_overlapping none none
  refine ⟨keys.map fun key => (key, false), ?_, ?_⟩
  · refine List.mem_map.mpr ⟨_, (memKeys _).mpr ⟨rfl, ?_⟩, rfl⟩
    exact ⟨_, List.mem_cons_self, ⟨⟨[2]⟩, 1, .put, []⟩, by decide, rfl, rfl⟩
  · exact fun paths permuted => handsOut _ (.ofPaths paths) rfl permuted

/-- Which entry counts among those between two ends does not depend on the others. -/
theorem counts_allRuns_iff {policy : DuplicatePolicy} {rank : Nat} {entry : Entry} :
    Counts policy (allRuns .withTombstones lower upper tables).held rank entry ↔
      Key.isWithin lower upper entry.key = true ∧
        Counts policy (fun rank => tables.getD rank []) rank entry := by
  rw [and_comm]
  refine counts_iff_of_mem_iff (fun key => Key.isWithin lower upper key = true) fun rank entry => ?_
  rw [mem_held_allRuns, ReadMode.reads, and_iff_left rfl]

/-- Files without tombstones that have a value are scanned without complaint. -/
theorem not_refuses {entries : List Entry}
    (bare : ∀ entry ∈ entries, Key.isWithin lower upper entry.key = true → entry.kind = .delete →
      entry.value = []) : ¬ Refuses mode lower upper entries := by
  cases mode with
  | live => exact not_refuses_live
  | withTombstones =>
    rintro ⟨entry, member, within, refused⟩
    simp only [ReadMode.accepts, Entry.isScannable, Entry.isTombstone, Bool.or_eq_false_iff,
      Bool.not_eq_false', decide_eq_true_eq, List.isEmpty_eq_false_iff] at refused
    exact refused.2 (bare entry member within refused.1)

/-- The stream with tombstones hands out all keys between its ends that some file has an entry of,
each once and in ascending order, and ends without a fault. A key is handed out as deleted if, of
all its entries, the one that counts by the policy of the set is a tombstone. -/
theorem allKeys_handsOut (held : List.Forall₂ host.disk.HoldsRun files.paths tables)
    (bare : ∀ entries ∈ tables, ∀ entry ∈ entries, entry.kind = .delete → entry.value = [])
    (capable : files.capability host = .inProcess) (lower upper : Option Key) :
    ∃ stream pulled, files.allKeys host lower upper = .ok stream ∧
      stream.HandsOut host.disk pulled none ∧ (pulled.map Prod.fst).Pairwise (· < ·) ∧
      (∀ key, key ∈ pulled.map Prod.fst ↔ Key.isWithin lower upper key = true ∧
        ∃ entries ∈ tables, ∃ entry ∈ entries, entry.key = key) ∧
      ∀ key deleted, (key, deleted) ∈ pulled ↔ Key.isWithin lower upper key = true ∧
        ∃ rank entry, Counts files.policy (fun rank => tables.getD rank []) rank entry ∧
          entry.key = key ∧ deleted = decide (entry.kind = .delete) := by
  have accepted : ∀ entries ∈ tables, ¬ Refuses .withTombstones lower upper entries :=
    fun entries isTable => not_refuses fun entry member _ => bare entries isTable entry member
  obtain ⟨stream, seen, opened, merged, handsOut⟩ :=
    exists_stream_of_holdsRun .withTombstones held (fun _ => capable) accepted
  refine ⟨stream, _, opened, handsOut, ?_, ?_, ?_⟩
  · rw [List.map_map]
    exact pairwise_keys merged
  · intro key
    rw [List.map_map, List.mem_map]
    apply (mem_keys_iff merged key).trans
    simp only [ReadMode.reads, and_true]
  · intro key deleted
    rw [List.mem_map]
    constructor
    · rintro ⟨⟨rank, entry⟩, member, isPulled⟩
      cases isPulled
      obtain ⟨within, counts⟩ := counts_allRuns_iff.mp ((mem_iff_counts merged rank entry).mp member)
      exact ⟨within, rank, entry, counts, rfl, rfl⟩
    · rintro ⟨within, rank, entry, counts, rfl, rfl⟩
      refine ⟨(rank, entry), ?_, rfl⟩
      exact (mem_iff_counts merged rank entry).mpr (counts_allRuns_iff.mpr ⟨within, counts⟩)

/-- Of two files with a key in common, the one with the later tombstone decides that the key is
deleted. -/
theorem allKeys_handsOut_overlapping :
    ∃ stream pulled, (FileSet.ofPaths ["a", "b"]).allKeys
        ⟨.ofTables 64 overlapping, fun _ => none, .inProcess⟩ none none = .ok stream ∧
      stream.HandsOut (.ofTables 64 overlapping) pulled none ∧ (⟨[2]⟩, true) ∈ pulled := by
  let host : Host := ⟨.ofTables 64 overlapping, fun _ => none, .inProcess⟩
  have held : List.Forall₂ host.disk.HoldsRun (FileSet.ofPaths ["a", "b"]).paths
    (overlapping.map Prod.snd) := holdsRun_overlapping
  obtain ⟨stream, pulled, opened, handsOut, _, _, flags⟩ :=
    allKeys_handsOut held (by decide) rfl none none
  refine ⟨stream, pulled, opened, handsOut, ?_⟩
  refine (flags _ _).mpr ⟨rfl, 1, ⟨⟨[2]⟩, 2, .delete, []⟩, ⟨by decide, ?_⟩, rfl, rfl⟩
  have beats : ∀ rank < 2, ∀ rival ∈ (overlapping.map Prod.snd).getD rank [],
      rival.key = ⟨[2]⟩ → DuplicatePolicy.newestSequence.Prefers 1 ⟨⟨[2]⟩, 2, .delete, []⟩ rank
        rival := by
    decide
  intro rank rival stored same
  rcases Nat.lt_or_ge rank 2 with listed | outside
  · exact beats rank listed rival stored same
  · change rival ∈ (overlapping.map Prod.snd).getD rank [] at stored
    rw [List.getD_eq_getElem?_getD, List.getElem?_eq_none outside] at stored
    cases stored

/-- A stream with tombstones that meets a tombstone with a value does not end without a fault. -/
theorem exists_fault_of_tombstone (held : List.Forall₂ host.disk.HoldsRun files.paths tables)
    (capable : files.capability host = .inProcess)
    (loaded : ∃ entries ∈ tables, ∃ entry ∈ entries, Key.isWithin lower upper entry.key = true ∧
      entry.kind = .delete ∧ entry.value ≠ []) {stream : KeyStream FileSetCursor}
    (opened : files.allKeys host lower upper = .ok stream) :
    ∃ pulled fault, stream.HandsOut host.disk pulled (some fault) := by
  obtain ⟨listed, opens, rfl, _⟩ := opens_of_holdsRun held
  have scans : ReadMode.withTombstones = .withTombstones → files.capability host = .inProcess :=
    fun _ => capable
  have delivers := delivers_of_keys host opens scans lower upper
  rw [keys, opened] at delivers
  obtain ⟨runs, seen, ending, delivers⟩ := delivers
  obtain ⟨entries, isListed, entry, member, within, isTombstone, hasValue⟩ := loaded
  obtain ⟨stored, isStored, rfl⟩ := List.mem_map.mp isListed
  have refused : ReadMode.accepts .withTombstones entry = false := by
    simp [ReadMode.accepts, Entry.isScannable, Entry.isTombstone, isTombstone, hasValue]
  have failed := delivers.ending_ne_none isStored (Or.inr ⟨entry, member, within, refused⟩)
  obtain ⟨fault, rfl⟩ := Option.ne_none_iff_exists'.mp failed
  exact ⟨_, _, delivers.handsOut⟩

/-- Both streams can be read to the end, and the one with tombstones has all keys of the other one,
unless a file has a tombstone with a value under a key between the ends. Then the stream with
tombstones cannot be opened, or it ends with a fault. -/
theorem liveKeys_subset_allKeys (held : List.Forall₂ host.disk.HoldsRun files.paths tables)
    (capable : files.capability host = .inProcess) (lower upper : Option Key) :
    ((∀ entries ∈ tables, ∀ entry ∈ entries, Key.isWithin lower upper entry.key = true →
        entry.kind = .delete → entry.value = []) →
      ∃ live livePulled all allPulled,
        files.liveKeys host lower upper = .ok live ∧ live.HandsOut host.disk livePulled none ∧
        files.allKeys host lower upper = .ok all ∧ all.HandsOut host.disk allPulled none ∧
        livePulled.map Prod.fst ⊆ allPulled.map Prod.fst) ∧
    ((∃ entries ∈ tables, ∃ entry ∈ entries, Key.isWithin lower upper entry.key = true ∧
        entry.kind = .delete ∧ entry.value ≠ []) →
      ∀ all, files.allKeys host lower upper = .ok all →
        ∃ pulled fault, all.HandsOut host.disk pulled (some fault)) := by
  refine ⟨?_, fun loaded all opened => exists_fault_of_tombstone held capable loaded opened⟩
  intro bare
  obtain ⟨keys, _, memKeys, live, liveOpened, liveHandsOut⟩ :=
    exists_liveKeys host files held lower upper
  obtain ⟨all, seen, allOpened, merged, allHandsOut⟩ :=
    exists_stream_of_holdsRun .withTombstones held (fun _ => capable)
      fun entries isTable => not_refuses (bare entries isTable)
  refine ⟨live, _, all, _, liveOpened, liveHandsOut, allOpened, allHandsOut, ?_⟩
  intro key member
  rw [List.map_map, List.mem_map] at member ⊢
  obtain ⟨_, isLive, rfl⟩ := member
  obtain ⟨within, entries, isTable, entry, stored, same, _⟩ := (memKeys _).mp isLive
  exact (mem_keys_iff merged _).mpr ⟨within, entries, isTable, entry, stored, same, rfl⟩

/-- A file whose tombstone has a value. -/
def loaded : List (String × List Entry) :=
  [("t.sst", [⟨⟨[97]⟩, 1, .put, [118]⟩, ⟨⟨[98]⟩, 2, .delete, [0]⟩])]

/-- A builder makes this file. -/
theorem holdsRun_loaded :
    List.Forall₂ (Disk.ofTables 64 loaded).HoldsRun (loaded.map Prod.fst)
      (loaded.map Prod.snd) := by
  refine .cons (Disk.holdsRun_of_content 64 0 ?_ ?_ ?_ ?_) .nil
  all_goals first | exact ByteStore.bytes_ofBytes _ | decide +kernel

/-- Below the key of the tombstone the file can be read both ways, and from there on the stream with
tombstones does not come to its end. -/
theorem liveKeys_subset_allKeys_loaded :
    (∃ live livePulled all allPulled,
      (FileSet.ofPaths ["t.sst"]).liveKeys ⟨.ofTables 64 loaded, fun _ => none, .inProcess⟩ none
          (some ⟨[98]⟩) = .ok live ∧
        live.HandsOut (.ofTables 64 loaded) livePulled none ∧
      (FileSet.ofPaths ["t.sst"]).allKeys ⟨.ofTables 64 loaded, fun _ => none, .inProcess⟩ none
          (some ⟨[98]⟩) = .ok all ∧
        all.HandsOut (.ofTables 64 loaded) allPulled none ∧
      livePulled.map Prod.fst ⊆ allPulled.map Prod.fst) ∧
    ∀ all, (FileSet.ofPaths ["t.sst"]).allKeys ⟨.ofTables 64 loaded, fun _ => none, .inProcess⟩
        (some ⟨[98]⟩) none = .ok all →
      ∃ pulled fault, all.HandsOut (.ofTables 64 loaded) pulled (some fault) := by
  let host : Host := ⟨.ofTables 64 loaded, fun _ => none, .inProcess⟩
  have held : List.Forall₂ host.disk.HoldsRun (FileSet.ofPaths ["t.sst"]).paths
    (loaded.map Prod.snd) := holdsRun_loaded
  have below := liveKeys_subset_allKeys held rfl none (some ⟨[98]⟩)
  have above := liveKeys_subset_allKeys held rfl (some ⟨[98]⟩) none
  exact ⟨below.1 (by decide), above.2 (by decide)⟩

/-- That all files made by a builder can be read both ways fails for that file: its tombstone is in
the way of one of the streams only. -/
theorem loaded_not_read_through :
    ¬ ∀ (host : Host) (files : FileSet) (tables : List (List Entry)) (lower upper : Option Key),
      List.Forall₂ host.disk.HoldsRun files.paths tables → files.capability host = .inProcess →
      ∀ live livePulled, files.liveKeys host lower upper = .ok live →
        live.HandsOut host.disk livePulled none →
        ∃ all allPulled, files.allKeys host lower upper = .ok all ∧
          all.HandsOut host.disk allPulled none ∧
          livePulled.map Prod.fst ⊆ allPulled.map Prod.fst := by
  intro readThrough
  let host : Host := ⟨.ofTables 64 loaded, fun _ => none, .inProcess⟩
  have held : List.Forall₂ host.disk.HoldsRun (FileSet.ofPaths ["t.sst"]).paths
    (loaded.map Prod.snd) := holdsRun_loaded
  obtain ⟨_, _, _, live, liveOpened, liveHandsOut⟩ :=
    exists_liveKeys host (.ofPaths ["t.sst"]) held none none
  obtain ⟨all, _, allOpened, allHandsOut, _⟩ :=
    readThrough host (.ofPaths ["t.sst"]) _ none none held rfl live _ liveOpened liveHandsOut
  obtain ⟨_, fault, fails⟩ := exists_fault_of_tombstone held rfl (by decide) allOpened
  cases allHandsOut.ending_eq_none fails

end FileSet

end SortedTables
