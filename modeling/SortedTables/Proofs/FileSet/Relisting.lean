import SortedTables.Proofs.Cursor.FailingSources
import SortedTables.Proofs.FileSet.Reading

/-!
# Listing the sources in another order

Places in the listing decide which entry counts only among entries with the same key and the same
sequence number. Where there are none (`NoTies`), the newest entry of a key counts wherever its source
is listed (`exists_counts_iff`), and `IsNewest` says which one this is without a word about places. So
what a merge shows is the same for every order of its sources, and what a stream over files hands out is
the same for every order of the files (`FileSet.relisted`).
-/

namespace SortedTables

variable {lists others : List (List Entry)} {entry : Entry}

/-- An entry is the newest one of its key in some lists. -/
structure IsNewest (lists : List (List Entry)) (entry : Entry) : Prop where
  /-- Some list has the entry. -/
  isListed : ∃ entries ∈ lists, entry ∈ entries
  /-- No list has a later entry of the same key. -/
  latest : ∀ entries ∈ lists, ∀ rival ∈ entries, rival.key = entry.key → rival.seq ≤ entry.seq

/-- No key occurs in two lists with the same sequence number. -/
def NoTies (lists : List (List Entry)) : Prop :=
  lists.Pairwise fun left right =>
    ∀ entry ∈ left, ∀ rival ∈ right, entry.key = rival.key → entry.seq ≠ rival.seq

/-- In lists without ties, entries with the same key and sequence number come from the same place. -/
theorem NoTies.eq_of_tied (noTies : NoTies lists) {rank rivalRank : Nat} {rival : Entry}
    (isHeld : entry ∈ lists.getD rank []) (isRival : rival ∈ lists.getD rivalRank [])
    (sameKey : entry.key = rival.key) (sameSeq : entry.seq = rival.seq) : rank = rivalRank := by
  obtain ⟨entries, isListed, member⟩ := mem_getD_iff.mp isHeld
  obtain ⟨rivals, rivalsListed, rivalMember⟩ := mem_getD_iff.mp isRival
  obtain ⟨inside, rfl⟩ := List.getElem?_eq_some_iff.mp isListed
  obtain ⟨rivalInside, rfl⟩ := List.getElem?_eq_some_iff.mp rivalsListed
  rcases Nat.lt_trichotomy rank rivalRank with before | same | behind
  · have apart := List.pairwise_iff_getElem.mp noTies rank rivalRank inside rivalInside before
    exact absurd sameSeq (apart entry member rival rivalMember sameKey)
  · exact same
  · have apart := List.pairwise_iff_getElem.mp noTies rivalRank rank rivalInside inside behind
    exact absurd sameSeq.symm (apart rival rivalMember entry member sameKey.symm)

/-- Where there are no ties, an entry counts at some place if it is the newest one of its key. -/
theorem exists_counts_iff (noTies : NoTies lists) :
    (∃ rank, Counts .newestSequence (fun rank => lists.getD rank []) rank entry) ↔
      IsNewest lists entry := by
  constructor
  · rintro ⟨rank, isHeld, prefers⟩
    obtain ⟨entries, isListed, member⟩ := mem_getD_iff.mp isHeld
    refine ⟨⟨entries, List.mem_of_getElem? isListed, member⟩, ?_⟩
    intro rivals rivalsListed rival isRival same
    obtain ⟨rivalRank, isPlace⟩ := List.getElem?_of_mem rivalsListed
    rcases prefers rivalRank rival (mem_getD_iff.mpr ⟨rivals, isPlace, isRival⟩) same with
      later | ⟨tied, _⟩
    · exact UInt64.le_of_lt later
    · exact UInt64.le_of_eq tied
  · rintro ⟨⟨entries, isListed, member⟩, latest⟩
    obtain ⟨rank, isPlace⟩ := List.getElem?_of_mem isListed
    have isHeld : entry ∈ lists.getD rank [] := mem_getD_iff.mpr ⟨entries, isPlace, member⟩
    refine ⟨rank, isHeld, fun rivalRank rival isRival same => ?_⟩
    obtain ⟨rivals, rivalsListed, rivalMember⟩ := mem_getD_iff.mp isRival
    rcases UInt64.lt_or_eq_of_le (latest rivals (List.mem_of_getElem? rivalsListed) rival rivalMember
      same) with later | tied
    · exact .inl later
    · exact .inr ⟨tied, le_of_eq (noTies.eq_of_tied isRival isHeld same tied)⟩

/-- What a merge by sequence numbers makes of lists without ties are the newest entries. -/
theorem mem_map_iff_isNewest (noTies : NoTies lists) {merged : List (Nat × Entry)}
    (isMerged : Merged .newestSequence (Runs.ofLists lists) merged none) :
    entry ∈ merged.map Prod.snd ↔ IsNewest lists entry := by
  rw [← exists_counts_iff noTies, List.mem_map]
  constructor
  · rintro ⟨⟨rank, _⟩, isSeen, rfl⟩
    exact ⟨rank, (mem_iff_counts isMerged rank _).mp isSeen⟩
  · rintro ⟨rank, counts⟩
    exact ⟨(rank, entry), (mem_iff_counts isMerged rank entry).mpr counts, rfl⟩

/-- The order of lists makes no difference to which entries are newest. -/
theorem isNewest_iff_of_perm (permuted : others.Perm lists) :
    IsNewest others entry ↔ IsNewest lists entry := by
  constructor
  · rintro ⟨⟨entries, isListed, member⟩, latest⟩
    exact ⟨⟨entries, permuted.mem_iff.mp isListed, member⟩,
      fun rivals isOther => latest rivals (permuted.mem_iff.mpr isOther)⟩
  · rintro ⟨⟨entries, isListed, member⟩, latest⟩
    exact ⟨⟨entries, permuted.mem_iff.mpr isListed, member⟩,
      fun rivals isOther => latest rivals (permuted.mem_iff.mp isOther)⟩

/-- The order of lists makes no difference to whether there are ties. -/
theorem NoTies.perm (noTies : NoTies lists) (permuted : others.Perm lists) : NoTies others :=
  List.Pairwise.perm noTies permuted.symm fun apart entry member rival isRival sameKey sameSeq =>
    apart rival isRival entry member sameKey.symm sameSeq.symm

namespace Merge

open Cursor

/-- Draining a merge by sequence numbers of sources without ties gives the newest entries of their
keys. -/
theorem drains_newest {σ : Type} [Cursor σ] {disk : Disk} {sources : List σ}
    (walks : List.Forall₂ (fun source entries => Walks disk showing? source entries none) sources
      lists) (ascends : ∀ entries ∈ lists, Ascending entries) (noTies : NoTies lists)
    {newest : List Entry} (newestAscends : Ascending newest)
    (areNewest : ∀ entry, entry ∈ newest ↔ IsNewest lists entry) :
    ∃ last, Drains disk showing? (create .newestSequence sources) newest last := by
  obtain ⟨merged, seen, isMerged⟩ := walks_of_lists .newestSequence walks ascends
  have same : merged.map Prod.snd = newest := by
    refine Ascending.eq_of_mem_iff isMerged.ascends newestAscends fun entry => ?_
    rw [mem_map_iff_isNewest noTies isMerged, areNewest]
  rw [← same]
  exact (seen.map showing?_eq_map_shown?).exists_drains

end Merge

namespace FileSet

open Cursor KeyStream

/-- A stream with tombstones over files without ties, by sequence numbers, hands out the newest entries
of the keys between its ends. -/
theorem exists_allKeys_newest {host : Host} {files : FileSet}
    (held : List.Forall₂ host.disk.HoldsRun files.paths lists)
    (bare : ∀ entries ∈ lists, ∀ entry ∈ entries, entry.kind = .delete → entry.value = [])
    (isNewestFirst : files.policy = .newestSequence) (capable : files.capability host = .inProcess)
    (noTies : NoTies lists) {newest : List Entry} (newestAscends : Ascending newest)
    (areNewest : ∀ entry, entry ∈ newest ↔ IsNewest lists entry) (lower upper : Option Key) :
    ∃ stream, files.allKeys host lower upper = .ok stream ∧
      stream.HandsOut host.disk ((newest.filter fun entry =>
        Key.isWithin lower upper entry.key).map Pulled.ofEntry) none := by
  have accepted : ∀ entries ∈ lists, ¬ Refuses .withTombstones lower upper entries :=
    fun entries isTable => not_refuses fun entry member _ => bare entries isTable entry member
  obtain ⟨stream, seen, opened, isMerged, handsOut⟩ :=
    exists_stream_of_holdsRun .withTombstones held (fun _ => capable) accepted
  rw [isNewestFirst] at isMerged
  have same : seen.map Prod.snd = newest.filter fun entry => Key.isWithin lower upper entry.key := by
    refine Ascending.eq_of_mem_iff isMerged.ascends (List.Pairwise.filter _ newestAscends)
      fun entry => ?_
    rw [List.mem_filter, areNewest, ← exists_counts_iff noTies, List.mem_map]
    constructor
    · rintro ⟨⟨rank, _⟩, isSeen, rfl⟩
      obtain ⟨within, counts⟩ := counts_allRuns_iff.mp ((mem_iff_counts isMerged rank _).mp isSeen)
      exact ⟨⟨rank, counts⟩, within⟩
    · rintro ⟨⟨rank, counts⟩, within⟩
      exact ⟨(rank, entry), (mem_iff_counts isMerged rank entry).mpr
        (counts_allRuns_iff.mpr ⟨within, counts⟩), rfl⟩
  refine ⟨stream, opened, ?_⟩
  rw [← same, List.map_map]
  exact handsOut

/-- Where no key occurs in two lists with the same sequence number, there is one sequence of entries
that every merge by sequence numbers yields of sources that walk through the lists, in whichever order
they are listed. A stream with tombstones over files that hold the lists, in whichever order these are
listed, hands out the part of this sequence that lies between its ends. -/
theorem relisted (ascends : ∀ entries ∈ lists, Ascending entries) (noTies : NoTies lists) :
    ∃ newest : List Entry, Ascending newest ∧ (∀ entry, entry ∈ newest ↔ IsNewest lists entry) ∧
      (∀ {σ : Type} [Cursor σ] {disk : Disk} {sources permuted : List σ},
        List.Forall₂ (fun source entries => Walks disk showing? source entries none) sources lists →
        permuted.Perm sources →
        ∃ last, Drains disk showing? (Merge.create .newestSequence permuted) newest last) ∧
      ∀ (host : Host) (files : FileSet) (paths : List String),
        List.Forall₂ host.disk.HoldsRun paths lists →
        (∀ entries ∈ lists, ∀ entry ∈ entries, entry.kind = .delete → entry.value = []) →
        files.paths.Perm paths → files.policy = .newestSequence →
        files.capability host = .inProcess → ∀ lower upper : Option Key,
        ∃ stream, files.allKeys host lower upper = .ok stream ∧
          stream.HandsOut host.disk ((newest.filter fun entry =>
            Key.isWithin lower upper entry.key).map Pulled.ofEntry) none := by
  obtain ⟨merged, isMerged⟩ := Merge.exists_merged .newestSequence ascends
  have areNewest (entry : Entry) : entry ∈ merged.map Prod.snd ↔ IsNewest lists entry :=
    mem_map_iff_isNewest noTies isMerged
  refine ⟨merged.map Prod.snd, isMerged.ascends, areNewest, ?_, ?_⟩
  · intro σ _ disk sources _ walks isPermuted
    obtain ⟨others, otherWalks, samePermuted⟩ := List.perm_comp_forall₂ isPermuted walks
    exact Merge.drains_newest otherWalks
      (fun entries isOther => ascends entries (samePermuted.mem_iff.mp isOther))
      (noTies.perm samePermuted) isMerged.ascends
      fun entry => (areNewest entry).trans (isNewest_iff_of_perm samePermuted).symm
  · intro host files paths held bare permuted isNewestFirst capable lower upper
    obtain ⟨others, otherHeld, samePermuted⟩ := List.perm_comp_forall₂ permuted held
    exact exists_allKeys_newest otherHeld
      (fun entries isOther => bare entries (samePermuted.mem_iff.mp isOther)) isNewestFirst capable
      (noTies.perm samePermuted) isMerged.ascends
      (fun entry => (areNewest entry).trans (isNewest_iff_of_perm samePermuted).symm) lower upper

/-- Three files without ties that have keys in common. The newest entry of one key is a tombstone. -/
def revised : List (String × List Entry) :=
  [("a", [⟨⟨[97]⟩, 5, .put, [1]⟩, ⟨⟨[98]⟩, 3, .put, [2]⟩]), ("b", [⟨⟨[98]⟩, 4, .delete, []⟩]),
    ("c", [⟨⟨[97]⟩, 2, .delete, []⟩, ⟨⟨[98]⟩, 2, .put, [2]⟩, ⟨⟨[99]⟩, 1, .put, []⟩])]

/-- A builder makes these files. -/
theorem holdsRun_revised :
    List.Forall₂ (Disk.ofTables 64 revised).HoldsRun (revised.map Prod.fst)
      (revised.map Prod.snd) := by
  refine .cons (Disk.holdsRun_of_content 64 0 ?_ ?_ ?_ ?_)
    (.cons (Disk.holdsRun_of_content 64 1 ?_ ?_ ?_ ?_)
      (.cons (Disk.holdsRun_of_content 64 2 ?_ ?_ ?_ ?_) .nil))
  all_goals first | exact ByteStore.bytes_ofBytes _ | decide +kernel

/-- Listed backwards, sources with these entries are merged to a sequence with the tombstone, and files
with them, in another order, give the part of the sequence that begins with its key. -/
theorem relisted_revised :
    ∃ newest : List Entry, ⟨⟨[98]⟩, 4, .delete, []⟩ ∈ newest ∧
      (∃ last, Drains .empty showing? (Merge.create .newestSequence
        ((revised.map Prod.snd).reverse.map fun entries => Scripted.ofEntries "" entries none false
          false)) newest last) ∧
      ∃ stream, (FileSet.ofPaths ["b", "c", "a"]).allKeys
          ⟨.ofTables 64 revised, fun _ => none, .inProcess⟩ (some ⟨[98]⟩) none = .ok stream ∧
        stream.HandsOut (.ofTables 64 revised) ((newest.filter fun entry =>
          Key.isWithin (some ⟨[98]⟩) none entry.key).map Pulled.ofEntry) none := by
  have ascends : ∀ entries ∈ revised.map Prod.snd, Ascending entries := by unfold Ascending; decide
  obtain ⟨newest, _, areNewest, drains, handsOut⟩ := relisted ascends (by unfold NoTies; decide)
  have walks : List.Forall₂ (fun source entries => Walks .empty showing? source entries none)
      ((revised.map Prod.snd).map fun entries => Scripted.ofEntries "" entries none false false)
      (revised.map Prod.snd) := by
    rw [List.forall₂_map_left_iff, List.forall₂_same]
    exact fun entries _ => Scripted.walks_of_unfailing rfl rfl
  refine ⟨newest, (areNewest _).mpr ⟨by decide, by decide⟩, ?_, ?_⟩
  · exact drains walks ((List.reverse_perm _).map _)
  · exact handsOut ⟨.ofTables 64 revised, fun _ => none, .inProcess⟩ (.ofPaths ["b", "c", "a"]) _
      holdsRun_revised (by decide) (by decide) rfl rfl _ _

end FileSet

end SortedTables
