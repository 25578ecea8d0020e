import Mathlib.Algebra.Ring.Nat
import SortedTables.Proofs.FileSet.Reading

/-!
# The number of keys in a set of files

How many keys a set of files has can be estimated without reading a block, from the properties in the
footers. A builder counts what it takes (`Properties.Sums`), so the estimate is the number of entries in
all files, as long as eight bytes can hold it. A stream hands out a key once where several files have
it. So the estimate is never too small, and it is exact if and only if no key is in two files: a list in which nothing repeats is compared
with another one of the same elements (`length_le_of_mem_iff`). The entries of one file have different
keys since they ascend, which leaves the files to be compared with each other
(`FileSet.nodup_keysOf_iff`).

The same can be said of the live keys, with the writes in place of the entries. Both are cases of
`FileSet.exists_stream_length`, which counts the entries that a mode reads.
`FileSet.estimates_keys` states them for the numbers in the footers.
-/

namespace SortedTables

/-- A list without repetitions is at most as long as one with the same elements, and just as long if
nothing repeats in that one either. -/
theorem length_le_of_mem_iff {α : Type} {once all : List α} (nodup : once.Nodup)
    (same : ∀ element, element ∈ once ↔ element ∈ all) :
    once.length ≤ all.length ∧ (once.length = all.length ↔ all.Nodup) := by
  have within : once.Subperm all :=
    List.subperm_of_subset nodup fun element member => (same element).mp member
  refine ⟨within.length_le, ?_⟩
  constructor
  · intro equal
    exact (within.perm_of_length_le equal.ge).nodup_iff.mp nodup
  · intro allNodup
    exact ((List.perm_ext_iff_of_nodup nodup allNodup).mpr same).length_eq

/-- Counting from a number on ends with all that was counted more. That the sum wraps around at each
step makes no difference in the end. -/
theorem foldlM_eq_ok {α ε : Type} {count : UInt64 → α → Except ε UInt64} {elements : List α}
    {counts : List Nat}
    (counted : List.Forall₂
      (fun element more => ∀ total, count total element = .ok (total + .ofNat more)) elements counts)
    (total : UInt64) : elements.foldlM count total = .ok (total + .ofNat counts.sum) := by
  induction counted generalizing total with
  | nil => exact congrArg Except.ok (UInt64.add_zero total).symm
  | cons here _ ih =>
    rw [List.foldlM_cons, here, List.sum_cons, UInt64.ofNat_add, ← UInt64.add_assoc]
    exact ih _

/-- Lists that go together look the same if their elements do. -/
theorem map_eq_of_forall₂ {α β γ : Type} {f : α → γ} {g : β → γ} {left : List α} {right : List β}
    (same : List.Forall₂ (fun one other => f one = g other) left right) :
    left.map f = right.map g := by
  rwa [← List.forall₂_eq_eq_eq, List.forall₂_map_left_iff, List.forall₂_map_right_iff]

/-- The keys of some of the entries that ascend do not repeat. -/
theorem Ascending.nodup_keys {entries : List Entry} (ascends : Ascending entries)
    (counts : Entry → Bool) : ((entries.filter counts).map Entry.key).Nodup := by
  have some : Ascending (entries.filter counts) := List.Pairwise.filter counts ascends
  apply List.pairwise_map.mpr
  exact some.imp fun below => ne_of_lt below

/-- The properties tell how many of the entries are writes. -/
theorem Properties.Sums.writes {properties : Properties} {entries : List Entry}
    (sums : properties.Sums entries) :
    properties.entries - properties.tombstones = entries.countP fun entry => entry.kind = .put := by
  have split := List.length_eq_countP_add_countP Entry.isTombstone (l := entries)
  have others : entries.countP (fun entry => ¬ entry.isTombstone = true) =
      entries.countP fun entry => entry.kind = .put := by
    refine List.countP_congr fun entry _ => ?_
    cases kind : entry.kind <;> simp [Entry.isTombstone, kind]
  rw [sums.count, sums.tombstones, split, others, Nat.add_sub_cancel_left]

namespace FileSet

variable {host : Host} {files : FileSet} {tables : List (List Entry)} {mode : ReadMode}

/-- No key has entries that count in two of the lists. -/
def Apart (counts : Entry → Bool) (tables : List (List Entry)) : Prop :=
  tables.Pairwise fun left right => ∀ first ∈ left, ∀ second ∈ right,
    counts first = true → counts second = true → first.key ≠ second.key

instance (counts : Entry → Bool) (tables : List (List Entry)) : Decidable (Apart counts tables) :=
  inferInstanceAs (Decidable (List.Pairwise _ _))

/-- The keys of the entries that count, those of one list behind those of another. -/
def keysOf (counts : Entry → Bool) (tables : List (List Entry)) : List Key :=
  tables.flatMap fun entries => (entries.filter counts).map Entry.key

/-- There are as many keys as entries that count. -/
theorem length_keysOf (counts : Entry → Bool) (tables : List (List Entry)) :
    (keysOf counts tables).length = (tables.map (List.countP counts)).sum := by
  have lengths (entries : List Entry) :
      ((entries.filter counts).map Entry.key).length = entries.countP counts := by
    rw [List.length_map, List.countP_eq_length_filter]
  rw [keysOf, List.length_flatMap]
  simp only [lengths]

/-- These keys do not repeat if no two lists share one. -/
theorem nodup_keysOf_iff {counts : Entry → Bool} (ascend : ∀ entries ∈ tables, Ascending entries) :
    (keysOf counts tables).Nodup ↔ Apart counts tables := by
  have disjoint (left right : List Entry) :
      ((left.filter counts).map Entry.key).Disjoint ((right.filter counts).map Entry.key) ↔
        ∀ first ∈ left, ∀ second ∈ right,
          counts first = true → counts second = true → first.key ≠ second.key := by
    simp only [List.Disjoint, List.mem_map, List.mem_filter]
    constructor
    · rintro apart first isFirst second isSecond firstCounts secondCounts same
      exact apart ⟨first, ⟨isFirst, firstCounts⟩, rfl⟩ ⟨second, ⟨isSecond, secondCounts⟩, same.symm⟩
    · rintro apart key ⟨first, ⟨isFirst, firstCounts⟩, rfl⟩ ⟨second, ⟨isSecond, secondCounts⟩, same⟩
      exact apart first isFirst second isSecond firstCounts secondCounts same.symm
  rw [keysOf, List.nodup_flatMap,
    and_iff_right fun entries isTable => (ascend entries isTable).nodup_keys counts]
  exact List.Pairwise.iff fun {left right} => disjoint left right

/-- A key is there if some list has an entry of it that counts. -/
theorem mem_keysOf {counts : Entry → Bool} {key : Key} :
    key ∈ keysOf counts tables ↔
      ∃ entries ∈ tables, ∃ entry ∈ entries, entry.key = key ∧ counts entry = true := by
  simp only [keysOf, List.mem_flatMap, List.mem_map, List.mem_filter]
  constructor
  · rintro ⟨entries, isTable, entry, ⟨member, isCounted⟩, isKey⟩
    exact ⟨entries, isTable, entry, member, isKey, isCounted⟩
  · rintro ⟨entries, isTable, entry, member, isKey, isCounted⟩
    exact ⟨entries, isTable, entry, ⟨member, isCounted⟩, isKey⟩

/-- Files that hold runs have ascending entries, and open with properties that sum these up. -/
theorem exists_opened_of_holdsRun {disk : Disk} {paths : List String}
    (held : List.Forall₂ disk.HoldsRun paths tables) :
    (∀ entries ∈ tables, Ascending entries) ∧
      ∃ opened, List.Forall₂ (fun path table => Table.openPath disk path = .ok table) paths opened ∧
        List.Forall₂ (fun table entries => table.properties.Sums entries) opened tables := by
  induction held with
  | nil => exact ⟨by simp, [], .nil, .nil⟩
  | cons here _ ih =>
    obtain ⟨ascend, opened, opens, sums⟩ := ih
    obtain ⟨table, groups, _, isOpened, rfl, describes, sumsHere, _⟩ := here.describes
    exact ⟨List.forall_mem_cons.mpr ⟨describes.dealt.ascends, ascend⟩, table :: opened,
      .cons isOpened opens, .cons sumsHere sums⟩

/-- The estimate is the sum of what the properties of the files say. -/
theorem estimatedKeys_eq {disk : Disk} {opened : List Table}
    (opens : List.Forall₂ (fun path table => Table.openPath disk path = .ok table) files.paths
      opened) :
    files.estimatedKeys disk = .ok (.ofNat (opened.map fun table => table.properties.entries).sum) := by
  rw [estimatedKeys, foldlM_eq_ok ?_ 0, UInt64.zero_add]
  rw [List.forall₂_map_right_iff]
  refine opens.imp fun path table isOpened total => ?_
  rw [isOpened]

/-- A stream over files that hold runs, without ends, hands out at most as many keys as the files have
entries that it reads. It hands out fewer if a key of such entries is in two files. -/
theorem exists_stream_length (mode : ReadMode)
    (held : List.Forall₂ host.disk.HoldsRun files.paths tables)
    (capable : mode = .withTombstones → files.capability host = .inProcess)
    (accepted : ∀ entries ∈ tables, ¬ Refuses mode none none entries) :
    ∃ stream pulled, files.keys host mode none none = .ok stream ∧
      stream.HandsOut host.disk pulled none ∧
      pulled.length ≤ (tables.map (List.countP mode.reads)).sum ∧
      (pulled.length = (tables.map (List.countP mode.reads)).sum ↔ Apart mode.reads tables) := by
  obtain ⟨ascend, _⟩ := exists_opened_of_holdsRun held
  obtain ⟨stream, seen, opened, merged, handsOut⟩ :=
    exists_stream_of_holdsRun mode held capable accepted
  have nodup : (seen.map fun shown => shown.2.key).Nodup :=
    (pairwise_keys merged).imp fun below => ne_of_lt below
  have same (key : Key) :
      key ∈ (seen.map fun shown => shown.2.key) ↔ key ∈ keysOf mode.reads tables := by
    rw [List.mem_map, mem_keys_iff merged, mem_keysOf]
    -- Where there are no ends, every key is between them.
    exact and_iff_right rfl
  have compared := length_le_of_mem_iff nodup same
  rw [List.length_map, length_keysOf, nodup_keysOf_iff ascend] at compared
  refine ⟨stream, _, opened, handsOut, ?_⟩
  rw [List.length_map]
  exact compared

/-- Let builders make files, with no value behind a tombstone. The estimate can be had then. It is the
number of entries in all files, if that is below 2^64, and else what is left of it in eight bytes. A
stream with tombstones and without ends hands out at most as many keys as there are entries, and just
as many if no key has entries in two files; the same holds with the estimate in place of the number of
entries, if that is below 2^64. A stream of live keys hands out at most as many keys as the properties
of the files say that there are entries other than tombstones, and just as many if no key has writes
in two files. A file that is listed twice is two files in this. -/
theorem estimates_keys (held : List.Forall₂ host.disk.HoldsRun files.paths tables)
    (bare : ∀ entries ∈ tables, ∀ entry ∈ entries, entry.kind = .delete → entry.value = []) :
    let count := (tables.map List.length).sum
    ∃ estimate opened, files.estimatedKeys host.disk = .ok estimate ∧
      estimate = .ofNat count ∧ (count < UInt64.size → estimate.toNat = count) ∧
      List.Forall₂ (fun path table => Table.openPath host.disk path = .ok table) files.paths opened ∧
      (files.capability host = .inProcess →
        ∃ stream pulled, files.allKeys host none none = .ok stream ∧
          stream.HandsOut host.disk pulled none ∧
          pulled.length ≤ count ∧ (pulled.length = count ↔ Apart (fun _ => true) tables) ∧
          (count < UInt64.size → pulled.length ≤ estimate.toNat ∧
            (pulled.length = estimate.toNat ↔ Apart (fun _ => true) tables))) ∧
      ∃ stream pulled, files.liveKeys host none none = .ok stream ∧
        stream.HandsOut host.disk pulled none ∧
        let writes := (opened.map fun table =>
          table.properties.entries - table.properties.tombstones).sum
        pulled.length ≤ writes ∧
          (pulled.length = writes ↔ Apart (fun entry => entry.kind = .put) tables) := by
  obtain ⟨_, opened, opens, sums⟩ := exists_opened_of_holdsRun held
  have counted : (opened.map fun table => table.properties.entries) = tables.map List.length :=
    map_eq_of_forall₂ (sums.imp fun table entries here => here.count)
  have written : (opened.map fun table => table.properties.entries - table.properties.tombstones) =
      tables.map (List.countP fun entry => entry.kind = .put) :=
    map_eq_of_forall₂ (sums.imp fun table entries here => here.writes)
  intro count
  have exact (fits : count < UInt64.size) : (UInt64.ofNat count).toNat = count :=
    UInt64.toNat_ofNat_of_lt fits
  refine ⟨.ofNat count, opened, ?_, rfl, exact, opens, ?_, ?_⟩
  · rw [estimatedKeys_eq opens, counted]
  · intro capable
    obtain ⟨stream, pulled, isOpened, handsOut, compared⟩ :=
      exists_stream_length .withTombstones held (fun _ => capable) fun entries isTable =>
        not_refuses fun entry member _ => bare entries isTable entry member
    have isAny : ReadMode.reads .withTombstones = fun _ => true := rfl
    rw [isAny, List.countP_true] at compared
    obtain ⟨most, all⟩ := compared
    refine ⟨stream, pulled, isOpened, handsOut, most, all, fun fits => ?_⟩
    rw [exact fits]
    exact ⟨most, all⟩
  · obtain ⟨stream, pulled, isOpened, handsOut, compared⟩ :=
      exists_stream_length .live held nofun fun _ _ => not_refuses_live
    have isWrite : ReadMode.reads .live = fun entry => decide (entry.kind = .put) :=
      funext ReadMode.reads_live
    rw [isWrite, ← written] at compared
    exact ⟨stream, pulled, isOpened, handsOut, compared⟩

/-- Of two files with three entries, a key that both have is handed out once, so the estimate is too
large. But only one of them has a write of it, and for the live keys nothing is counted twice. -/
theorem estimates_keys_overlapping :
    let host : Host := ⟨.ofTables 64 overlapping, fun _ => none, .inProcess⟩
    let files := FileSet.ofPaths ["a", "b"]
    files.estimatedKeys host.disk = .ok 3 ∧
      (∃ stream pulled, files.allKeys host none none = .ok stream ∧
        stream.HandsOut host.disk pulled none ∧ pulled.length < 3) ∧
      ∃ opened stream pulled,
        List.Forall₂ (fun path table => Table.openPath host.disk path = .ok table) files.paths opened ∧
          files.liveKeys host none none = .ok stream ∧ stream.HandsOut host.disk pulled none ∧
          pulled.length = (opened.map fun table =>
            table.properties.entries - table.properties.tombstones).sum := by
  intro host files
  have held : List.Forall₂ host.disk.HoldsRun files.paths (overlapping.map Prod.snd) :=
    holdsRun_overlapping
  obtain ⟨estimate, opened, estimated, isSum, -, opens, all, live⟩ :=
    estimates_keys held (by decide)
  obtain ⟨stream, pulled, isOpened, handsOut, -, -, below⟩ := all rfl
  obtain ⟨liveStream, livePulled, liveOpened, liveHandsOut, -, liveExact⟩ := live
  obtain rfl : estimate = 3 := isSum
  obtain ⟨most, exact⟩ := below (by decide)
  have fewer : pulled.length ≠ 3 := fun equal => absurd (exact.mp equal) (by decide)
  exact ⟨estimated, ⟨stream, pulled, isOpened, handsOut, Nat.lt_of_le_of_ne most fewer⟩, opened,
    liveStream, livePulled, opens, liveOpened, liveHandsOut, liveExact.mpr (by decide)⟩

end FileSet

end SortedTables
