import SortedTables.Proofs.Cursor.Unaffected
import SortedTables.Proofs.Dump.Unaffected
import SortedTables.Proofs.FileSet.Damage

/-!
# What is read of a range is unaffected by what is outside of it

Two directories with the same places are read, of which the second one has files that differ from those
of the first one inside of some blocks only. Then tables open alike, and dumps of a range, scans of them
and streams over files do the same in both, if these blocks hold nothing of the range
(`FileSet.unaffected_outside`). A live stream meets the end of its range on an entry and not in the
index, so that for it only blocks before the range do not matter.
-/

namespace SortedTables

/-- Functions that agree on all elements do so on the list. -/
theorem mapM_congr {α β ε : Type} {f g : α → Except ε β} {elements : List α}
    (same : ∀ element ∈ elements, f element = g element) : elements.mapM f = elements.mapM g := by
  induction elements with
  | nil => rfl
  | cons first later ih =>
    obtain ⟨here, there⟩ := List.forall_mem_cons.mp same
    rw [List.mapM_cons, List.mapM_cons, here, ih there]

namespace TableSource

variable {disk other : Disk}

/-- What a source may still read without seeking is the same in two directories. -/
def Unaffected (disk other : Disk) : TableSource → Prop
  | live cursor => ∃ table, cursor.Unaffected disk other table
  | raw scan => scan.Unaffected disk other

/-- Sources go on alike if what they may read is the same. -/
theorem unaffected : Cursor.Unaffected disk other (Unaffected disk other) where
  same source isUnaffected := by
    cases source with
    | live cursor =>
      obtain ⟨table, isUnaffected⟩ := isUnaffected
      exact congrArg (Step.map live) (LiveCursor.next_unaffected isUnaffected).1
    | raw scan => exact congrArg (Step.map raw) (RawScan.run_unaffected .next isUnaffected).1
  still source isUnaffected := by
    cases source with
    | live cursor =>
      obtain ⟨table, isUnaffected⟩ := isUnaffected
      exact ⟨table, (LiveCursor.next_unaffected isUnaffected).2⟩
    | raw scan => exact (RawScan.run_unaffected .next isUnaffected).2

end TableSource

/-- The blocks of a table that a stream in a mode does not read: those before its lower end, and, if it
reads dumps, those behind its upper end. -/
def ReadMode.Spares (mode : ReadMode) (table : Table) (lower upper : Option Key) (index : Nat) :
    Prop :=
  match mode with
  | .live => index < table.firstBlock lower
  | .withTombstones => table.Outside lower upper index

namespace FileSet

open Cursor

variable {host : Host} {other : Disk} {mode : ReadMode} {lower upper : Option Key} {path : String}
  {table : Table}

/-- A source is restricted to the ends of a stream alike, if it seeks the lower one alike. -/
theorem create_unaffected {disk : Disk} {source : TableSource} (upper : Bound)
    (unaffected : source.Unaffected disk other)
    (seeks : ∀ key, lower = some key → Cursor.seek other key source = Cursor.seek disk key source ∧
      (Cursor.seek disk key source).state.Unaffected disk other) :
    Bounded.create other source (lowerBound lower) upper =
        Bounded.create disk source (lowerBound lower) upper ∧
      (Bounded.create disk source (lowerBound lower) upper).state.inner.Unaffected disk other := by
  have skips : Bounded.skipTo other (lowerBound lower) source =
        Bounded.skipTo disk (lowerBound lower) source ∧
      (Bounded.skipTo disk (lowerBound lower) source).state.Unaffected disk other := by
    cases lower with
    | none => exact ⟨rfl, unaffected⟩
    | some key =>
      obtain ⟨same, still⟩ := seeks key rfl
      unfold lowerBound Bounded.skipTo Bounded.skipBelow
      dsimp only
      rw [same]
      refine ⟨rfl, ?_⟩
      split
      · exact still
      · exact unaffected
  unfold Bounded.create
  rw [skips.1]
  refine ⟨rfl, ?_⟩
  dsimp only
  split
  · rw [Step.state_done, Bounded.inner_noteEnd]
    exact skips.2
  · exact skips.2

/-- A file is opened alike, and what it is opened for seeks the lower end of the stream alike. -/
theorem openFile_unaffected {groups : List (List Entry)} (holds : table.Holds host.disk groups)
    (opened : Table.openPath host.disk path = .ok table)
    (openedOther : Table.openPath other path = .ok table)
    (same : ∀ index, ¬ mode.Spares table lower upper index →
      table.readBlock other index = table.readBlock host.disk index) :
    openFile { host with disk := other } mode.capability? lower upper path =
        openFile host mode.capability? lower upper path ∧
      ∀ source, openFile host mode.capability? lower upper path = .ok source →
        source.Unaffected host.disk other ∧
        ∀ key, lower = some key → Cursor.seek other key source = Cursor.seek host.disk key source ∧
          (Cursor.seek host.disk key source).state.Unaffected host.disk other := by
  cases mode with
  | live =>
    have sameFrom : table.SameFrom host.disk other (table.firstBlock lower) :=
      fun index behind => same index (Nat.not_lt_of_le behind)
    obtain ⟨starts, still⟩ := LiveCursor.start_unaffected sameFrom
    simp only [openFile, ReadMode.capability?, TableSource.openLive, opened, openedOther, starts]
    refine ⟨trivial, ?_⟩
    intro source isOpened
    cases started : LiveCursor.start host.disk table lower with
    | error fault => simp [started] at isOpened
    | ok cursor =>
      simp only [started, Except.ok.injEq] at isOpened
      subst isOpened
      have unaffected := still cursor started
      refine ⟨⟨table, unaffected⟩, ?_⟩
      rintro key rfl
      obtain ⟨seeks, still'⟩ := LiveCursor.seek_unaffected unaffected.ofTable sameFrom
      exact ⟨congrArg (Step.map TableSource.live) seeks, table, still'⟩
  | withTombstones =>
    have unaffected := DumpStream.unaffected_ofTable holds same
    obtain ⟨opens, still⟩ := RawScan.openPath_unaffected opened openedOther unaffected
    simp only [openFile, ReadMode.capability?, TableSource.openRaw, opens]
    refine ⟨trivial, ?_⟩
    intro source isOpened
    cases started : RawScan.openPath host .inProcess path (.between lower upper) with
    | error fault => simp [started, Except.map] at isOpened
    | ok scan =>
      simp only [started, Except.map, Except.ok.injEq] at isOpened
      subst isOpened
      refine ⟨still scan started, fun key _ => ?_⟩
      obtain ⟨seeks, still'⟩ := RawScan.run_unaffected (.seek key) (still scan started)
      exact ⟨congrArg (Step.map TableSource.raw) seeks, still'⟩

/-- A file is opened and restricted alike. -/
theorem openSource_unaffected {groups : List (List Entry)} (holds : table.Holds host.disk groups)
    (opened : Table.openPath host.disk path = .ok table)
    (openedOther : Table.openPath other path = .ok table)
    (same : ∀ index, ¬ mode.Spares table lower upper index →
      table.readBlock other index = table.readBlock host.disk index) :
    openSource { host with disk := other } mode.capability? lower upper path =
        openSource host mode.capability? lower upper path ∧
      ∀ bounded, openSource host mode.capability? lower upper path = .ok bounded →
        bounded.inner.Unaffected host.disk other := by
  obtain ⟨sameFile, still⟩ := openFile_unaffected holds opened openedOther same
  unfold openSource
  rw [sameFile]
  cases isOpened : openFile host mode.capability? lower upper path with
  | error fault => simp
  | ok source =>
    obtain ⟨unaffected, seeks⟩ := still source isOpened
    obtain ⟨creates, still'⟩ := create_unaffected (upperBound upper) unaffected seeks
    simp only [creates]
    refine ⟨trivial, ?_⟩
    intro bounded isBounded
    split at isBounded
    · cases isBounded
      exact still'
    · cases isBounded

/-- A stream over files is opened alike, and gives the same answers, if in each file the blocks that may
be read are the same. -/
theorem keys_unaffected {files : FileSet}
    (capable : mode = .withTombstones → files.capability host = .inProcess)
    (opens : ∀ path ∈ files.paths, ∃ table groups, table.Holds host.disk groups ∧
      Table.openPath host.disk path = .ok table ∧ Table.openPath other path = .ok table ∧
      ∀ index, ¬ mode.Spares table lower upper index →
        table.readBlock other index = table.readBlock host.disk index) :
    files.keys { host with disk := other } mode lower upper = files.keys host mode lower upper ∧
      ∀ stream, files.keys host mode lower upper = .ok stream → ∀ calls : List StreamCall,
        stream.answers (calls.map (other, ·)) = stream.answers (calls.map (host.disk, ·)) := by
  have onward := (@TableSource.unaffected host.disk other).bounded.merge
  have opened : ∀ path ∈ files.paths,
      openSource { host with disk := other } mode.capability? lower upper path =
        openSource host mode.capability? lower upper path ∧
      ∀ bounded, openSource host mode.capability? lower upper path = .ok bounded →
        bounded.inner.Unaffected host.disk other := by
    intro path member
    obtain ⟨table, groups, holds, opened, openedOther, same⟩ := opens path member
    exact openSource_unaffected holds opened openedOther same
  by_cases empty : files.paths = []
  · rw [keys_of_nil _ empty, keys_of_nil _ empty]
    refine ⟨rfl, ?_⟩
    rintro _ ⟨⟩ calls
    exact KeyStream.answers_unaffected onward (by simp [KeyStream.empty]) calls
  · have capable' : mode = .withTombstones →
        files.capability { host with disk := other } = .inProcess := capable
    rw [keys_eq_openAll empty capable', keys_eq_openAll empty capable, openAll, openAll,
      mapM_congr fun path member => (opened path member).1]
    refine ⟨rfl, ?_⟩
    intro stream isOpened calls
    cases maps : files.paths.mapM (openSource host mode.capability? lower upper) with
    | error fault => simp [maps] at isOpened
    | ok sources =>
      simp only [maps, Except.ok.injEq] at isOpened
      subst isOpened
      refine KeyStream.answers_unaffected onward ?_ calls
      rintro - _ ⟨⟩ source inUse
      have isSource := Merge.getElem?_of_mem_inUse_create inUse
      obtain ⟨path, isPath, isOpened⟩ :=
        exists_getElem?_of_forall₂ (forall₂_of_mapM maps).flip isSource
      exact (opened path (List.mem_of_getElem? isPath)).2 _ isOpened

/-- Let a builder have made the files of a directory, and let them be overwritten in place, inside of
some blocks only.

If of the file at a path these hold nothing between two ends, then the dump of that range is the same,
as a whole, read piece by piece, and scanned, whatever the scan is asked to do. If of each file of a set
they are blocks that streams in a mode spare, then the stream is the same, whatever it is asked. -/
theorem unaffected_outside (host : Host) {other : Disk} (places : other.places = host.disk.places)
    (lower upper : Option Key) :
    (∀ path entries, host.disk.HoldsRun path entries →
      (∀ table, Table.openPath host.disk path = .ok table →
        table.Overwritten host.disk other (table.Outside lower upper)) →
      let range := KeyRange.between lower upper
      other.dump path range = host.disk.dump path range ∧
      (∃ table, Table.openPath host.disk path = .ok table ∧ Table.openPath other path = .ok table ∧
        ∀ counts, (DumpStream.ofTable table range).reads other counts =
          (DumpStream.ofTable table range).reads host.disk counts) ∧
      RawScan.openPath { host with disk := other } .inProcess path range =
        RawScan.openPath host .inProcess path range ∧
      ∀ scan, RawScan.openPath host .inProcess path range = .ok scan → ∀ calls,
        Cursor.steps other (.done scan) calls = Cursor.steps host.disk (.done scan) calls) ∧
    ∀ (files : FileSet) (mode : ReadMode),
      (mode = .withTombstones → files.capability host = .inProcess) →
      (∀ path ∈ files.paths, (∃ entries, host.disk.HoldsRun path entries) ∧
        ∀ table, Table.openPath host.disk path = .ok table →
          table.Overwritten host.disk other (mode.Spares table lower upper)) →
      files.keys { host with disk := other } mode lower upper = files.keys host mode lower upper ∧
      ∀ stream, files.keys host mode lower upper = .ok stream → ∀ calls : List StreamCall,
        stream.answers (calls.map (other, ·)) = stream.answers (calls.map (host.disk, ·)) := by
  constructor
  · intro path entries held overwritten range
    obtain ⟨table, groups, opened, openedOther, _, describes, reads, same⟩ :=
      held.opens_overwritten places (fun table => table.Outside lower upper) overwritten
    have holds := describes.holds fun index group found => Or.inl (reads index group found)
    have unaffected : (DumpStream.ofTable table range).Unaffected host.disk other :=
      DumpStream.unaffected_ofTable holds same
    obtain ⟨opens, still⟩ := RawScan.openPath_unaffected opened openedOther unaffected
    refine ⟨?_, ⟨table, opened, openedOther, fun counts => ?_⟩, opens, ?_⟩
    · simp only [Disk.dump, opened, openedOther, DumpStream.drain_unaffected unaffected]
    · exact DumpStream.reads_unaffected counts unaffected
    · exact fun scan isOpened calls => RawScan.steps_unaffected (still scan isOpened) calls
  · intro files mode capable overwritten
    refine keys_unaffected capable fun path member => ?_
    obtain ⟨⟨entries, held⟩, isOverwritten⟩ := overwritten path member
    obtain ⟨table, groups, opened, openedOther, _, describes, reads, same⟩ :=
      held.opens_overwritten places (fun table => mode.Spares table lower upper) isOverwritten
    have holds := describes.holds fun index group found => Or.inl (reads index group found)
    exact ⟨table, groups, holds, opened, openedOther, same⟩

/-- A file of two blocks with a byte of the first one overwritten. -/
def firstBlockChanged : Disk :=
  { Disk.ofTables 0 twoBlocks with
    contents := twoBlocks.map fun (_, entries) =>
      .ofBytes ((TableBuilder.imageOf 0 entries).set 0 255) }

/-- The first block, which stands before the key of the second one, was overwritten. -/
theorem overwritten_firstBlock (touched : Table → Nat → Prop)
    (isTouched : ∀ table index, index < table.firstBlock (some ⟨[2]⟩) → touched table index)
    (table : Table) (opened : Table.openPath (.ofTables 0 twoBlocks) "t" = .ok table) :
    table.Overwritten (.ofTables 0 twoBlocks) firstBlockChanged (touched table) := by
  have checked : (Table.openPath (.ofTables 0 twoBlocks) "t").toOption.all (fun table =>
      table.file = 0 ∧ 0 < table.firstBlock (some ⟨[2]⟩) ∧ 0 < table.blockEnd 0 ∧
      (table.blocks[0]?.any fun block => block.offset ≤ 0)) = true := by
    decide +kernel
  rw [opened] at checked
  simp only [Except.toOption, Option.all_some, decide_eq_true_eq] at checked
  obtain ⟨isFile, before, stop, checked⟩ := checked
  obtain ⟨block, inside, start⟩ := (Option.any_eq_true _ _).mp checked
  have content : firstBlockChanged.content table.file =
      ((Disk.ofTables 0 twoBlocks).content table.file).set 0 255 := by
    rw [isFile]
    rfl
  exact Table.overwritten_of_set (isTouched table 0 before) content inside
    (of_decide_eq_true start) stop

/-- Without ends, the change of the first block is noticed. From the key of the second block on it
makes no difference. -/
theorem unaffected_outside_firstBlock :
    (firstBlockChanged.dump "t" .all).2.toBool = false ∧
      firstBlockChanged.dump "t" (.between (some ⟨[2]⟩) none) =
        (Disk.ofTables 0 twoBlocks).dump "t" (.between (some ⟨[2]⟩) none) ∧
      (FileSet.ofPaths ["t"]).keys ⟨firstBlockChanged, fun _ => none, .inProcess⟩ .live
          (some ⟨[2]⟩) none =
        (FileSet.ofPaths ["t"]).keys ⟨.ofTables 0 twoBlocks, fun _ => none, .inProcess⟩ .live
          (some ⟨[2]⟩) none := by
  let host : Host := ⟨.ofTables 0 twoBlocks, fun _ => none, .inProcess⟩
  have places : firstBlockChanged.places = host.disk.places := rfl
  have held : host.disk.HoldsRun "t" _ := (List.forall₂_cons.mp holdsRun_twoBlocks).1
  obtain ⟨reads, streams⟩ := unaffected_outside host places (some ⟨[2]⟩) none
  have outside := overwritten_firstBlock (fun table => table.Outside (some ⟨[2]⟩) none)
    fun _ _ => Or.inl
  refine ⟨by decide +kernel, (reads "t" _ held outside).1, ?_⟩
  refine (streams (FileSet.ofPaths ["t"]) .live (by simp) ?_).1
  intro path member
  cases List.mem_singleton.mp member
  exact ⟨⟨_, held⟩, overwritten_firstBlock _ fun _ _ before => before⟩

end FileSet

end SortedTables
