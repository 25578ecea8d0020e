import SortedTables.Proofs.Table.Blocks
import SortedTables.RawScan

/-!
# The lines that a dump gives

`LineSource.Gives` is what reading a dump line by line gives until it is over or fails. It is
justified by the readings alone. `Table.Renders` says, of the blocks of any table, which entries are
rendered for a range and whether a block was in the way that could not be read. A dump gives the
header, a line for each of these entries, and the trailer with their number unless a block could not be
read (`DumpStream.gives_of_renders`). If the table holds entries in ascending order, those are rendered
that belong to the range (`DumpStream.renders_of_reads`).

Reading a line renders pieces until there is something to read, so whole pieces are treated: one
that was rendered is read line by line (`gives_pending`), and rendering the next one makes no
difference to what is read (`gives_of_fill`).
-/

namespace SortedTables

/-- What reading line by line gives: lines of a dump, and the fault that ended it. -/
inductive LineSource.Gives (disk : Disk) :
    LineSource → List DumpLine → Option BlockReadFault → Prop where
  | atEnd {source after : LineSource} (read : source.readLine disk = (.ok none, after)) :
      Gives disk source [] none
  | fails {source after : LineSource} {fault : BlockReadFault}
      (read : source.readLine disk = (.error fault, after)) : Gives disk source [] (some fault)
  | line {source after : LineSource} {line : DumpLine} {later : List DumpLine}
      {ending : Option BlockReadFault}
      (read : source.readLine disk = (.ok (some line.bytes), after))
      (rest : Gives disk after later ending) : Gives disk source (line :: later) ending

namespace KeyRange

/-- Standing before the end of a range is being below its upper end. -/
theorem beforeEnd_eq (range : KeyRange) (key : Key) :
    range.beforeEnd key = Key.staysBelow range.upper key := by
  unfold beforeEnd Key.staysBelow
  cases range.upper <;> rfl

/-- Standing at or behind the start of a range is reaching its lower end. -/
theorem afterStart_eq (range : KeyRange) (key : Key) :
    range.afterStart key = Key.reaches range.lower key := by
  unfold afterStart Key.reaches
  cases range.lower <;> rfl

/-- Smaller keys than one before the end stand before the end. -/
theorem beforeEnd_of_le {range : KeyRange} {low high : Key} (ordered : low ≤ high)
    (before : range.beforeEnd high = true) : range.beforeEnd low = true := by
  rw [beforeEnd_eq] at before ⊢
  exact Key.staysBelow_of_le ordered before

/-- The range between two ends contains the keys that lie between them, also if the lower end is the
empty key, which the range does not keep. -/
theorem contains_between (lower upper : Option Key) (key : Key) :
    (between lower upper).contains key = Key.isWithin lower upper key := by
  have start : (between lower upper).afterStart key = Key.reaches lower key := by
    rw [afterStart_eq]
    by_cases isEmpty : lower = some .empty
    · have above := Key.empty_le key
      simp [between, isEmpty, Key.reaches, above]
    · simp [between, isEmpty]
  have stop : (between lower upper).upper = upper := by
    unfold between
    split <;> rfl
  rw [contains, start, beforeEnd_eq, stop, Key.isWithin]

/-- What does not reach the lower end that a range keeps is not in the range. -/
theorem contains_of_not_reaches {range : KeyRange} {key : Key}
    (below : Key.reaches range.lower key = false) : range.contains key = false := by
  rw [contains, afterStart_eq, below, Bool.false_and]

end KeyRange

namespace Table

/-- The entries of a block from the start of a range on. In the block that the index names for the start
they are found by bisection, behind it they are all entries. -/
def candidates (table : Table) (range : KeyRange) (index : Nat) (group : List Entry) : List Entry :=
  match range.lower with
  | none => group
  | some lower =>
    if index = table.findBlock lower then group.drop (Block.Cursor.lowerBound group lower)
    else group

/-- The entries of a block of which lines are rendered: from the start of a range on, before the first
one that is behind it. -/
def rendered (table : Table) (range : KeyRange) (index : Nat) (group : List Entry) : List Entry :=
  (table.candidates range index group).takeWhile fun entry => range.beforeEnd entry.key

/-- Rendering the blocks of a table from one on: the entries of which lines are rendered, and why
rendering ended if a block could not be read. It ends before a block that starts behind the range, and
within a block at the first entry behind the range. The keys need not be in order. -/
inductive Renders (table : Table) (disk : Disk) (range : KeyRange) :
    Nat → List Entry → Option BlockReadFault → Prop where
  | atEnd {index : Nat} (unwanted : ∀ block, table.blocks[index]? = some block →
      range.beforeEnd block.firstKey = false) : Renders table disk range index [] none
  | fails {index : Nat} {block : BlockMeta} {fault : BlockReadFault}
      (inside : table.blocks[index]? = some block)
      (isWanted : range.beforeEnd block.firstKey = true)
      (failed : table.readBlock disk index = .error fault) :
      Renders table disk range index [] (some fault)
  | stops {index : Nat} {block : BlockMeta} {group : List Entry}
      (inside : table.blocks[index]? = some block)
      (isWanted : range.beforeEnd block.firstKey = true)
      (read : table.readBlock disk index = .ok group)
      (behind : ∃ entry ∈ table.candidates range index group, range.beforeEnd entry.key = false) :
      Renders table disk range index (table.rendered range index group) none
  | goesOn {index : Nat} {block : BlockMeta} {group later : List Entry}
      {ending : Option BlockReadFault} (inside : table.blocks[index]? = some block)
      (isWanted : range.beforeEnd block.firstKey = true)
      (read : table.readBlock disk index = .ok group)
      (before : ∀ entry ∈ table.candidates range index group, range.beforeEnd entry.key = true)
      (rest : Renders table disk range (index + 1) later ending) :
      Renders table disk range index (table.rendered range index group ++ later) ending

/-- Rendering ends, since there are only so many blocks. -/
theorem exists_renders (table : Table) (disk : Disk) (range : KeyRange) (index : Nat) :
    ∃ entries ending, table.Renders disk range index entries ending := by
  cases inside : table.blocks[index]? with
  | none => exact ⟨[], none, .atEnd (by simp [inside])⟩
  | some block =>
    cases isWanted : range.beforeEnd block.firstKey with
    | false =>
      refine ⟨[], none, .atEnd fun other same => ?_⟩
      cases inside.symm.trans same
      exact isWanted
    | true =>
      cases read : table.readBlock disk index with
      | error fault => exact ⟨[], some fault, .fails inside isWanted read⟩
      | ok group =>
        by_cases before : ∀ entry ∈ table.candidates range index group,
            range.beforeEnd entry.key = true
        · have bound := (List.getElem?_eq_some_iff.mp inside).1
          obtain ⟨later, ending, rest⟩ := exists_renders table disk range (index + 1)
          exact ⟨_, ending, .goesOn inside isWanted read before rest⟩
        · simp only [not_forall, Bool.not_eq_true] at before
          obtain ⟨entry, member, behind⟩ := before
          exact ⟨_, none, .stops inside isWanted read ⟨entry, member, behind⟩⟩
termination_by table.blocks.length - index

variable {table : Table} {range : KeyRange} {index : Nat} {group : List Entry}

/-- Behind the last block none is wanted. -/
theorem unwanted_blockCount (table : Table) (range : KeyRange) :
    ∀ block, table.blocks[table.blockCount]? = some block →
      range.beforeEnd block.firstKey = false := by
  simp [blockCount]

/-- Where no entry is behind the range, all candidates are rendered. -/
theorem rendered_of_before
    (before : ∀ entry ∈ table.candidates range index group, range.beforeEnd entry.key = true) :
    table.rendered range index group = table.candidates range index group := by
  rw [rendered, ← filter_eq_takeWhile, List.filter_eq_self.mpr before]
  exact List.pairwise_of_forall_mem_list fun left isLeft _ _ _ => before left isLeft

/-- Where an entry is behind the range, not all candidates are rendered. -/
theorem length_rendered_ne
    (behind : ∃ entry ∈ table.candidates range index group, range.beforeEnd entry.key = false) :
    (table.rendered range index group).length ≠ (table.candidates range index group).length := by
  intro same
  obtain ⟨entry, member, behind⟩ := behind
  rw [← (List.takeWhile_prefix _).eq_of_length same] at member
  have before := List.all_eq_true.mp List.all_takeWhile entry member
  cases before.symm.trans behind

end Table

namespace DumpStream

open LineSource

variable {disk : Disk} {stream : DumpStream} {lines : List DumpLine}
  {ending : Option BlockReadFault}

/-- A line of a dump is read as the dump gives it. -/
theorem readLine_dump {line? : Except BlockReadFault (Option Bytes)} {after : DumpStream}
    (read : stream.readLine disk = (line?, after)) :
    (LineSource.dump stream).readLine disk = (line?, .dump after) := by
  simp only [LineSource.readLine, read]

/-- Only what the next reading gives counts. -/
theorem gives_congr {other : DumpStream} (same : other.readLine disk = stream.readLine disk)
    (gives : Gives disk (.dump stream) lines ending) : Gives disk (.dump other) lines ending := by
  have same : (LineSource.dump other).readLine disk = (LineSource.dump stream).readLine disk := by
    simp only [LineSource.readLine, same]
  cases gives with
  | atEnd read => exact .atEnd (same.trans read)
  | fails read => exact .fails (same.trans read)
  | line read rest => exact .line (same.trans read) rest

/-- The lines that were rendered are read before what follows them. -/
theorem gives_pending (stream : DumpStream) (rendered : List DumpLine)
    (gives : Gives disk (.dump { stream with pending := [] }) lines ending) :
    Gives disk (.dump { stream with pending := rendered.map DumpLine.bytes }) (rendered ++ lines)
      ending := by
  induction rendered with
  | nil => exact gives
  | cons line later ih => exact .line (readLine_dump (readLine_of_pending rfl)) ih

/-- Where nothing was rendered, reading renders the next piece first. -/
theorem gives_of_fill {after : DumpStream} (nothing : stream.pending = [])
    (unfinished : stream.stage ≠ .done) (filled : stream.fill disk = .done after)
    (gives : Gives disk (.dump after) lines ending) : Gives disk (.dump stream) lines ending :=
  gives_congr (readLine_of_fill nothing unfinished filled) gives

/-- A piece that cannot be rendered fails the reading. -/
theorem gives_of_failed {fault : BlockReadFault} (nothing : stream.pending = [])
    (unfinished : stream.stage ≠ .done) (failed : stream.fill disk = .failed stream fault) :
    Gives disk (.dump stream) [] (some fault) :=
  .fails (readLine_dump (readLine_of_failed nothing unfinished failed))

/-- Behind the trailer nothing is read. -/
theorem gives_of_done (nothing : stream.pending = []) (finished : stream.stage = .done) :
    Gives disk (.dump stream) [] none :=
  .atEnd (readLine_dump (readLine_of_done nothing finished))

/-- The lines behind the header: those of the entries of a range, behind a number of entries listed
already, and the trailer unless reading failed. -/
def linesBehind (listed : Nat) (inside : List Entry) (ending : Option BlockReadFault) :
    List DumpLine :=
  inside.map DumpLine.entry ++
    (if ending.isNone then [DumpLine.trailer (listed + inside.length)] else [])

/-- Some entries first, then the lines behind those. -/
theorem linesBehind_append (listed : Nat) (first later : List Entry)
    (ending : Option BlockReadFault) :
    linesBehind listed (first ++ later) ending =
      first.map DumpLine.entry ++ linesBehind (listed + first.length) later ending := by
  simp only [linesBehind, List.map_append, List.append_assoc, List.length_append, Nat.add_assoc]

/-- The header is read before what follows it. -/
theorem gives_of_header {table : Table} {range : KeyRange}
    (gives : Gives disk (.dump { ofTable table range with stage := .blocks }) lines ending) :
    Gives disk (.dump (ofTable table range)) (.header range :: lines) ending :=
  gives_of_fill rfl (by simp [ofTable]) rfl
    (gives_pending { ofTable table range with stage := .blocks } [.header range] gives)

/-- The first block of a dump is the one that reading starts with for the lower end of its range. -/
theorem firstBlock_eq (table : Table) (range : KeyRange) :
    firstBlock table range = table.firstBlock range.lower := by
  unfold firstBlock Table.firstBlock
  cases range.lower <;> rfl

/-- The dump of a table that goes on with a block, behind a number of entries. -/
def atBlock (table : Table) (range : KeyRange) (index listed : Nat) : DumpStream :=
  ⟨table, range, index, listed, [], .blocks⟩

/-- The dump of a table that has rendered lines of entries and will go on with a block. -/
def behindLines (table : Table) (range : KeyRange) (index listed : Nat) (entries : List Entry) :
    DumpStream :=
  { atBlock table range index (listed + entries.length) with
    pending := (entries.map DumpLine.entry).map DumpLine.bytes }

variable {table : Table} {range : KeyRange} {index : Nat} {block : BlockMeta} {group : List Entry}

/-- What a dump takes of its next block are the candidates in it. -/
theorem fromStart_eq (stream : DumpStream) (group : List Entry) :
    stream.fromStart group = stream.table.candidates stream.range stream.nextBlock group := by
  unfold fromStart Table.candidates firstBlock
  cases stream.range.lower <;> rfl

/-- Where the next block starts behind the range, or there is none, the trailer is rendered. -/
theorem fill_of_unwanted (unwanted : ∀ block, table.blocks[index]? = some block →
      range.beforeEnd block.firstKey = false) (listed : Nat) :
    (atBlock table range index listed).fill disk =
      .done ⟨table, range, index, listed, [DumpLine.trailer listed].map DumpLine.bytes, .done⟩ := by
  have noMore : (atBlock table range index listed).hasBlock = false := by
    unfold hasBlock atBlock
    cases inside : table.blocks[index]? with
    | none => rfl
    | some block => exact unwanted block inside
  simp [fill, atBlock, show hasBlock ⟨table, range, index, listed, [], .blocks⟩ = _ from noMore]

/-- Where a block is wanted that cannot be read, nothing is rendered. -/
theorem fill_of_unreadable {fault : BlockReadFault} (inside : table.blocks[index]? = some block)
    (isWanted : range.beforeEnd block.firstKey = true)
    (failed : table.readBlock disk index = .error fault) (listed : Nat) :
    (atBlock table range index listed).fill disk = .failed (atBlock table range index listed) fault := by
  simp [fill, atBlock, hasBlock, inside, isWanted, failed]

/-- Where a block is wanted and can be read, its lines are rendered. -/
theorem fill_of_read (inside : table.blocks[index]? = some block)
    (isWanted : range.beforeEnd block.firstKey = true)
    (read : table.readBlock disk index = .ok group) (listed : Nat) :
    (atBlock table range index listed).fill disk =
      .done (behindLines table range
        (if (table.rendered range index group).length =
          (table.candidates range index group).length then index + 1 else table.blockCount)
        listed (table.rendered range index group)) := by
  have adds : (atBlock table range index listed).addBlock group = behindLines table range
      (if (table.rendered range index group).length =
        (table.candidates range index group).length then index + 1 else table.blockCount)
      listed (table.rendered range index group) := by
    rw [addBlock, fromStart_eq, behindLines, List.map_map]
    rfl
  rw [← adds]
  simp [fill, atBlock, hasBlock, inside, isWanted, read]

/-- Behind a block without an entry behind the range, the next one follows. -/
theorem fill_of_before (inside : table.blocks[index]? = some block)
    (isWanted : range.beforeEnd block.firstKey = true)
    (read : table.readBlock disk index = .ok group)
    (before : ∀ entry ∈ table.candidates range index group, range.beforeEnd entry.key = true)
    (listed : Nat) :
    (atBlock table range index listed).fill disk =
      .done (behindLines table range (index + 1) listed (table.rendered range index group)) := by
  rw [fill_of_read inside isWanted read, if_pos (congrArg _ (Table.rendered_of_before before))]

/-- Behind a block with an entry behind the range, no block follows. -/
theorem fill_of_behind (inside : table.blocks[index]? = some block)
    (isWanted : range.beforeEnd block.firstKey = true)
    (read : table.readBlock disk index = .ok group)
    (behind : ∃ entry ∈ table.candidates range index group, range.beforeEnd entry.key = false)
    (listed : Nat) :
    (atBlock table range index listed).fill disk =
      .done (behindLines table range table.blockCount listed (table.rendered range index group)) := by
  rw [fill_of_read inside isWanted read, if_neg (Table.length_rendered_ne behind)]

/-- Where no block is wanted any more, the trailer is read. -/
theorem gives_trailer (unwanted : ∀ block, table.blocks[index]? = some block →
      range.beforeEnd block.firstKey = false) (listed : Nat) :
    Gives disk (.dump (atBlock table range index listed)) [.trailer listed] none :=
  gives_of_fill rfl (by simp [atBlock]) (fill_of_unwanted unwanted listed)
    (gives_pending ⟨table, range, index, listed, [], .done⟩ [.trailer listed]
      (gives_of_done rfl rfl))

/-- Lines of entries that were rendered are read before what follows them. -/
theorem gives_behindLines {listed : Nat} {entries later : List Entry}
    (gives : Gives disk (.dump (atBlock table range index (listed + entries.length)))
      (linesBehind (listed + entries.length) later ending) ending) :
    Gives disk (.dump (behindLines table range index listed entries))
      (linesBehind listed (entries ++ later) ending) ending := by
  rw [linesBehind_append]
  exact gives_pending (atBlock table range index (listed + entries.length)) _ gives

/-- Reading a dump that goes on with a block gives the lines of the entries that are rendered from that
block on. -/
theorem gives_of_renders {entries : List Entry}
    (renders : table.Renders disk range index entries ending) (listed : Nat) :
    Gives disk (.dump (atBlock table range index listed)) (linesBehind listed entries ending)
      ending := by
  have unfinished {index listed : Nat} : (atBlock table range index listed).stage ≠ .done := by
    simp [atBlock]
  induction renders generalizing listed with
  | atEnd unwanted => exact gives_trailer unwanted listed
  | fails inside isWanted failed =>
    exact gives_of_failed rfl unfinished (fill_of_unreadable inside isWanted failed listed)
  | @stops index block group inside isWanted read behind =>
    rw [← List.append_nil (table.rendered range index group)]
    exact gives_of_fill rfl unfinished (fill_of_behind inside isWanted read behind listed)
      (gives_behindLines (gives_trailer (table.unwanted_blockCount range) _))
  | goesOn inside isWanted read before _ ih =>
    exact gives_of_fill rfl unfinished (fill_of_before inside isWanted read before listed)
      (gives_behindLines (ih _))

/-- In a table whose keys ascend, the candidates of a block are the entries that are not before the
start of the range. -/
theorem candidates_eq_filter {groups : List (List Entry)} (holds : table.Holds disk groups)
    (started : table.firstBlock range.lower ≤ index)
    (read : table.readBlock disk index = .ok group) :
    table.candidates range index group = group.filter fun entry => range.afterStart entry.key := by
  have stored := holds.reads _ _ read
  unfold Table.candidates KeyRange.afterStart
  cases bound : range.lower with
  | none => simp
  | some low =>
    rw [bound] at started
    change table.findBlock low ≤ index at started
    by_cases here : index = table.findBlock low
    · simp only [here, if_true]
      exact drop_lowerBound low ((holds.ascends_of_getElem? stored).imp le_of_lt)
    · simp only [here, if_false]
      symm
      apply List.filter_eq_self.mpr
      intro entry member
      apply decide_eq_true
      apply le_of_lt
      apply (holds.findBlock_bounds low).2
      apply List.mem_flatten.mpr
      refine ⟨group, List.mem_iff_getElem?.mpr ⟨index - (table.findBlock low + 1), ?_⟩, member⟩
      rw [List.getElem?_drop, ← stored]
      congr 1
      omega

/-- Of the entries of a block from the start of a range on, those before its end are a front. -/
theorem takeWhile_beforeEnd {group : List Entry} (range : KeyRange) (ascends : Ascending group) :
    ((group.filter fun entry => range.afterStart entry.key).takeWhile fun entry =>
      range.beforeEnd entry.key) = group.filter fun entry => range.contains entry.key := by
  rw [← filter_eq_takeWhile, List.filter_filter]
  · simp only [KeyRange.contains, Bool.and_comm]
  · exact (ascends.filter _).imp fun below before =>
      KeyRange.beforeEnd_of_le (le_of_lt below) before

/-- Behind a block with an entry behind the range, no block is wanted. -/
theorem reads_eq_nil {table : Table} {range : KeyRange} {groups : List (List Entry)} {index : Nat}
    {group later : List Entry} (holds : table.Holds disk groups)
    (stored : groups[index]? = some group)
    (behind : ∃ entry ∈ group, range.beforeEnd entry.key = false)
    (rest : table.Reads disk range.beforeEnd (index + 1) later ending) :
    later = [] ∧ ending = none := by
  obtain ⟨last, isLast, behind⟩ := behind
  have isEarly : last ∈ (groups.take (index + 1)).flatten := by
    refine List.mem_flatten.mpr ⟨group, List.mem_iff_getElem?.mpr ⟨index, ?_⟩, isLast⟩
    rw [List.getElem?_take_of_lt (Nat.lt_succ_self index), stored]
  have unwanted {next : BlockMeta} (isNext : table.blocks[index + 1]? = some next)
      (isWanted : range.beforeEnd next.firstKey = true) : False := by
    have above := holds.lt_firstKey isNext last isEarly
    rw [KeyRange.beforeEnd_of_le (le_of_lt above) isWanted] at behind
    cases behind
  cases rest with
  | atEnd _ => exact ⟨rfl, rfl⟩
  | fails isNext isWanted _ => exact (unwanted isNext isWanted).elim
  | goesOn isNext isWanted _ _ => exact (unwanted isNext isWanted).elim

/-- Of a table whose keys ascend, the entries of the range are rendered that reading the blocks meets. -/
theorem renders_of_reads {groups : List (List Entry)} {entries : List Entry}
    (holds : table.Holds disk groups)
    (reads : table.Reads disk range.beforeEnd index entries ending)
    (started : table.firstBlock range.lower ≤ index) :
    table.Renders disk range index (entries.filter fun entry => range.contains entry.key)
      ending := by
  induction reads with
  | atEnd unwanted => exact .atEnd unwanted
  | fails inside isWanted failed => exact .fails inside isWanted failed
  | @goesOn index block group later ending inside isWanted read rest ih =>
    have stored := holds.reads _ _ read
    have candidates := candidates_eq_filter holds started read
    have chosen : table.rendered range index group =
        group.filter fun entry => range.contains entry.key := by
      rw [Table.rendered, candidates]
      exact takeWhile_beforeEnd range (holds.ascends_of_getElem? stored)
    rw [List.filter_append, ← chosen]
    by_cases before : ∀ entry ∈ table.candidates range index group,
        range.beforeEnd entry.key = true
    · exact .goesOn inside isWanted read before (ih (Nat.le_succ_of_le started))
    · -- An entry behind the range was met, and the next block starts behind that.
      simp only [not_forall, Bool.not_eq_true] at before
      obtain ⟨entry, member, behind⟩ := before
      have isStored : entry ∈ group := by
        rw [candidates] at member
        exact (List.mem_filter.mp member).1
      obtain ⟨rfl, rfl⟩ := reads_eq_nil holds stored ⟨entry, isStored, behind⟩ rest
      rw [List.filter_nil, List.append_nil]
      exact .stops inside isWanted read ⟨entry, member, behind⟩

/-- Reading the dump of a table gives the header, and then the lines of the entries that reading from
the first block on meets, as far as they belong to the range. -/
theorem gives_ofTable {groups : List (List Entry)} {entries : List Entry}
    (holds : table.Holds disk groups)
    (reads : table.Reads disk range.beforeEnd (table.firstBlock range.lower) entries ending) :
    Gives disk (.dump (ofTable table range))
      (.header range ::
        linesBehind 0 (entries.filter fun entry => range.contains entry.key) ending) ending := by
  have renders := renders_of_reads holds reads (Nat.le_refl _)
  rw [← firstBlock_eq] at renders
  exact gives_of_header (gives_of_renders renders 0)

end DumpStream

end SortedTables
