import SortedTables.Proofs.Cursor.Calls
import SortedTables.Proofs.Table.Unaffected
import SortedTables.RawScan

/-!
# Dumps in two directories

A dump reads blocks in order, and none that starts behind its range. If the blocks from the next one on
that start before the end read alike in two directories, the dump is the same in both: as a whole, read
piece by piece, and scanned. At first these are the blocks of the table that are not outside of the range
(`DumpStream.unaffected_ofTable`).
-/

namespace SortedTables

/-- Reading starts with the same block whether or not an empty lower end is kept. -/
theorem Table.Holds.firstBlock_between {table : Table} {disk : Disk} {groups : List (List Entry)}
    (holds : table.Holds disk groups) (lower upper : Option Key) :
    DumpStream.firstBlock table (.between lower upper) = table.firstBlock lower := by
  unfold KeyRange.between
  split
  · next empty =>
    subst empty
    by_contra positive
    have positive : 0 < table.findBlock .empty := Nat.pos_of_ne_zero (Ne.symm positive)
    obtain ⟨block, inside, _⟩ := (findBlock_spec .empty holds.sorted).2 positive
    have counted := (List.getElem?_eq_some_iff.mp inside).1
    rw [holds.length_blocks] at counted
    have first : groups[0] ∈ groups.take (table.findBlock .empty) :=
      List.mem_take_iff_getElem.mpr ⟨0, by omega, rfl⟩
    obtain ⟨entry, later, isGroup⟩ := List.exists_cons_of_ne_nil
      (holds.nonempty _ (List.mem_of_mem_take first))
    have early : entry ∈ (groups.take (table.findBlock .empty)).flatten :=
      List.mem_flatten.mpr ⟨_, first, isGroup ▸ List.mem_cons_self⟩
    exact absurd ((holds.findBlock_bounds .empty).1 entry early) (not_lt_of_ge (Key.empty_le _))
  · cases lower <;> rfl

namespace DumpStream

variable {disk other : Disk} {stream : DumpStream}

/-- The blocks that a dump may still read are read alike in two directories. -/
def Unaffected (disk other : Disk) (stream : DumpStream) : Prop :=
  ∀ index block, stream.nextBlock ≤ index → stream.table.blocks[index]? = some block →
    stream.range.beforeEnd block.firstKey = true →
    stream.table.readBlock other index = stream.table.readBlock disk index

/-- At first these are the blocks that are not outside of the range. -/
theorem unaffected_ofTable {table : Table} {groups : List (List Entry)}
    (holds : table.Holds disk groups) {lower upper : Option Key}
    (unaffected : ∀ index, ¬ table.Outside lower upper index →
      table.readBlock other index = table.readBlock disk index) :
    (ofTable table (.between lower upper)).Unaffected disk other := by
  intro index block behind inside before
  apply unaffected
  rintro (early | ⟨key, found, rfl, isBlock, late⟩)
  · change DumpStream.firstBlock table _ ≤ index at behind
    rw [holds.firstBlock_between] at behind
    omega
  · cases inside.symm.trans isBlock
    have notYet : block.firstKey < key := by
      simpa [ofTable, KeyRange.between, KeyRange.beforeEnd, apply_dite KeyRange.upper] using before
    exact absurd late (not_le_of_gt notYet)

/-- The next piece is rendered alike. -/
theorem fill_unaffected (unaffected : stream.Unaffected disk other) :
    stream.fill other = stream.fill disk ∧ (stream.fill disk).state.Unaffected disk other := by
  unfold fill
  split
  · exact ⟨rfl, unaffected⟩
  · split
    · next more =>
      have same : stream.table.readBlock other stream.nextBlock =
          stream.table.readBlock disk stream.nextBlock := by
        unfold hasBlock at more
        split at more
        · cases more
        · next block inside => exact unaffected _ block (Nat.le_refl _) inside more
      rw [same]
      refine ⟨rfl, ?_⟩
      split
      · exact unaffected
      · intro index block behind
        exact unaffected index block (Nat.le_trans (Nat.le_of_lt (nextBlock_lt_addBlock _ more)) behind)
    · exact ⟨rfl, unaffected⟩
  · exact ⟨rfl, unaffected⟩

/-- Pieces are rendered alike. -/
theorem settle_unaffected (unaffected : stream.Unaffected disk other) :
    stream.settle other = stream.settle disk ∧ (stream.settle disk).state.Unaffected disk other := by
  fun_induction settle disk stream with
  | case1 stream unread step filled ih =>
    obtain ⟨same, still⟩ := fill_unaffected unaffected
    rw [settle, dif_pos unread]
    simp only [same]
    rw [dif_pos (show (stream.fill disk).fault = none from filled)]
    exact ih still
  | case2 stream unread step failed =>
    obtain ⟨same, still⟩ := fill_unaffected unaffected
    rw [settle, dif_pos unread]
    simp only [same]
    rw [dif_neg (show ¬ (stream.fill disk).fault = none from failed)]
    exact ⟨rfl, still⟩
  | case3 stream read =>
    rw [settle, dif_neg read]
    exact ⟨rfl, unaffected⟩

/-- Bytes are read alike. -/
theorem read_unaffected (count : Nat) (unaffected : stream.Unaffected disk other) :
    stream.read other count = stream.read disk count ∧
      (stream.read disk count).2.Unaffected disk other := by
  obtain ⟨same, still⟩ := settle_unaffected unaffected
  unfold read
  rw [same]
  refine ⟨rfl, ?_⟩
  dsimp only
  split <;> exact still

/-- A line is read alike. -/
theorem readLine_unaffected (unaffected : stream.Unaffected disk other) :
    stream.readLine other = stream.readLine disk ∧
      (stream.readLine disk).2.Unaffected disk other := by
  obtain ⟨same, still⟩ := settle_unaffected unaffected
  unfold readLine
  rw [same]
  refine ⟨rfl, ?_⟩
  dsimp only
  split
  · exact still
  · split <;> exact still

/-- The rest of a dump is read alike. -/
theorem drainAfter_unaffected (lines : List Bytes) (unaffected : stream.Unaffected disk other) :
    stream.drainAfter other lines = stream.drainAfter disk lines := by
  fun_induction drainAfter disk lines stream with
  | case1 lines stream line after found ih =>
    obtain ⟨same, still⟩ := readLine_unaffected unaffected
    rw [found] at same still
    rw [drainAfter_of_line same]
    exact ih still
  | case2 lines stream after found =>
    exact drainAfter_of_none ((readLine_unaffected unaffected).1.trans found)
  | case3 lines stream fault after found =>
    exact drainAfter_of_error ((readLine_unaffected unaffected).1.trans found)

/-- What a dump gives when it is read, up to a number of bytes each time. -/
def reads (disk : Disk) (stream : DumpStream) : List Nat → List (Except BlockReadFault Bytes)
  | [] => []
  | count :: later => (stream.read disk count).1 :: reads disk (stream.read disk count).2 later

/-- A dump gives the same, however it is read. -/
theorem reads_unaffected (counts : List Nat) (unaffected : stream.Unaffected disk other) :
    stream.reads other counts = stream.reads disk counts := by
  induction counts generalizing stream with
  | nil => rfl
  | cons count later ih =>
    obtain ⟨same, still⟩ := read_unaffected count unaffected
    simp only [reads, same, ih still]

/-- The rest of a dump is the same as a whole. -/
theorem drain_unaffected (unaffected : stream.Unaffected disk other) :
    stream.drain other = stream.drain disk :=
  drainAfter_unaffected [] unaffected

end DumpStream

namespace LineSource

variable {disk other : Disk}

/-- What may still be read from files for lines is the same in two directories. -/
def Unaffected (disk other : Disk) : LineSource → Prop
  | text _ => True
  | dump stream => stream.Unaffected disk other

/-- A line is read alike. -/
theorem readLine_unaffected {source : LineSource} (unaffected : source.Unaffected disk other) :
    source.readLine other = source.readLine disk ∧
      (source.readLine disk).2.Unaffected disk other := by
  cases source with
  | text rest => cases rest <;> exact ⟨rfl, trivial⟩
  | dump stream =>
    obtain ⟨same, still⟩ := DumpStream.readLine_unaffected unaffected
    exact ⟨by simp only [readLine, same], still⟩

end LineSource

namespace RawScan

variable {disk other : Disk} {scan : RawScan}

/-- What a scan may still read from files is the same in two directories. -/
def Unaffected (disk other : Disk) (scan : RawScan) : Prop :=
  scan.source.Unaffected disk other

/-- A line is decoded alike. -/
theorem readLine_unaffected (unaffected : scan.Unaffected disk other) :
    scan.readLine other = scan.readLine disk ∧
      (scan.readLine disk).2.Unaffected disk other := by
  obtain ⟨same, still⟩ := LineSource.readLine_unaffected unaffected
  unfold readLine
  rw [same]
  refine ⟨rfl, ?_⟩
  split
  · next read => rwa [read] at still
  · next read => rwa [read] at still
  · next read =>
    rw [read] at still
    dsimp only
    split <;> exact still

/-- What follows an entry is the same. -/
theorem acceptEntry_unaffected (entry : Entry) (unaffected : scan.Unaffected disk other) :
    (scan.acceptEntry entry).state.Unaffected disk other := by
  unfold acceptEntry
  split
  · exact unaffected
  · split <;> exact unaffected

/-- A trailer is accepted alike. -/
theorem acceptTrailer_unaffected (stated : Nat) (unaffected : scan.Unaffected disk other) :
    scan.acceptTrailer other stated = scan.acceptTrailer disk stated ∧
      (scan.acceptTrailer disk stated).state.Unaffected disk other := by
  obtain ⟨same, still⟩ := readLine_unaffected unaffected
  unfold acceptTrailer
  rw [same]
  refine ⟨rfl, ?_⟩
  split
  · split <;> next read => rw [read] at still; exact still
  · exact unaffected

/-- A scan goes on alike. -/
theorem advance_unaffected (unaffected : scan.Unaffected disk other) :
    scan.advance other = scan.advance disk ∧ (scan.advance disk).state.Unaffected disk other := by
  have unaffected' : Unaffected disk other { scan with current := none } := unaffected
  obtain ⟨same, still⟩ := readLine_unaffected unaffected'
  unfold advance
  rw [same]
  split
  · next read =>
    rw [read] at still
    exact ⟨rfl, still⟩
  · next entry after read =>
    rw [read] at still
    exact ⟨rfl, acceptEntry_unaffected entry still⟩
  · next stated after read =>
    rw [read] at still
    exact acceptTrailer_unaffected stated still
  · next read =>
    rw [read] at still
    exact ⟨rfl, still⟩
  · next read =>
    rw [read] at still
    exact ⟨rfl, still⟩

/-- A header is read alike. -/
theorem readHeader_unaffected (unaffected : scan.Unaffected disk other) :
    scan.readHeader other = scan.readHeader disk ∧
      (scan.readHeader disk).state.Unaffected disk other := by
  obtain ⟨same, still⟩ := readLine_unaffected unaffected
  unfold readHeader
  rw [same]
  refine ⟨rfl, ?_⟩
  split <;> next read => rw [read] at still; exact still

/-- A scan seeks alike. -/
theorem seek_unaffected (key : Key) (unaffected : scan.Unaffected disk other) :
    scan.seek other key = scan.seek disk key ∧
      (scan.seek disk key).state.Unaffected disk other := by
  fun_induction seek disk key scan with
  | case1 scan before step moved ih =>
    obtain ⟨same, still⟩ := advance_unaffected unaffected
    rw [seek, if_pos before]
    simp only [same]
    rw [dif_pos moved]
    exact ih still
  | case2 scan before step stopped =>
    obtain ⟨same, still⟩ := advance_unaffected unaffected
    rw [seek, if_pos before]
    simp only [same]
    rw [dif_neg stopped]
    exact ⟨rfl, still⟩
  | case3 scan notBefore =>
    rw [seek, if_neg notBefore]
    exact ⟨rfl, unaffected⟩

/-- A scan does the same when it is called. -/
theorem run_unaffected (call : Cursor.Call) (unaffected : scan.Unaffected disk other) :
    call.run other scan = call.run disk scan ∧
      (call.run disk scan).state.Unaffected disk other := by
  cases call with
  | next =>
    change next other scan = next disk scan ∧ (next disk scan).state.Unaffected disk other
    unfold next
    split
    · exact advance_unaffected unaffected
    · exact ⟨rfl, unaffected⟩
  | seek key => exact seek_unaffected key unaffected
  | close =>
    refine ⟨rfl, ?_⟩
    change (close scan).state.source.Unaffected disk other
    unfold close
    split
    · trivial
    · dsimp only
      split <;> trivial

/-- A scan starts alike. -/
theorem start_unaffected {stream : DumpStream} (path : String)
    (unaffected : stream.Unaffected disk other) :
    start other path (.dump stream) none = start disk path (.dump stream) none ∧
      ∀ scan, start disk path (.dump stream) none = .ok scan → scan.Unaffected disk other := by
  have begins : (ofSource path (.dump stream) none).Unaffected disk other := unaffected
  obtain ⟨same, still⟩ := readHeader_unaffected begins
  obtain ⟨same', still'⟩ := Step.andThen_unaffected (Unaffected disk other) same still
    fun _ => advance_unaffected
  unfold start
  rw [same']
  refine ⟨rfl, ?_⟩
  intro scan started
  dsimp only at started
  split at started
  · cases started
  · cases started
    exact still'

/-- A scan makes the same steps under all calls. -/
theorem steps_unaffected {step : Step RawScan Fault} (unaffected : step.state.Unaffected disk other)
    (calls : List Cursor.Call) : Cursor.steps other step calls = Cursor.steps disk step calls := by
  induction calls generalizing step with
  | nil => rfl
  | cons call later ih =>
    obtain ⟨same, still⟩ := run_unaffected call unaffected
    simp only [Cursor.steps, same, ih still]

/-- A scan of a table is opened alike. -/
theorem openPath_unaffected {host : Host} {other : Disk} {path : String} {range : KeyRange}
    {table : Table} (opened : Table.openPath host.disk path = .ok table)
    (openedOther : Table.openPath other path = .ok table)
    (unaffected : (DumpStream.ofTable table range).Unaffected host.disk other) :
    openPath { host with disk := other } .inProcess path range =
        openPath host .inProcess path range ∧
      ∀ scan, openPath host .inProcess path range = .ok scan → scan.Unaffected host.disk other := by
  obtain ⟨same, still⟩ := start_unaffected path unaffected
  simp only [openPath, openAny, opened, openedOther, same]
  refine ⟨trivial, ?_⟩
  intro scan isScan
  cases started : start host.disk path (.dump (.ofTable table range)) none with
  | error fault => simp [started] at isScan
  | ok begun =>
    simp only [started] at isScan
    split at isScan
    · cases isScan
      exact still _ started
    · cases isScan

end RawScan

end SortedTables
