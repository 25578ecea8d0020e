import Mathlib.Data.List.TakeWhile
import SortedTables.Proofs.Cursor.Draining
import SortedTables.Proofs.Dump.Scanning

/-!
# A scan gets back what was written

Between a table and a scan of it stands a text: entries are rendered as lines, and the lines are read
and checked again. For a table that a builder has written nothing is lost on this way
(`RawScan.drains_of_holdsRun`). The scan of any range is opened, shows the entries of the range as
they were written, and is finished behind the last one. Tombstones must not have values, since a
scan refuses these.

That a scan is finished where it shows nothing any more does not depend on the dump: every move that
succeeds without coming to an entry has read the trailer (`RawScan.finished_of_advance`).
-/

namespace SortedTables

/-- Reading the blocks of a table that can all be read meets all entries of a range. -/
theorem Table.Holds.exists_reads_of_readable {table : Table} {disk : Disk}
    {groups : List (List Entry)} (holds : table.Holds disk groups) (readable : table.Readable disk)
    (range : KeyRange) :
    ∃ entries, table.Reads disk range.beforeEnd (table.firstBlock range.lower) entries none ∧
      (entries.filter fun entry => range.contains entry.key) =
        groups.flatten.filter fun entry => range.contains entry.key := by
  obtain ⟨entries, ending, reads⟩ :=
    table.exists_reads disk range.beforeEnd (table.firstBlock range.lower)
  obtain rfl := holds.eq_none_of_readable readable reads
  refine ⟨entries, reads, (holds.covers reads ?_ ?_ (Or.inl rfl)).1⟩
  · exact fun entry early =>
      KeyRange.contains_of_not_reaches (holds.reaches_of_take _ entry early)
  · intro low high ordered isIn
    rw [KeyRange.contains, Bool.and_eq_true] at isIn
    exact KeyRange.beforeEnd_of_le ordered isIn.2

namespace RawScan

open Cursor

variable {disk : Disk} {scan : RawScan} {path : String}

/-- An entry that is accepted becomes the current one. -/
theorem current_of_acceptEntry {entry : Entry} (moved : (scan.acceptEntry entry).fault = none) :
    (scan.acceptEntry entry).state.current = some entry := by
  unfold acceptEntry at moved ⊢
  split
  · next behind => simp [behind] at moved
  · next ahead =>
    split
    · rfl
    · next outside => simp [ahead, outside] at moved

/-- A trailer that is accepted finishes the scan. -/
theorem finished_of_acceptTrailer {stated : Nat}
    (moved : (scan.acceptTrailer disk stated).fault = none) :
    (scan.acceptTrailer disk stated).state.finished = true := by
  unfold acceptTrailer at moved ⊢
  split
  · next same =>
    rw [if_pos same] at moved
    split
    · next read => simp [read] at moved
    · next read => simp [read] at moved
    · rfl
  · next other => simp [other] at moved

/-- A scan that is advanced without a fault and has no current entry then is finished. -/
theorem finished_of_advance (moved : (scan.advance disk).fault = none)
    (spent : (scan.advance disk).state.current = none) :
    (scan.advance disk).state.finished = true := by
  unfold advance at moved spent ⊢
  split
  · next read => simp [read] at moved
  · next entry after read =>
    simp only [read] at moved spent
    rw [current_of_acceptEntry moved] at spent
    cases spent
  · next stated after read =>
    simp only [read] at moved
    exact finished_of_acceptTrailer moved
  · next read => simp [read] at moved
  · next read => simp [read] at moved

/-- A scan that was started has been advanced from behind the header. -/
theorem start_eq_ok_iff {source : LineSource} {tool : Option Nat} :
    start disk path source tool = .ok scan ↔
      ∃ headed, (ofSource path source tool).readHeader disk = .done headed ∧
        headed.advance disk = .done scan := by
  unfold start Step.andThen
  cases header : (ofSource path source tool).readHeader disk with
  | mk headed fault =>
    cases fault with
    | some fault => simp [Step.done]
    | none =>
      cases first : headed.advance disk with
      | mk after fault => cases fault <;> simp [Step.done, first]

/-- A scan that was started is finished if it has no current entry. -/
theorem finished_of_start {source : LineSource} {tool : Option Nat}
    (started : start disk path source tool = .ok scan) (spent : scan.current = none) :
    scan.finished = true := by
  obtain ⟨headed, _, first⟩ := start_eq_ok_iff.mp started
  have isState : (headed.advance disk).state = scan := by rw [first, Step.state_done]
  rw [← isState] at spent ⊢
  exact finished_of_advance (by rw [first, Step.fault_done]) spent

/-- A scan that was opened was started, and its dump states the range that was asked for. -/
theorem exists_start_of_openPath {host : Host} {capability : Capability} {range : KeyRange}
    (opened : openPath host capability path range = .ok scan) :
    scan.range = range ∧ ∃ source tool, start host.disk path source tool = .ok scan := by
  unfold openPath at opened
  split at opened
  · cases opened
  · next started isStarted =>
    split at opened
    · next same =>
      cases opened
      refine ⟨same, ?_⟩
      unfold openAny at isStarted
      split at isStarted
      · cases isStarted
      · split at isStarted
        · cases isStarted
        · exact ⟨_, _, isStarted⟩
      · split at isStarted
        · cases isStarted
        · exact ⟨_, _, isStarted⟩
    · cases opened

/-- A scan that was started and then drained is finished. -/
theorem finished_of_drains_start {source : LineSource} {tool : Option Nat} {last : RawScan}
    {seen : List Entry} (started : start disk path source tool = .ok scan)
    (drains : Drains disk showing? scan seen last) : last.finished = true := by
  have settled : last.current = none → last.finished = true := by
    refine drains.invariant (fun scan => scan.current = none → scan.finished = true)
      (finished_of_start started) ?_
    intro scan _ isShown moved
    rw [showing?_eq_current] at isShown
    obtain ⟨entry, current⟩ := Option.isSome_iff_exists.mp isShown
    rw [next_of_current disk current] at moved ⊢
    exact finished_of_advance moved
  have spent := drains.look_last
  rw [showing?_eq_current] at spent
  exact settled spent

/-- A scan that was opened and then drained is finished. -/
theorem finished_of_drains {host : Host} {capability : Capability} {range : KeyRange}
    {last : RawScan} {seen : List Entry} (opened : openPath host capability path range = .ok scan)
    (drains : Drains host.disk showing? scan seen last) : last.finished = true := by
  obtain ⟨_, source, tool, started⟩ := exists_start_of_openPath opened
  exact finished_of_drains_start started drains

/-- Let a builder have written a table whose tombstones have no values. The scan of any range of it is
opened, and states that range. It shows the entries of the range in order, each with the key, the
sequence number, the kind and the value that it was written with. No move fails, and the scan that
is left shows nothing and is finished. -/
theorem drains_of_holdsRun {host : Host} {entries : List Entry}
    (held : host.disk.HoldsRun path entries)
    (bare : ∀ entry ∈ entries, entry.kind = .delete → entry.value = [])
    (lower upper : Option Key) :
    ∃ scan last, openPath host .inProcess path (.between lower upper) = .ok scan ∧
      scan.range = .between lower upper ∧
      Drains host.disk showing? scan
        (entries.filter fun entry => Key.isWithin lower upper entry.key) last ∧
      isValid last = false ∧ last.finished = true := by
  obtain ⟨table, groups, opened, rfl, holds, readable⟩ := held.opens
  let range := KeyRange.between lower upper
  obtain ⟨met, reads, covers⟩ := holds.exists_reads_of_readable readable range
  have inRange : (met.filter fun entry => range.contains entry.key) =
      groups.flatten.filter fun entry => Key.isWithin lower upper entry.key := by
    rw [covers]
    simp only [range, KeyRange.contains_between]
  have scannable : ∀ entry ∈ groups.flatten.filter fun entry =>
      Key.isWithin lower upper entry.key, entry.isScannable = true := by
    intro entry member
    have empty := bare entry (List.mem_filter.mp member).1
    cases kind : entry.kind with
    | put => simp [Entry.isScannable, Entry.isTombstone, kind]
    | delete => simp [Entry.isScannable, empty kind]
  have walks := walks_of_openPath opened holds reads
  rw [inRange] at walks
  cases opens : openPath host .inProcess path range with
  | error fault =>
    rw [opens] at walks
    rcases walks with failed | ⟨entry, member, refused⟩
    · exact absurd rfl failed
    · cases (scannable entry member).symm.trans refused
  | ok scan =>
    rw [opens] at walks
    obtain ⟨fault?, walks, ends⟩ := walks
    obtain rfl := ends.mpr ⟨rfl, scannable⟩
    rw [accepted, List.takeWhile_eq_self_iff.mpr scannable] at walks
    obtain ⟨last, drains⟩ := walks.exists_drains
    exact ⟨scan, last, rfl, (exists_start_of_openPath opens).1, drains,
      valid_of_showing?_eq_none drains.look_last, finished_of_drains opens drains⟩

/-- The entries of a table of two blocks. The tombstone is the last one of the first block. -/
def halved : List Entry :=
  [⟨⟨[]⟩, 3, .put, [0, 255]⟩, ⟨⟨[10]⟩, 0, .delete, []⟩, ⟨⟨[10, 0]⟩, 18446744073709551615, .put, []⟩,
    ⟨⟨[39]⟩, 1, .put, [10]⟩]

/-- A range that starts behind the first entry of one block and ends before the last one of the
other. -/
theorem drains_of_holdsRun_halved :
    ∃ scan last, openPath ⟨.ofTables 40 [("t", halved)], fun _ => none, .unavailable⟩ .inProcess "t"
        (.between (some ⟨[1]⟩) (some ⟨[39]⟩)) = .ok scan ∧
      Drains (.ofTables 40 [("t", halved)]) showing? scan
        [⟨⟨[10]⟩, 0, .delete, []⟩, ⟨⟨[10, 0]⟩, 18446744073709551615, .put, []⟩] last ∧
      last.finished = true := by
  let host : Host := ⟨.ofTables 40 [("t", halved)], fun _ => none, .unavailable⟩
  have held : host.disk.HoldsRun "t" halved := by
    refine Disk.holdsRun_of_content 40 0 ?_ ?_ ?_ ?_
    all_goals first | exact ByteStore.bytes_ofBytes _ | decide +kernel
  obtain ⟨scan, last, opened, _, drains, _, finished⟩ :=
    drains_of_holdsRun held (by decide) (some ⟨[1]⟩) (some ⟨[39]⟩)
  exact ⟨scan, last, opened, drains, finished⟩

end RawScan

end SortedTables
