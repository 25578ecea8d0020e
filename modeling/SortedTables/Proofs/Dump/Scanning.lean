import SortedTables.Proofs.Cursor.Walk
import SortedTables.Proofs.Dump.Lines
import SortedTables.Proofs.Dump.Rendering

/-!
# What a scan of a dump walks through

A scan does not trust its lines, so the invariant `RawScan.Expects` says both what the lines are and
that they pass the checks: the entries to come ascend behind the last key, belong to the range of
the header, and are counted by the trailer. What a table renders is like that.

One thing can be wrong with it. The line of a tombstone with a value is written by a dump and refused
by a scan, so a scan walks through the entries before the first such one and then fails.
-/

namespace SortedTables

namespace RawScan

open Cursor LineSource

variable {disk : Disk} {scan : RawScan} {entries : List Entry} {ending : Option BlockReadFault}

/-- The lines to come are those of entries that the scan will accept, up to the fault at the end, and
the trailer if there is none. -/
structure Expects (disk : Disk) (scan : RawScan) (entries : List Entry)
    (ending : Option BlockReadFault) : Prop where
  /-- These lines are read. -/
  gives : Gives disk scan.source (DumpStream.linesBehind scan.listed entries ending) ending
  /-- The entries belong to the range. -/
  inside : ∀ entry ∈ entries, scan.range.contains entry.key = true
  /-- Their keys ascend. -/
  ascends : Ascending entries
  /-- They stand behind the last key. -/
  behind : ∀ last, scan.lastKey = some last → ∀ entry ∈ entries, last < entry.key
  /-- Their number can be stated. -/
  few : scan.listed + entries.length < UInt64.size

/-- Reading a line that is decoded. -/
theorem readLine_of_gives (scan : RawScan) {line decoded : DumpLine} {later : List DumpLine}
    (gives : Gives disk scan.source (line :: later) ending)
    (isLine : decodeLine line.bytes = .ok decoded) :
    ∃ after, scan.readLine disk = (.ok (some decoded),
        { scan with source := after, lineNumber := scan.lineNumber + 1 }) ∧
      Gives disk after later ending := by
  cases gives with
  | @line _ after _ _ _ read rest =>
    refine ⟨after, ?_, rest⟩
    simp [readLine, read, isLine]

/-- Behind the last entry the scan is finished by the trailer. -/
theorem advance_over (expects : Expects disk scan [] none) :
    ∃ after, scan.advance disk = .done { scan with
      current := none, source := after, lineNumber := scan.lineNumber + 1, finished := true } := by
  have gives := expects.gives
  have small : scan.listed + 0 < UInt64.size := expects.few
  obtain ⟨after, read, rest⟩ := readLine_of_gives { scan with current := none } gives
    (decodeLine_trailer small)
  cases rest with
  | @atEnd _ last spent =>
    refine ⟨last, ?_⟩
    have nothing : readLine disk { scan with
        current := none, source := after, lineNumber := scan.lineNumber + 1 } = (.ok none,
          { scan with current := none, source := last, lineNumber := scan.lineNumber + 1 }) := by
      simp [readLine, spent]
    simp only [advance, read, acceptTrailer, List.length_nil, Nat.add_zero, if_true, nothing]

/-- A block that cannot be read fails the scan behind the entries before it. -/
theorem advance_failed {fault : BlockReadFault} (expects : Expects disk scan [] (some fault)) :
    (scan.advance disk).fault = some (.readDump scan.path fault) := by
  have gives := expects.gives
  simp only [DumpStream.linesBehind] at gives
  cases gives with
  | fails read => simp [advance, readLine, read]

/-- An entry is accepted, if its line is. -/
theorem advance_entry {entry : Entry} (expects : Expects disk scan (entry :: entries) ending)
    (scannable : entry.isScannable = true) :
    ∃ after, scan.advance disk = .done { scan with
        current := some entry, lastKey := some entry.key, listed := scan.listed + 1, source := after,
        lineNumber := scan.lineNumber + 1 } ∧
      Expects disk { scan with
        current := some entry, lastKey := some entry.key, listed := scan.listed + 1, source := after,
        lineNumber := scan.lineNumber + 1 } entries ending := by
  have lines := DumpStream.linesBehind_append scan.listed [entry] entries ending
  have gives := expects.gives
  rw [List.singleton_append] at lines
  rw [lines] at gives
  have decoded := decodeLine_entry entry
  rw [if_pos scannable] at decoded
  obtain ⟨after, read, rest⟩ := readLine_of_gives { scan with current := none } gives
    decoded
  have notAscending : scan.lastKey.any (fun last => decide (entry.key ≤ last)) = false := by
    cases last : scan.lastKey with
    | none => rfl
    | some key =>
      have above := expects.behind key last entry List.mem_cons_self
      simp [above]
  have isInside := expects.inside entry List.mem_cons_self
  obtain ⟨above, ascends⟩ := List.pairwise_cons.mp expects.ascends
  have few := expects.few
  rw [List.length_cons] at few
  refine ⟨after, ?_, rest, ?_, ascends, ?_, ?_⟩
  · simp only [advance, read, acceptEntry, notAscending, Bool.false_eq_true, if_false, isInside,
      if_true]
  · exact fun other member => expects.inside other (List.mem_cons_of_mem _ member)
  · intro last same
    cases same
    exact above
  · dsimp only
    omega

/-- A tombstone with a value fails the scan. -/
theorem advance_refused {entry : Entry} (expects : Expects disk scan (entry :: entries) ending)
    (refused : entry.isScannable = false) :
    (scan.advance disk).fault =
      some (.malformed scan.path (scan.lineNumber + 1) (.line .tombstoneWithValue)) := by
  have lines := DumpStream.linesBehind_append scan.listed [entry] entries ending
  have gives := expects.gives
  rw [List.singleton_append] at lines
  rw [lines] at gives
  have decoded := decodeLine_entry entry
  rw [if_neg (by simp [refused])] at decoded
  cases gives with
  | line read rest => simp [advance, readLine, read, decoded, complaint]

/-- A scan shows its current entry. -/
theorem showing?_eq_current (scan : RawScan) : showing? scan = scan.current := by
  change View.showing? (RawScan.view scan) = scan.current
  unfold RawScan.view
  cases scan.current with
  | none => rfl
  | some entry => exact View.showing?_ofEntry entry

/-- At an entry, moving on is advancing. -/
theorem next_of_current (disk : Disk) {entry : Entry} (current : scan.current = some entry) :
    Cursor.next disk scan = scan.advance disk := by
  change RawScan.next disk scan = _
  simp [RawScan.next, current]

/-- The entries before the first one that a scan refuses. -/
def accepted (entries : List Entry) : List Entry :=
  entries.takeWhile Entry.isScannable

/-- A scan at an entry walks through that one and the accepted ones behind it. It ends without a
fault exactly if there was none in reading and all entries are accepted. -/
theorem walks_of_expects {entry : Entry} (current : scan.current = some entry)
    (expects : Expects disk scan entries ending) :
    ∃ fault?, Walks disk showing? scan (entry :: accepted entries) fault? ∧
      (fault? = none ↔ ending = none ∧ ∀ stored ∈ entries, stored.isScannable = true) := by
  induction entries generalizing scan entry with
  | nil =>
    have here : showing? scan = some entry := (showing?_eq_current scan).trans current
    have moves := next_of_current disk current
    cases ending with
    | none =>
      obtain ⟨after, advances⟩ := advance_over expects
      refine ⟨none, .goesOn here (by rw [moves, advances]; rfl) (.atEnd ?_), by simp⟩
      rw [moves, advances, showing?_eq_current]
      rfl
    | some fault => exact ⟨_, .fails here (by rw [moves]; exact advance_failed expects), by simp⟩
  | cons next later ih =>
    have here : showing? scan = some entry := (showing?_eq_current scan).trans current
    have moves := next_of_current disk current
    cases scannable : next.isScannable with
    | true =>
      obtain ⟨after, advances, onward⟩ := advance_entry expects scannable
      obtain ⟨fault?, walks, ends⟩ := ih rfl onward
      refine ⟨fault?, ?_, ?_⟩
      · rw [accepted, List.takeWhile_cons_of_pos scannable]
        refine .goesOn here (by rw [moves, advances]; rfl) ?_
        rw [moves, advances]
        exact walks
      · rw [ends, List.forall_mem_cons, scannable]
        simp
    | false =>
      have failed := advance_refused expects scannable
      refine ⟨some (.malformed scan.path (scan.lineNumber + 1) (.line .tombstoneWithValue)), ?_, ?_⟩
      · rw [accepted, List.takeWhile_cons_of_neg (by simp [scannable])]
        exact .fails here (by rw [moves]; exact failed)
      · simp [scannable]

/-- What a scan comes to that is advanced for the first time. -/
theorem walks_of_advance (expects : Expects disk scan entries ending) :
    match (scan.advance disk).fault with
    | some _ => ending ≠ none ∨ ∃ entry ∈ entries, entry.isScannable = false
    | none => (scan.advance disk).state.range = scan.range ∧
        ∃ fault?, Walks disk showing? (scan.advance disk).state (accepted entries) fault? ∧
          (fault? = none ↔ ending = none ∧ ∀ stored ∈ entries, stored.isScannable = true) := by
  cases entries with
  | nil =>
    cases ending with
    | none =>
      obtain ⟨after, advances⟩ := advance_over expects
      rw [advances]
      exact ⟨rfl, none, .atEnd ((showing?_eq_current _).trans rfl), by simp⟩
    | some fault =>
      rw [advance_failed expects]
      exact Or.inl (by simp)
  | cons entry later =>
    cases scannable : entry.isScannable with
    | true =>
      obtain ⟨after, advances, onward⟩ := advance_entry expects scannable
      obtain ⟨fault?, walks, ends⟩ := walks_of_expects rfl onward
      rw [advances, accepted, List.takeWhile_cons_of_pos scannable]
      refine ⟨rfl, fault?, walks, ?_⟩
      rw [ends, List.forall_mem_cons, scannable]
      simp
    | false =>
      rw [advance_refused expects scannable]
      exact Or.inr ⟨entry, List.mem_cons_self, scannable⟩

/-- The scan of the dump of a table within a range walks through the accepted entries of the range,
as far as reading its blocks meets them. It cannot be opened only if a block cannot be read or an
entry is refused. -/
theorem walks_of_openPath {host : Host} {path : String} {range : KeyRange} {table : Table}
    {groups : List (List Entry)} (opened : Table.openPath host.disk path = .ok table)
    (holds : table.Holds host.disk groups)
    (reads : table.Reads host.disk range.beforeEnd (table.firstBlock range.lower) entries ending) :
    match openPath host .inProcess path range with
    | .error _ => ending ≠ none ∨
        ∃ entry ∈ entries.filter fun entry => range.contains entry.key, entry.isScannable = false
    | .ok scan => ∃ fault?, Walks host.disk showing? scan
          (accepted (entries.filter fun entry => range.contains entry.key)) fault? ∧
        (fault? = none ↔ ending = none ∧
          ∀ entry ∈ entries.filter fun entry => range.contains entry.key,
            entry.isScannable = true) := by
  have gives := DumpStream.gives_ofTable holds reads
  obtain ⟨after, read, rest⟩ := readLine_of_gives
    (ofSource path (.dump (.ofTable table range)) none) gives (decodeLine_header range)
  have isStored := holds.sublist_of_reads reads
  have expects : Expects host.disk
      { ofSource path (.dump (.ofTable table range)) none with
        source := after, lineNumber := 1, range }
      (entries.filter fun entry => range.contains entry.key) ending := by
    refine ⟨rest, ?_, ?_, by simp [ofSource], ?_⟩
    · exact fun entry member => (List.mem_filter.mp member).2
    · exact (List.Pairwise.sublist isStored holds.ascends).filter _
    · have shorter : (entries.filter fun entry => range.contains entry.key).length ≤
          groups.flatten.length := (List.filter_sublist.trans isStored).length_le
      have few := holds.few
      simp only [ofSource, Nat.zero_add]
      omega
  have walks := walks_of_advance expects
  have headed : readHeader host.disk (ofSource path (.dump (.ofTable table range)) none) =
      .done { ofSource path (.dump (.ofTable table range)) none with
        source := after, lineNumber := 1, range } := by
    rw [readHeader, read]
    rfl
  unfold openPath openAny
  simp only [opened, start, headed, Step.andThen, Step.fault_done, Step.state_done]
  cases outcome : (advance host.disk { ofSource path (.dump (.ofTable table range)) none with
      source := after, lineNumber := 1, range }).fault with
  | some fault =>
    rw [outcome] at walks
    exact walks
  | none =>
    rw [outcome] at walks
    obtain ⟨sameRange, walks⟩ := walks
    simp only [sameRange, if_true]
    exact walks

end RawScan

end SortedTables
