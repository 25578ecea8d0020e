import Mathlib.Data.List.TakeWhile
import SortedTables.FileSet
import SortedTables.Proofs.Dump.Scanning
import SortedTables.Proofs.Table.LiveReading

/-!
# What a file of a set gives to a stream

A stream reads of each file the entries between its ends, and of these only the writes if it is a
stream of live keys (`FileSet.selected`). `FileSet.Offers` says how much of them is had from a file of
which some blocks may be unreadable: a front, and all if there is no fault behind it.

Two kinds of obstacles are told apart. What may fail a stream (`FileSet.MayFail`) is any block that
cannot be read, since blocks outside of the range are met on the way to its ends. What must fail it
(`FileSet.MustFail`) is a block that cannot be read and has an entry of the range; there the stream
would otherwise leave out a key. An entry of the range that a scan refuses is an obstacle of both
kinds.
-/

namespace SortedTables

namespace ReadMode

/-- Whether a mode reads an entry. -/
def reads (mode : ReadMode) (entry : Entry) : Bool :=
  match mode with
  | live => !entry.isTombstone
  | withTombstones => true

/-- What is read for live keys are the writes. -/
theorem reads_live (entry : Entry) : reads .live entry = decide (entry.kind = .put) := by
  cases kind : entry.kind <;> simp [reads, Entry.isTombstone, kind]

/-- Whether an entry is accepted where it is read. Only scans refuse any. -/
def accepts (mode : ReadMode) (entry : Entry) : Bool :=
  match mode with
  | live => true
  | withTombstones => entry.isScannable

/-- How files are opened: for dumps made by the library, if tombstones are read. -/
def capability? : ReadMode → Option Capability
  | live => none
  | withTombstones => some .inProcess

end ReadMode

namespace FileSet

open Cursor

variable {disk : Disk} {mode : ReadMode} {lower upper : Option Key} {table : Table}
  {groups : List (List Entry)}

/-- The entries of a file that a stream reads. -/
def selected (mode : ReadMode) (lower upper : Option Key) (entries : List Entry) : List Entry :=
  entries.filter fun entry => Key.isWithin lower upper entry.key && mode.reads entry

/-- What is read of two parts of a file is read of the file. -/
theorem selected_append (early late : List Entry) :
    selected mode lower upper (early ++ late) =
      selected mode lower upper early ++ selected mode lower upper late :=
  List.filter_append ..

/-- Whether some entry between the ends of a stream is refused. -/
def Refuses (mode : ReadMode) (lower upper : Option Key) (entries : List Entry) : Prop :=
  ∃ entry ∈ entries, Key.isWithin lower upper entry.key = true ∧ mode.accepts entry = false

/-- What may keep a stream from reading a table to the end. -/
def MayFail (disk : Disk) (mode : ReadMode) (lower upper : Option Key) (table : Table)
    (groups : List (List Entry)) : Prop :=
  (∃ index, table.IsUnreadable disk index) ∨ Refuses mode lower upper groups.flatten

/-- What keeps a stream from reading a table to the end. -/
def MustFail (disk : Disk) (mode : ReadMode) (lower upper : Option Key) (table : Table)
    (groups : List (List Entry)) : Prop :=
  (∃ index group, groups[index]? = some group ∧ table.IsUnreadable disk index ∧
      ∃ entry ∈ group, Key.isWithin lower upper entry.key = true) ∨
    Refuses mode lower upper groups.flatten

/-- What a stream gets of the entries that it reads of a table, and the fault behind. -/
structure Offers (disk : Disk) (mode : ReadMode) (lower upper : Option Key) (table : Table)
    (groups : List (List Entry)) (part : List Entry) (ending : Option Fault) : Prop where
  /-- Nothing else is had, and nothing is left out between. -/
  isPrefix : part <+: selected mode lower upper groups.flatten
  /-- Without a fault, all is had. -/
  whole : ending = none → part = selected mode lower upper groups.flatten
  /-- Without a fault, nothing was in the way. -/
  passed : ending = none → ¬ MustFail disk mode lower upper table groups
  /-- There is a fault only if something may be in the way. -/
  failed : ending ≠ none → MayFail disk mode lower upper table groups

/-- The upper end of a stream admits the keys below it. -/
theorem admitsBelow_upperBound (upper : Option Key) (key : Key) :
    (upperBound upper).admitsBelow key = Key.staysBelow upper key := by
  cases upper <;> rfl

/-- Cutting ascending entries off at an upper end keeps those below it. -/
theorem takeWhile_eq_filter {entries : List Entry} (ascends : Ascending entries)
    (upper : Option Key) :
    (entries.takeWhile fun entry => Key.staysBelow upper entry.key) =
      entries.filter fun entry => Key.staysBelow upper entry.key := by
  refine (filter_eq_takeWhile ?_).symm
  exact ascends.imp fun below stays => Key.staysBelow_of_le (le_of_lt below) stays

/-- A cursor that stands at the lower end or above is restricted to what is below the upper one. -/
theorem walks_of_create {σ : Type} [Cursor σ] {inner : σ} {seen : List Entry}
    {ending : Option Fault} (walks : Walks disk showing? inner seen ending)
    (ascends : Ascending seen) (above : ∀ entry ∈ seen, Key.reaches lower entry.key = true)
    (upper : Option Key) :
    ∃ bounded, Bounded.create disk inner (lowerBound lower) (upperBound upper) = .done bounded ∧
      Walks disk showing? bounded (seen.filter fun entry => Key.staysBelow upper entry.key)
        (if seen.all fun entry => Key.staysBelow upper entry.key then ending else none) := by
  refine ⟨Bounded.noteEnd ⟨inner, upperBound upper, false⟩, Bounded.create_of_le ?_, ?_⟩
  · cases lower with
    | none => exact Or.inl rfl
    | some low =>
      refine Or.inr ⟨low, rfl, ?_⟩
      intro entry here
      have first := walks.head?_eq.trans here
      have reached := above entry (List.mem_of_mem_head? first)
      simpa [Key.reaches] using reached
  · have bounded := Bounded.walks_noteEnd (upperBound upper) walks
    simp only [admitsBelow_upperBound] at bounded
    rwa [takeWhile_eq_filter ascends] at bounded

/-- A file that can be opened is restricted to the ends of the stream. -/
theorem openSource_eq_ok {host : Host} {capability? : Option Capability} {path : String}
    {source : TableSource} {bounded : Bounded TableSource}
    (opened : openFile host capability? lower upper path = .ok source)
    (creates : Bounded.create host.disk source (lowerBound lower) (upperBound upper) =
      .done bounded) :
    openSource host capability? lower upper path = .ok bounded := by
  simp only [openSource, opened, creates, Step.fault_done, Step.state_done]

/-- A file that cannot be opened gives no source. -/
theorem openSource_eq_error {host : Host} {capability? : Option Capability} {path : String}
    {fault : ReaderFault} (failed : openFile host capability? lower upper path = .error fault) :
    openSource host capability? lower upper path = .error fault := by
  simp only [openSource, failed]

/-- Where reading ended with a fault, or an entry that was met is refused, something may be in the
way. -/
theorem mayFail_of_reads {wanted : Key → Bool} {index : Nat} {entries : List Entry}
    {ending : Option BlockReadFault} (holds : table.Holds disk groups)
    (reads : table.Reads disk wanted index entries ending)
    (hindered : ending ≠ none ∨ Refuses mode lower upper entries) :
    MayFail disk mode lower upper table groups := by
  rcases hindered with unread | ⟨entry, member, refused⟩
  · exact Or.inl (holds.exists_unreadable reads unread)
  · exact Or.inr ⟨entry, (holds.sublist_of_reads reads).subset member, refused⟩

/-- A stream that has met some of the entries of a table, from a block on, gets a front of those that
it reads. What it has met must be all it reads, unless there is a fault. -/
theorem offers_of_reads {wanted : Key → Bool} {index : Nat} {entries part : List Entry}
    {ending : Option BlockReadFault} {fault? : Option Fault} (holds : table.Holds disk groups)
    (reads : table.Reads disk wanted index entries ending)
    (before : ∀ entry ∈ (groups.take index).flatten, Key.isWithin lower upper entry.key = false)
    (wants : ∀ low high, low ≤ high → Key.isWithin lower upper high = true → wanted low = true)
    (isFront : part <+: selected mode lower upper entries)
    (passed : fault? = none → part = selected mode lower upper entries ∧
      (ending = none ∨
        ∃ late ∈ entries, ∀ key, Key.isWithin lower upper key = true → key ≤ late.key) ∧
      ¬ Refuses mode lower upper entries)
    (failed : fault? ≠ none → ending ≠ none ∨ Refuses mode lower upper entries) :
    Offers disk mode lower upper table groups part fault? := by
  have early : selected mode lower upper (groups.take index).flatten = [] := by
    refine List.filter_eq_nil_iff.mpr fun entry member => ?_
    simp [before entry member]
  have isPrefix : selected mode lower upper entries <+: selected mode lower upper groups.flatten := by
    have split : selected mode lower upper groups.flatten =
        selected mode lower upper (groups.drop index).flatten := by
      conv_lhs => rw [← List.take_append_drop index groups, List.flatten_append]
      rw [selected_append, early, List.nil_append]
    rw [split]
    exact (holds.isPrefix_of_reads reads).filter _
  have covered (ended : fault? = none) :=
    holds.covers reads before wants (passed ended).2.1
  refine ⟨isFront.trans isPrefix, ?_, ?_,
    fun isFault => mayFail_of_reads holds reads (failed isFault)⟩
  · intro ended
    have same := congrArg (List.filter mode.reads) (covered ended).1
    rw [List.filter_filter, List.filter_filter] at same
    rw [(passed ended).1]
    simpa only [selected, Bool.and_comm] using same
  · rintro ended (⟨place, group, isGroup, ⟨_, fault, unread⟩, inRange⟩ | refused)
    · obtain ⟨read, isRead⟩ := (covered ended).2 place group isGroup inRange
      cases isRead.symm.trans unread
    · obtain ⟨entry, stored, within, rejected⟩ := refused
      have isIn : entry ∈ groups.flatten.filter fun entry => Key.isWithin lower upper entry.key :=
        List.mem_filter.mpr ⟨stored, within⟩
      rw [← (covered ended).1] at isIn
      exact (passed ended).2.2 ⟨entry, (List.mem_filter.mp isIn).1, within, rejected⟩

/-- A stream of live keys gets of a table a front of the writes between its ends. It cannot open the
table only if a block cannot be read. -/
theorem offers_of_openLive {host : Host} {path : String}
    (opened : Table.openPath host.disk path = .ok table) (holds : table.Holds host.disk groups)
    (lower upper : Option Key) :
    match openSource host none lower upper path with
    | .error _ => MayFail host.disk .live lower upper table groups
    | .ok source => ∃ part ending, Walks host.disk showing? source part ending ∧
        Offers host.disk .live lower upper table groups part ending := by
  obtain ⟨entries, ending, reads⟩ :=
    table.exists_reads host.disk (fun _ => true) (table.firstBlock lower)
  have walks := LiveCursor.walks_of_start holds reads
  cases starts : LiveCursor.start host.disk table lower with
  | error fault =>
    have failed : openFile host none lower upper path =
        .error (.fileOpen path (.position fault)) := by
      simp only [openFile, TableSource.openLive, opened, starts]
    rw [starts] at walks
    rw [openSource_eq_error failed]
    exact mayFail_of_reads holds reads (Or.inl fun none => by simp [none] at walks)
  | ok cursor =>
    have isOpened : openFile host none lower upper path = .ok (.live cursor) := by
      simp only [openFile, TableSource.openLive, opened, starts]
    rw [starts] at walks
    let shown := LiveCursor.writes (entries.filter fun entry => Key.reaches lower entry.key)
    have ascends : Ascending shown :=
      ((List.Pairwise.sublist (holds.sublist_of_reads reads) holds.ascends).filter _).filter _
    have isShown (entry : Entry) : entry ∈ shown ↔
        (entry ∈ entries ∧ Key.reaches lower entry.key = true) ∧ entry.isTombstone = false := by
      simp only [shown, LiveCursor.writes, List.mem_filter, Bool.not_eq_true']
    obtain ⟨bounded, creates, source⟩ := walks_of_create
      (walks.lift TableSource.live showing? (fun _ => rfl) fun _ => rfl)
      ascends (fun entry member => ((isShown entry).mp member).1.2) upper
    have isPart : (shown.filter fun entry => Key.staysBelow upper entry.key) =
        selected .live lower upper entries := by
      simp only [shown, LiveCursor.writes, selected, List.filter_filter, ReadMode.reads,
        Key.isWithin]
      congr 1
      funext entry
      ac_rfl
    rw [openSource_eq_ok isOpened creates]
    refine ⟨_, _, source, offers_of_reads holds reads ?_ (fun _ _ _ _ => rfl)
      (isPart ▸ List.prefix_rfl) ?_ ?_⟩
    · intro entry early
      rw [Key.isWithin, holds.reaches_of_take lower entry early, Bool.false_and]
    · intro ended
      refine ⟨isPart, ?_, ?_⟩
      · split at ended
        · exact Or.inl (Option.map_eq_none_iff.mp ended)
        · next admitted =>
          rw [Bool.not_eq_true, List.all_eq_false] at admitted
          obtain ⟨late, member, behind⟩ := admitted
          refine Or.inr ⟨late, ((isShown late).mp member).1.1, ?_⟩
          intro key within
          by_contra above
          rw [Key.isWithin, Bool.and_eq_true] at within
          exact behind (Key.staysBelow_of_le (le_of_lt (not_le.mp above)) within.2)
      · rintro ⟨_, _, _, refused⟩
        cases refused
    · intro failed
      refine Or.inl fun none => failed ?_
      rw [none]
      split <;> rfl

/-- The entries of a range are what a stream with tombstones reads between the same ends. -/
theorem filter_contains_eq_selected (lower upper : Option Key) (entries : List Entry) :
    (entries.filter fun entry => (KeyRange.between lower upper).contains entry.key) =
      selected .withTombstones lower upper entries := by
  simp only [selected, ReadMode.reads, Bool.and_true, KeyRange.contains_between]

/-- A stream with tombstones refuses the entries that a scan does not accept. -/
theorem refuses_withTombstones_iff {entries : List Entry} :
    Refuses .withTombstones lower upper entries ↔
      ∃ entry ∈ selected .withTombstones lower upper entries, entry.isScannable = false := by
  simp only [Refuses, ReadMode.accepts, selected, ReadMode.reads, Bool.and_true, List.mem_filter,
    and_assoc]

/-- A stream with tombstones gets of a table a front of the entries between its ends. It cannot open
the table only if a block cannot be read or an entry between the ends is refused. -/
theorem offers_of_openRaw {host : Host} {path : String}
    (opened : Table.openPath host.disk path = .ok table) (holds : table.Holds host.disk groups)
    (lower upper : Option Key) :
    match openSource host (some .inProcess) lower upper path with
    | .error _ => MayFail host.disk .withTombstones lower upper table groups
    | .ok source => ∃ part ending, Walks host.disk showing? source part ending ∧
        Offers host.disk .withTombstones lower upper table groups part ending := by
  let range := KeyRange.between lower upper
  obtain ⟨entries, ending, reads⟩ :=
    table.exists_reads host.disk range.beforeEnd (table.firstBlock range.lower)
  let shown := selected .withTombstones lower upper entries
  have isRange : (entries.filter fun entry => range.contains entry.key) = shown :=
    filter_contains_eq_selected lower upper entries
  have walks := RawScan.walks_of_openPath opened holds reads
  rw [isRange, ← refuses_withTombstones_iff] at walks
  have opensFile : openFile host (some .inProcess) lower upper path =
      (RawScan.openPath host .inProcess path range).map .raw := rfl
  cases opens : RawScan.openPath host .inProcess path range with
  | error fault =>
    rw [opens] at walks opensFile
    rw [openSource_eq_error opensFile]
    exact mayFail_of_reads holds reads walks
  | ok scan =>
    rw [opens] at walks opensFile
    obtain ⟨fault?, walks, ends⟩ := walks
    have isFront : RawScan.accepted shown <+: shown := List.takeWhile_prefix _
    have within (entry : Entry) (member : entry ∈ RawScan.accepted shown) :
        Key.reaches lower entry.key = true ∧ Key.staysBelow upper entry.key = true := by
      have chosen := (List.mem_filter.mp (isFront.subset member)).2
      simpa only [Key.isWithin, ReadMode.reads, Bool.and_true, Bool.and_eq_true] using chosen
    have ascends : Ascending (RawScan.accepted shown) :=
      List.Pairwise.sublist
        ((isFront.sublist.trans List.filter_sublist).trans (holds.sublist_of_reads reads))
        holds.ascends
    obtain ⟨bounded, creates, source⟩ := walks_of_create
      (walks.lift TableSource.raw showing? (fun _ => rfl) fun _ => rfl)
      ascends (fun entry member => (within entry member).1) upper
    rw [List.filter_eq_self.mpr fun entry member => (within entry member).2,
      if_pos (List.all_eq_true.mpr fun entry member => (within entry member).2)] at source
    rw [openSource_eq_ok opensFile creates]
    refine ⟨_, _, source, offers_of_reads holds reads ?_ ?_ isFront ?_ ?_⟩
    · intro entry early
      rw [← KeyRange.contains_between]
      exact KeyRange.contains_of_not_reaches (holds.reaches_of_take _ entry early)
    · intro low high ordered isIn
      rw [← KeyRange.contains_between, KeyRange.contains, Bool.and_eq_true] at isIn
      exact KeyRange.beforeEnd_of_le ordered isIn.2
    · intro ended
      obtain ⟨isRead, scannable⟩ := ends.mp ended
      refine ⟨List.takeWhile_eq_self_iff.mpr scannable, Or.inl isRead, ?_⟩
      intro refused
      obtain ⟨entry, member, rejected⟩ := refuses_withTombstones_iff.mp refused
      cases (scannable entry member).symm.trans rejected
    · intro failed
      by_contra fine
      rw [not_or, not_not, refuses_withTombstones_iff] at fine
      apply failed
      rw [ends]
      refine ⟨fine.1, ?_⟩
      intro entry member
      by_contra rejected
      exact fine.2 ⟨entry, member, Bool.not_eq_true _ ▸ rejected⟩

/-- A stream gets of a table a front of what it reads. Something must be in the way if it cannot open
the table. -/
theorem offers_of_openSource {host : Host} {path : String}
    (opened : Table.openPath host.disk path = .ok table) (holds : table.Holds host.disk groups)
    (mode : ReadMode) (lower upper : Option Key) :
    match openSource host mode.capability? lower upper path with
    | .error _ => MayFail host.disk mode lower upper table groups
    | .ok source => ∃ part ending, Walks host.disk showing? source part ending ∧
        Offers host.disk mode lower upper table groups part ending := by
  cases mode with
  | live => exact offers_of_openLive opened holds lower upper
  | withTombstones => exact offers_of_openRaw opened holds lower upper

end FileSet

end SortedTables
