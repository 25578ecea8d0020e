import SortedTables.Proofs.Cursor.Walk
import SortedTables.Proofs.Table.Blocks
import SortedTables.Table.LiveCursor

/-!
# What a cursor over live entries walks through

A cursor over live entries reads all blocks from its place on, so what it has ahead of it is the rest
of its block and what `Table.Reads` gives behind that (`LiveCursor.Ahead`). Settling drops the
tombstones at the front; a block that cannot be read is met only when all entries before it are
tombstones. From this follows what the cursor walks through: the writes ahead of it, then the
fault.
-/

namespace SortedTables

namespace LiveCursor

open Cursor

variable {disk : Disk} {cursor : LiveCursor} {entries : List Entry}
  {ending : Option BlockReadFault}

/-- The entries ahead of a cursor, tombstones included, and the fault behind them. -/
def Ahead (disk : Disk) (cursor : LiveCursor) (entries : List Entry)
    (ending : Option BlockReadFault) : Prop :=
  match cursor.block with
  | none => entries = [] ∧ ending = none
  | some block => ∃ later,
      cursor.table.Reads disk (fun _ => true) (cursor.blockIndex + 1) later ending ∧
        entries = block.rest ++ later

/-- A cursor that rests at the first of the entries ahead of it. Without entries there is no fault
ahead. -/
structure Rests (disk : Disk) (cursor : LiveCursor) (entries : List Entry)
    (ending : Option BlockReadFault) : Prop where
  /-- The entries are ahead. -/
  ahead : Ahead disk cursor entries ending
  /-- The first one is shown. -/
  shows : showing? cursor = entries.head?
  /-- Behind the last block nothing is left to fail. -/
  spent : entries = [] → ending = none

/-- Loading a block does what reading from that block on says. -/
theorem load_of_reads {index : Nat}
    (reads : cursor.table.Reads disk (fun _ => true) index entries ending)
    (place : List Entry → Block.Cursor) :
    (entries = [] ∧ ending = none ∧
      cursor.load disk index place = .done { cursor with blockIndex := index, block := none }) ∨
    (∃ fault, entries = [] ∧ ending = some fault ∧
      cursor.load disk index place =
        .failed { cursor with blockIndex := index } (.read cursor.table.path fault)) ∨
    ∃ group later, entries = group ++ later ∧ cursor.table.readBlock disk index = .ok group ∧
      cursor.table.Reads disk (fun _ => true) (index + 1) later ending ∧
      cursor.load disk index place =
        .done { cursor with blockIndex := index, block := some (place group) } := by
  cases reads with
  | atEnd unwanted =>
    have outside : ¬ index < cursor.table.blockCount := by
      intro inside
      have never := unwanted _ (List.getElem?_eq_getElem inside)
      cases never
    exact Or.inl ⟨rfl, rfl, by simp [load, outside]⟩
  | @fails _ block fault inside _ failed =>
    have bound : index < cursor.table.blockCount := (List.getElem?_eq_some_iff.mp inside).1
    exact Or.inr (Or.inl ⟨fault, rfl, rfl, by simp [load, bound, failed]⟩)
  | @goesOn _ block group later _ inside _ read rest =>
    have bound : index < cursor.table.blockCount := (List.getElem?_eq_some_iff.mp inside).1
    exact Or.inr (Or.inr ⟨group, later, rfl, read, rest, by simp [load, bound, read]⟩)

/-- At a write, a cursor shows it. -/
theorem showing?_of_put {block : Block.Cursor} {entry : Entry} {later : List Entry}
    (place : cursor.block = some block) (rest : block.rest = entry :: later)
    (isPut : entry.isTombstone = false) : showing? cursor = some entry := by
  obtain ⟨key, seq, kind, value⟩ := entry
  cases kind with
  | delete => simp [Entry.isTombstone] at isPut
  | put =>
    change View.showing? (LiveCursor.view cursor) = _
    simp [LiveCursor.view, place, Block.Cursor.isValid, Block.Cursor.key, Block.Cursor.value,
      Block.Cursor.seq, Block.Cursor.current?, Block.Cursor.shown?, rest, View.showing?]

/-- A cursor that shows an entry has a place in a block in front of a write. -/
theorem rest_of_showing? {entry : Entry} (here : showing? cursor = some entry) :
    ∃ block stored later, cursor.block = some block ∧ block.rest = stored :: later := by
  have valid := congrArg View.valid (View.eq_ofEntry here)
  change (LiveCursor.view cursor).valid = true at valid
  unfold LiveCursor.view at valid
  cases place : cursor.block with
  | none => simp [place, View.blank] at valid
  | some block =>
    cases rest : block.rest with
    | nil => simp [place, Block.Cursor.isValid, rest] at valid
    | cons stored later => exact ⟨block, stored, later, rfl, rest⟩

/-- What settling makes of the entries ahead: it drops the tombstones at the front, or meets the fault
behind when there is nothing else. -/
def Settled (disk : Disk) (cursor : LiveCursor) (entries : List Entry)
    (ending : Option BlockReadFault) (step : Step LiveCursor Fault) : Prop :=
  step.state.table = cursor.table ∧
    match step.fault with
    | some fault => entries.dropWhile Entry.isTombstone = [] ∧
        ending.map (Fault.read cursor.table.path) = some fault
    | none => Rests disk step.state (entries.dropWhile Entry.isTombstone) ending

/-- The place in a block that stands at an entry, and those behind it. -/
theorem rest_of_current? {block : Block.Cursor} {entry : Entry}
    (here : block.current? = some entry) : block.rest = entry :: block.next.rest :=
  (List.cons_head?_tail here).symm

/-- Loading the block behind one that is used up leaves the same entries ahead, or meets the fault
when there are none. -/
theorem ahead_of_load {block : Block.Cursor} (place : cursor.block = some block)
    (here : block.current? = none) (ahead : Ahead disk cursor entries ending) :
    (cursor.load disk (cursor.blockIndex + 1) .atFirst).state.table = cursor.table ∧
      match (cursor.load disk (cursor.blockIndex + 1) .atFirst).fault with
      | some fault => entries = [] ∧ ending.map (Fault.read cursor.table.path) = some fault
      | none =>
        Ahead disk (cursor.load disk (cursor.blockIndex + 1) .atFirst).state entries ending := by
  have behind : block.rest = [] := List.head?_eq_none_iff.mp here
  simp only [Ahead, place, behind, List.nil_append] at ahead
  obtain ⟨_, reads, rfl⟩ := ahead
  rcases load_of_reads reads .atFirst with ⟨rfl, rfl, does⟩ | ⟨fault, rfl, rfl, does⟩ |
    ⟨group, later, rfl, _, rest, does⟩
  · rw [does]
    exact ⟨rfl, rfl, rfl⟩
  · rw [does]
    exact ⟨rfl, rfl, rfl⟩
  · rw [does]
    exact ⟨rfl, later, rest, rfl⟩

/-- Settling settles the cursor. -/
theorem settled_settle (disk : Disk) (cursor : LiveCursor) :
    ∀ entries ending, Ahead disk cursor entries ending →
      Settled disk cursor entries ending (cursor.settle disk) := by
  fun_induction settle disk cursor with
  | case1 cursor place =>
    intro entries ending ahead
    have nothing : showing? cursor = none := by
      change View.showing? (LiveCursor.view cursor) = none
      simp [LiveCursor.view, place, View.blank, View.showing?]
    have spent : entries = [] ∧ ending = none := by simpa [Ahead, place] using ahead
    obtain ⟨rfl, rfl⟩ := spent
    exact ⟨rfl, ahead, nothing, fun _ => rfl⟩
  | case2 cursor block place entry here tombstone ih =>
    intro entries ending ahead
    simp only [Ahead, place] at ahead
    obtain ⟨later, reads, rfl⟩ := ahead
    have next : Ahead disk { cursor with block := some block.next } (block.next.rest ++ later)
        ending := ⟨later, reads, rfl⟩
    have settled := ih _ _ next
    rw [rest_of_current? here, List.cons_append, Settled, List.dropWhile_cons_of_pos tombstone]
    exact settled
  | case3 cursor block place entry here live =>
    intro entries ending ahead
    have rest := rest_of_current? here
    have isPut : entry.isTombstone = false := Bool.eq_false_iff.mpr live
    have isAhead := ahead
    simp only [Ahead, place] at isAhead
    obtain ⟨later, reads, rfl⟩ := isAhead
    rw [rest, List.cons_append] at ahead ⊢
    refine ⟨rfl, ?_⟩
    rw [List.dropWhile_cons_of_neg live]
    exact ⟨ahead, showing?_of_put place rest isPut, by simp⟩
  | case4 cursor block place here step loaded ih =>
    intro entries ending ahead
    obtain ⟨sameTable, next⟩ := ahead_of_load place here ahead
    rw [show (cursor.load disk (cursor.blockIndex + 1) .atFirst).fault = none from loaded] at next
    obtain ⟨keepsTable, settled⟩ := ih _ _ next
    rw [show step.state.table = cursor.table from sameTable] at keepsTable settled
    exact ⟨keepsTable, settled⟩
  | case5 cursor block place here step failed =>
    intro entries ending ahead
    obtain ⟨sameTable, next⟩ := ahead_of_load place here ahead
    refine ⟨sameTable, ?_⟩
    cases outcome : step.fault with
    | none => exact absurd outcome failed
    | some fault =>
      rw [show (cursor.load disk (cursor.blockIndex + 1) .atFirst).fault = some fault from outcome]
        at next
      obtain ⟨rfl, isFault⟩ := next
      exact ⟨rfl, isFault⟩

/-- The writes among entries. -/
def writes (entries : List Entry) : List Entry :=
  entries.filter fun entry => !entry.isTombstone

/-- Dropping tombstones at the front loses no write. -/
theorem writes_dropWhile (entries : List Entry) :
    writes (entries.dropWhile Entry.isTombstone) = writes entries := by
  induction entries with
  | nil => rfl
  | cons entry later ih =>
    cases kind : entry.isTombstone with
    | true =>
      rw [List.dropWhile_cons_of_pos kind, ih]
      simp [writes, kind]
    | false => rw [List.dropWhile_cons_of_neg (by simp [kind])]

/-- Entries that are all dropped have no writes among them. -/
theorem writes_eq_nil {entries : List Entry} (dropped : entries.dropWhile Entry.isTombstone = []) :
    writes entries = [] := by
  rw [← writes_dropWhile, dropped]
  rfl

/-- A cursor at rest walks through the writes ahead of it, and ends with the fault behind them. -/
theorem walks_of_rests (rests : Rests disk cursor entries ending) :
    Walks disk showing? cursor (writes entries) (ending.map (.read cursor.table.path)) := by
  induction size : entries.length using Nat.strong_induction_on generalizing cursor entries with
  | _ size ih =>
    cases entries with
    | nil =>
      rw [rests.spent rfl]
      exact .atEnd rests.shows
    | cons entry later =>
      have here : showing? cursor = some entry := rests.shows
      obtain ⟨block, stored, behind, place, rest⟩ := rest_of_showing? here
      have ahead := rests.ahead
      simp only [Ahead, place, rest, List.cons_append, List.cons.injEq] at ahead
      obtain ⟨beyond, reads, rfl, rfl⟩ := ahead
      have isPut : entry.isTombstone = false := by
        have shown : LiveCursor.view cursor = .ofEntry entry := View.eq_ofEntry here
        rw [LiveCursor.view, place] at shown
        exact (congrArg View.tombstone shown).symm
      have moves : Cursor.next disk cursor =
          settle disk { cursor with block := some block.next } := by
        change LiveCursor.next disk cursor = _
        rw [LiveCursor.next, place]
      have next : Ahead disk { cursor with block := some block.next } (behind ++ beyond) ending :=
        ⟨beyond, reads, by simp [Block.Cursor.next, rest]⟩
      obtain ⟨sameTable, settled⟩ := settled_settle disk _ _ _ next
      have isFirst : writes (entry :: (behind ++ beyond)) = entry :: writes (behind ++ beyond) := by
        simp [writes, isPut]
      rw [isFirst]
      cases outcome : (settle disk { cursor with block := some block.next }).fault with
      | some fault =>
        rw [outcome] at settled
        rw [writes_eq_nil settled.1, settled.2]
        exact .fails here (by rw [moves]; exact outcome)
      | none =>
        rw [outcome] at settled
        have fewer := (List.dropWhile_suffix (l := behind ++ beyond) Entry.isTombstone).length_le
        have onward := ih _ (by rw [← size, List.length_cons]; omega) settled rfl
        rw [sameTable, writes_dropWhile] at onward
        exact .goesOn here (by rw [moves]; exact outcome) (by rw [moves]; exact onward)

/-- A cursor that has settled walks through the writes that were ahead, if settling did not fail. -/
theorem walks_of_settled {step : Step LiveCursor Fault}
    (settled : Settled disk cursor entries ending step) :
    match step.fault with
    | some fault => ending.map (Fault.read cursor.table.path) = some fault
    | none => Walks disk showing? step.state (writes entries)
        (ending.map (.read cursor.table.path)) := by
  obtain ⟨sameTable, settled⟩ := settled
  cases outcome : step.fault with
  | some fault =>
    rw [outcome] at settled
    exact settled.2
  | none =>
    rw [outcome] at settled
    rw [← sameTable, ← writes_dropWhile]
    exact walks_of_rests settled

/-- Loading a block and settling settles the entries that reading from that block on gives, as far as
they lie in the chosen place of the block or behind it. -/
theorem settled_of_load (cursor : LiveCursor) {index : Nat} (chosen : Entry → Bool)
    (place : List Entry → Block.Cursor)
    (reads : cursor.table.Reads disk (fun _ => true) index entries ending)
    (places : ∀ group, cursor.table.readBlock disk index = .ok group →
      (place group).rest = group.filter chosen)
    (all : ∀ later ending, cursor.table.Reads disk (fun _ => true) (index + 1) later ending →
      later.filter chosen = later) :
    Settled disk cursor (entries.filter chosen) ending
      ((cursor.load disk index place).andThen (settle disk)) := by
  rcases load_of_reads reads place with ⟨rfl, rfl, does⟩ | ⟨fault, rfl, rfl, does⟩ |
    ⟨group, later, rfl, read, rest, does⟩
  · have spent : Ahead disk { cursor with blockIndex := index, block := none } [] none := ⟨rfl, rfl⟩
    rw [does]
    exact settled_settle disk _ _ _ spent
  · rw [does]
    exact ⟨rfl, rfl, rfl⟩
  · have ahead : Ahead disk { cursor with blockIndex := index, block := some (place group) }
        ((group ++ later).filter chosen) ending := by
      refine ⟨later, rest, ?_⟩
      rw [List.filter_append, places group read, all later ending rest]
    rw [does]
    exact settled_settle disk _ _ _ ahead

/-- Goes to the first live entry that is not below a lower end. -/
def goTo (disk : Disk) (lower : Option Key) (cursor : LiveCursor) : Step LiveCursor Fault :=
  match lower with
  | none => cursor.seekFirst disk
  | some key => cursor.seek disk key

/-- Wherever a cursor over a table stands, going to a lower end settles the entries that are not below
it. -/
theorem settled_goTo {groups : List (List Entry)} {lower : Option Key}
    (holds : cursor.table.Holds disk groups)
    (reads : cursor.table.Reads disk (fun _ => true) (cursor.table.firstBlock lower) entries
      ending) :
    Settled disk cursor (entries.filter fun entry => Key.reaches lower entry.key) ending
      (cursor.goTo disk lower) := by
  cases lower with
  | none =>
    refine settled_of_load cursor (fun _ => true) .atFirst reads (fun group _ => ?_)
      fun _ _ _ => List.filter_eq_self.mpr fun _ _ => rfl
    exact (List.filter_eq_self.mpr fun _ _ => rfl).symm
  | some low =>
    refine settled_of_load cursor (fun entry => Key.reaches (some low) entry.key)
      (fun entries => (Block.Cursor.atFirst entries).seek low) reads (fun group read => ?_)
      fun later ending rest => List.filter_eq_self.mpr fun entry member => ?_
    · have ascends := holds.ascends_of_getElem? (holds.reads _ _ read)
      exact drop_lowerBound low (ascends.imp le_of_lt)
    · have behind := (holds.isPrefix_of_reads rest).subset member
      exact decide_eq_true (le_of_lt ((holds.findBlock_bounds low).2 entry behind))

/-- A cursor is started by going to the lower end. -/
theorem start_of_done {table : Table} {lower : Option Key}
    (fine : ((ofTable table).goTo disk lower).fault = none) :
    start disk table lower = .ok ((ofTable table).goTo disk lower).state := by
  cases lower <;> simp only [goTo] at fine ⊢ <;> simp only [start, fine]

/-- If that fails, there is no cursor. -/
theorem start_of_failed {table : Table} {lower : Option Key} {fault : Fault}
    (failed : ((ofTable table).goTo disk lower).fault = some fault) :
    start disk table lower = .error fault := by
  cases lower <;> simp only [goTo] at failed <;> simp only [start, failed]

/-- A cursor that is started at a lower end walks through the writes that are not below it, and ends
with the fault behind. It cannot be started only if a block cannot be read. -/
theorem walks_of_start {table : Table} {groups : List (List Entry)} {lower : Option Key}
    (holds : table.Holds disk groups)
    (reads : table.Reads disk (fun _ => true) (table.firstBlock lower) entries ending) :
    match start disk table lower with
    | .error fault => ending.map (Fault.read table.path) = some fault
    | .ok cursor => Walks disk showing? cursor
        (writes (entries.filter fun entry => Key.reaches lower entry.key))
        (ending.map (.read table.path)) := by
  have settled : Settled disk (ofTable table) _ ending ((ofTable table).goTo disk lower) :=
    settled_goTo holds reads
  have walks := walks_of_settled settled
  cases outcome : ((ofTable table).goTo disk lower).fault with
  | some fault =>
    rw [outcome] at walks
    rw [start_of_failed outcome]
    exact walks
  | none =>
    rw [outcome] at walks
    rw [start_of_done outcome]
    exact walks

end LiveCursor

end SortedTables
