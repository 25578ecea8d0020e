import SortedTables.Proofs.Order
import SortedTables.Proofs.Unchecked.Walking

/-!
# Seeking in a block

To find a key, a walker halves the entries of a block and goes to each entry that it compares with, so
that it takes records apart all the way and the place where it is at last is its own state. Nothing of
the state before counts, except for what belongs to the block: its records and its first key, from
which later keys are put together (`Unchecked.Walker.Over`). The other fields may be any, also where
no move has left them like that.

`Block.seeks_lowerBound` says where a walker is then, on a block that was accepted and whose keys do not
descend, with keys that may repeat: in front of it are the entries below the key and no others. It goes
on from there through the rest of the block, and so does the cursor over the entries.
-/

namespace SortedTables

namespace Unchecked.Walker

variable {walker after : Walker} {entries : List Entry} {block : Block} {index : Nat}

/-- A walker over a block: the block is its own, and so is the first key. -/
structure Over (walker : Walker) (block : Block) : Prop where
  /-- The walker reads the block. -/
  reads : walker.block = block
  /-- The first key is the one that is read when a walker is made. -/
  firstKey : decodeFirstKey block = some walker.firstKey

/-- A walker stands at an index and shows the entry there. Behind the last entry it shows neither a key
nor a value; sequence number and kind are left open. -/
structure StandsAt (walker : Walker) (entries : List Entry) (place : Nat) : Prop where
  /-- The walker goes on over the entries. -/
  ready : walker.Ready entries
  /-- This is its index. -/
  index : walker.index = place
  /-- All that it shows is from there. -/
  shows : match entries[place]? with
    | some entry => walker.isValid = true ∧ walker.Shows entry
    | none => walker.isValid = false ∧ walker.key = .empty ∧ walker.value? = some []

/-- Going to an index keeps the block and the first key. -/
theorem Over.seekTo (isOver : walker.Over block) (goes : walker.seekTo index = some after) :
    after.Over block := by
  rw [Walker.seekTo] at goes
  split at goes
  · cases goes
    exact ⟨isOver.reads, isOver.firstKey⟩
  -- What is read on the way is found again in the other fields only.
  · simp only [Option.bind_eq_bind, Option.bind_eq_some_iff] at goes
    obtain ⟨_, _, _, _, _, _, _, _, _, _, _, _, _, _, _, _, same⟩ := goes
    cases same
    exact ⟨isOver.reads, isOver.firstKey⟩

/-- Halving keeps the block and the first key. -/
theorem Over.bisect {key : Key} {low high place : Nat} (isOver : walker.Over block)
    (goes : walker.bisect key low high = some (place, after)) : after.Over block := by
  fun_induction Walker.bisect key low high walker with
  | case1 => cases goes
  | case2 => cases goes
  | case3 low high walker inside span isSpan middle reached below ih =>
    exact ih (isOver.seekTo reached) goes
  | case4 low high walker inside span isSpan middle reached notBelow ih =>
    exact ih (isOver.seekTo reached) goes
  | case5 =>
    cases goes
    exact isOver

/-- Seeking keeps the block and the first key. -/
theorem Over.seek {key : Key} (isOver : walker.Over block)
    (goes : walker.seek key = some after) : after.Over block := by
  obtain ⟨⟨place, middle⟩, halves, reached⟩ := Option.bind_eq_some_iff.mp goes
  exact (isOver.bisect halves).seekTo reached

/-- A move keeps the block and the first key. -/
theorem Over.move {move : Move} (isOver : walker.Over block)
    (goes : walker.move move = some after) : after.Over block := by
  cases move with
  | first => exact isOver.seekTo goes
  | next => exact isOver.seekTo goes
  | seek key => exact isOver.seek goes

/-- Any number of moves keep the block and the first key. -/
theorem Over.moves {moves : List Move} (isOver : walker.Over block)
    (goes : moves.foldlM Walker.move walker = some after) : after.Over block := by
  induction moves generalizing walker with
  | nil =>
    cases goes
    exact isOver
  | cons move later ih =>
    obtain ⟨next, steps, goesOn⟩ := Option.bind_eq_some_iff.mp goes
    exact ih (isOver.move steps) goesOn

/-- A walker is made over its block. -/
theorem over_of_ofBlock (makes : ofBlock block = some walker) : walker.Over block := by
  obtain ⟨firstKey, isFirst, same⟩ := Option.bind_eq_some_iff.mp makes
  cases same
  exact ⟨rfl, isFirst⟩

/-- A walker that was made for a block is over it behind any moves. -/
theorem over_of_walk {key? : Option Key} {moves : List Move}
    (walks : walk block key? moves = some walker) : walker.Over block := by
  cases key? with
  | none =>
    obtain ⟨start, starts, goes⟩ := Option.bind_eq_some_iff.mp walks
    obtain ⟨fresh, makes, reached⟩ := Option.bind_eq_some_iff.mp starts
    exact ((over_of_ofBlock makes).seekTo reached).moves goes
  | some key =>
    obtain ⟨start, starts, goes⟩ := Option.bind_eq_some_iff.mp walks
    obtain ⟨fresh, makes, sought⟩ := Option.bind_eq_some_iff.mp starts
    exact ((over_of_ofBlock makes).seek sought).moves goes

/-- A walker over a block that can be read is ready for its entries. -/
theorem Over.ready (isOver : walker.Over block) (reads : block.read = .ok entries) :
    walker.Ready entries := by
  constructor
  · rw [isOver.reads]
    exact reads
  · have known := isOver.firstKey
    rw [decodeFirstKey_eq reads] at known
    exact (Option.some.inj known).symm

/-- Going to an index stands there, whatever the walker has shown before. -/
theorem Ready.exists_seekTo (ready : walker.Ready entries) (index : Nat) :
    ∃ after, walker.seekTo index = some after ∧ after.StandsAt entries index := by
  cases found : entries[index]? with
  | some entry =>
    obtain ⟨after, goes, block, firstKey, isIndex, shows⟩ := Walker.exists_seekTo ready found
    have readyAfter : after.Ready entries := by
      constructor
      · rw [block]
        exact ready.reads
      · rw [firstKey]
        exact ready.firstKey
    have inside := (List.getElem?_eq_some_iff.mp found).1
    refine ⟨after, goes, readyAfter, isIndex, ?_⟩
    rw [found]
    constructor
    · rw [isValid, readyAfter.length, isIndex]
      exact decide_eq_true inside
    · exact shows
  | none =>
    have behind := List.getElem?_eq_none_iff.mp found
    refine ⟨_, seekTo_of_behind ready behind, ⟨ready.reads, ready.firstKey⟩, rfl, ?_⟩
    rw [found]
    refine ⟨?_, rfl, ?_⟩
    · exact decide_eq_false (by rw [ready.length]; exact Nat.not_lt_of_le behind)
    · rw [value?, between?_eq (Nat.le_refl 0) (Nat.zero_le _)]
      rfl

/-- Seeking stands at the place that bisection of the entries finds. -/
theorem Ready.exists_seek (ready : walker.Ready entries) (key : Key) :
    ∃ after, walker.seek key = some after ∧
      after.StandsAt entries (Block.Cursor.lowerBound entries key) := by
  obtain ⟨found, halves, readyFound, -⟩ :=
    exists_bisect key 0 ready (Nat.le_refl entries.length)
  obtain ⟨after, goes, stands⟩ := readyFound.exists_seekTo (Block.Cursor.lowerBound entries key)
  refine ⟨after, ?_, stands⟩
  rw [seek, ready.length, halves]
  exact goes

/-- Going on a number of times stands as many entries further. -/
theorem StandsAt.exists_nexts (stands : walker.StandsAt entries index) (count : Nat) :
    ∃ after, (List.replicate count Move.next).foldlM move walker = some after ∧
      after.StandsAt entries (index + count) := by
  induction count generalizing walker index with
  | zero => exact ⟨walker, rfl, stands⟩
  | succ count ih =>
    obtain ⟨next, goes, standsNext⟩ := stands.ready.exists_seekTo (walker.index + 1)
    rw [stands.index] at standsNext
    obtain ⟨after, goesOn, standsAfter⟩ := ih standsNext
    refine ⟨after, ?_, ?_⟩
    · rw [List.replicate_succ, List.foldlM_cons]
      exact (congrArg (· >>= _) goes).trans goesOn
    · rw [Nat.add_right_comm] at standsAfter
      exact standsAfter

end Unchecked.Walker

namespace Block

open Unchecked

/-- In front of the place that bisection finds are the entries below the key and no others, if the keys do
not descend. -/
theorem lt_lowerBound_iff {entries : List Entry} (key : Key)
    (sorted : entries.Pairwise fun left right => left.key ≤ right.key) {index : Nat} {entry : Entry}
    (found : entries[index]? = some entry) :
    index < Cursor.lowerBound entries key ↔ entry.key < key := by
  have splits := splits_lowerBound key sorted
  have tested : Cursor.standsBefore entries key index = decide (entry.key < key) := by
    rw [Cursor.standsBefore, found]
    rfl
  constructor
  · intro before
    exact of_decide_eq_true (tested.symm.trans (splits.before index before))
  · intro below
    by_contra behind
    have fails := tested.symm.trans (splits.behind index (Nat.le_of_not_lt behind))
    exact of_decide_eq_false fails below

/-- Bisection finds no place behind the entries. -/
theorem lowerBound_le_length {entries : List Entry} (key : Key)
    (sorted : entries.Pairwise fun left right => left.key ≤ right.key) :
    Cursor.lowerBound entries key ≤ entries.length := by
  by_contra behind
  have holds := (splits_lowerBound key sorted).before entries.length (Nat.lt_of_not_le behind)
  rw [Cursor.standsBefore, List.getElem?_eq_none (Nat.le_refl _)] at holds
  cases holds

/-- Let a byte string be accepted as a block whose keys do not descend. For every key there is a place
in front of which are the entries below the key and no others. A walker over the block, whatever moves
it has made and whatever its state is, shows the entry of the block at each index that it goes to. If
it seeks the key it stands at that place, which is the first entry whose key is not below or behind
the last one, and going on from there it stands at the entries that remain, one after the other, and
then behind them. The cursor over the entries does the same. -/
theorem seeks_lowerBound {bytes : Bytes} {block : Block} (accepted : decode bytes = .ok block)
    (sorted : block.entries.Pairwise fun left right => left.key ≤ right.key) (key : Key) :
    ∃ place ≤ block.entries.length,
      (∀ index entry, block.entries[index]? = some entry → (index < place ↔ entry.key < key)) ∧
      (∀ key? moves walker, Walker.walk block key? moves = some walker → walker.Over block) ∧
      (∀ walker : Walker, walker.Over block →
        (∀ index, ∃ after, walker.seekTo index = some after ∧ after.StandsAt block.entries index) ∧
        ∃ after, walker.seek key = some after ∧
          ∀ count, ∃ later, (List.replicate count .next).foldlM Walker.move after = some later ∧
            later.StandsAt block.entries (place + count)) ∧
      ∀ cursor : Cursor, cursor.entries = block.entries → ∀ count,
        (List.replicate count .next).foldl Move.ofCursor (cursor.seek key) =
          ⟨block.entries, block.entries.drop (place + count)⟩ := by
  have reads := read_of_decode accepted
  refine ⟨Cursor.lowerBound block.entries key, lowerBound_le_length key sorted,
    fun _ _ found => lt_lowerBound_iff key sorted found, fun _ _ _ => Walker.over_of_walk, ?_, ?_⟩
  · intro walker isOver
    have ready := isOver.ready reads
    obtain ⟨after, goes, stands⟩ := ready.exists_seek key
    exact ⟨ready.exists_seekTo, after, goes, stands.exists_nexts⟩
  · rintro ⟨_, rest⟩ rfl count
    exact foldl_next _ _ count

/-- Entries of which two have the same key. Keys share bytes with the first one. -/
def twins : List Entry :=
  [⟨⟨[3]⟩, 5, .put, [7]⟩, ⟨⟨[3, 0]⟩, 2, .delete, []⟩, ⟨⟨[3, 0]⟩, 9, .put, [6, 6]⟩, ⟨⟨[4]⟩, 1, .put, []⟩]

/-- A walker over their block in a state that no move leaves: far behind the last entry, with a value that
ends before it starts. -/
def astray : Walker :=
  ⟨ofEntries twins, ⟨[9, 9]⟩, (40, 2), 3, .delete, 77, ⟨[3]⟩⟩

/-- From there the walker finds the first one of the two entries with the same key and goes on to the
second one. Behind the last key it shows nothing. -/
theorem seeks_lowerBound_twins :
    decode (ofEntries twins).encode = .ok (ofEntries twins) ∧
      (∃ found next, astray.seek ⟨[3, 0]⟩ = some found ∧ found.Shows ⟨⟨[3, 0]⟩, 2, .delete, []⟩ ∧
        found.next = some next ∧ next.Shows ⟨⟨[3, 0]⟩, 9, .put, [6, 6]⟩) ∧
      ∃ found, astray.seek ⟨[5]⟩ = some found ∧ found.isValid = false ∧ found.key = .empty ∧
        found.value? = some [] := by
  have accepted : decode (ofEntries twins).encode = .ok (ofEntries twins) := by decide +kernel
  have stored : (ofEntries twins).entries = twins := by decide +kernel
  have sorted : (ofEntries twins).entries.Pairwise fun left right => left.key ≤ right.key := by
    rw [stored]
    decide
  have isOver : astray.Over (ofEntries twins) := ⟨rfl, by decide +kernel⟩
  refine ⟨accepted, ?_, ?_⟩
  · obtain ⟨place, -, splits, -, walks, -⟩ := seeks_lowerBound accepted sorted ⟨[3, 0]⟩
    rw [stored] at splits walks
    obtain ⟨-, found, sought, goesOn⟩ := walks astray isOver
    have first : 0 < place := (splits 0 _ rfl).mpr (by decide)
    have second : ¬ 1 < place := fun before => absurd ((splits 1 _ rfl).mp before) (by decide)
    obtain rfl : place = 1 := by omega
    obtain ⟨_, stays, here⟩ := goesOn 0
    cases stays
    obtain ⟨next, moves, there⟩ := goesOn 1
    obtain ⟨_, steps, same⟩ := Option.bind_eq_some_iff.mp moves
    cases same
    exact ⟨found, next, sought, here.shows.2, steps, there.shows.2⟩
  · obtain ⟨place, bounded, splits, -, walks, -⟩ := seeks_lowerBound accepted sorted ⟨[5]⟩
    rw [stored] at bounded splits walks
    obtain ⟨-, found, sought, goesOn⟩ := walks astray isOver
    have last : 3 < place := (splits 3 _ rfl).mpr (by decide)
    obtain rfl : place = 4 := Nat.le_antisymm bounded last
    obtain ⟨_, stays, here⟩ := goesOn 0
    cases stays
    exact ⟨found, sought, here.shows⟩

end Block

end SortedTables
