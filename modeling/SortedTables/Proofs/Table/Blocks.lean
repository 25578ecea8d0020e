import SortedTables.Dump.Stream
import SortedTables.Proofs.Table.Reading

/-!
# Reading the blocks of a table in order

A table is read from a block on, one block after the other, up to the first block that is not wanted
or cannot be read. Blocks are wanted for their first key, as the index states it. `Table.Reads` gives
the entries met on the way and the fault at the end. Under `Table.Holds` they are a front of the
entries from that block on, and it is known what is missing: with no fault, or once an entry behind
a range was met, nothing of the range (`Table.Holds.covers`).

Reading for a lower bound starts with the block that the index names for it. No entry before that
block reaches the bound, and all entries behind it are above (`Table.Holds.findBlock_bounds`).
-/

namespace SortedTables

namespace Table

/-- Reading the blocks of a table from one on, as long as they are wanted: the entries in them, and
why reading ended if a block could not be read. -/
inductive Reads (table : Table) (disk : Disk) (wanted : Key → Bool) :
    Nat → List Entry → Option BlockReadFault → Prop where
  | atEnd {index : Nat}
      (unwanted : ∀ block, table.blocks[index]? = some block → wanted block.firstKey = false) :
      Reads table disk wanted index [] none
  | fails {index : Nat} {block : BlockMeta} {fault : BlockReadFault}
      (inside : table.blocks[index]? = some block) (isWanted : wanted block.firstKey = true)
      (failed : table.readBlock disk index = .error fault) :
      Reads table disk wanted index [] (some fault)
  | goesOn {index : Nat} {block : BlockMeta} {entries later : List Entry}
      {ending : Option BlockReadFault} (inside : table.blocks[index]? = some block)
      (isWanted : wanted block.firstKey = true) (read : table.readBlock disk index = .ok entries)
      (rest : Reads table disk wanted (index + 1) later ending) :
      Reads table disk wanted index (entries ++ later) ending

/-- Reading ends, since there are only so many blocks. -/
theorem exists_reads (table : Table) (disk : Disk) (wanted : Key → Bool) (index : Nat) :
    ∃ entries ending, table.Reads disk wanted index entries ending := by
  cases inside : table.blocks[index]? with
  | none => exact ⟨[], none, .atEnd (by simp [inside])⟩
  | some block =>
    cases isWanted : wanted block.firstKey with
    | false =>
      refine ⟨[], none, .atEnd ?_⟩
      intro other same
      cases inside.symm.trans same
      exact isWanted
    | true =>
      cases read : table.readBlock disk index with
      | error fault => exact ⟨[], some fault, .fails inside isWanted read⟩
      | ok group =>
        have bound := (List.getElem?_eq_some_iff.mp inside).1
        obtain ⟨later, ending, rest⟩ := exists_reads table disk wanted (index + 1)
        exact ⟨group ++ later, ending, .goesOn inside isWanted read rest⟩
termination_by table.blocks.length - index

/-- Whether a table has a block at a place, but it cannot be read. -/
def IsUnreadable (table : Table) (disk : Disk) (index : Nat) : Prop :=
  index < table.blockCount ∧ ∃ fault, table.readBlock disk index = .error fault

/-- The block that reading starts with for a lower end. -/
def firstBlock (table : Table) (lower : Option Key) : Nat :=
  lower.elim 0 table.findBlock

namespace Holds

variable {table : Table} {disk : Disk} {groups : List (List Entry)} {wanted : Key → Bool}

/-- A table has as many blocks as it holds. -/
theorem length_blocks (holds : table.Holds disk groups) : table.blocks.length = groups.length := by
  have lengths := congrArg List.length holds.firstKeys
  rwa [List.length_map, List.length_map] at lengths

/-- Keys ascend in each block. -/
theorem ascends_of_getElem? (holds : table.Holds disk groups) {index : Nat} {group : List Entry}
    (found : groups[index]? = some group) : Ascending group :=
  List.Pairwise.sublist (List.sublist_flatten_of_mem (List.mem_of_getElem? found)) holds.ascends

/-- Entries before a block have smaller keys than those from it on. -/
theorem lt_of_take_of_drop (holds : table.Holds disk groups) (index : Nat) :
    ∀ early ∈ (groups.take index).flatten, ∀ late ∈ (groups.drop index).flatten,
      early.key < late.key := by
  have ascends := holds.ascends
  rw [← List.take_append_drop index groups, List.flatten_append] at ascends
  exact (List.pairwise_append.mp ascends).2.2

/-- The first key in the index is that of an entry of the block, and no entry from the block on has
a smaller one. -/
theorem firstKey_spec (holds : table.Holds disk groups) {index : Nat} {block : BlockMeta}
    (inside : table.blocks[index]? = some block) :
    ∃ first ∈ (groups.drop index).flatten, first.key = block.firstKey ∧
      ∀ entry ∈ (groups.drop index).flatten, block.firstKey ≤ entry.key := by
  have bound := (List.getElem?_eq_some_iff.mp inside).1
  rw [holds.length_blocks] at bound
  have keys := congrArg (fun keys => keys[index]?) holds.firstKeys
  rw [List.getElem?_map, List.getElem?_map, inside, List.getElem?_eq_getElem bound] at keys
  obtain ⟨first, later, isGroup⟩ := List.exists_cons_of_ne_nil
    (holds.nonempty _ (List.getElem_mem bound))
  have firstKey : block.firstKey = first.key := by simpa [isGroup] using keys
  have dropped : (groups.drop index).flatten =
      first :: (later ++ (groups.drop (index + 1)).flatten) := by
    rw [List.drop_eq_getElem_cons bound, isGroup]
    rfl
  have ascends := holds.ascends
  rw [← List.take_append_drop index groups, List.flatten_append] at ascends
  have behind := (List.pairwise_append.mp ascends).2.1
  rw [dropped] at behind ⊢
  refine ⟨first, List.mem_cons_self, firstKey.symm, ?_⟩
  intro entry member
  rw [firstKey]
  rcases List.mem_cons.mp member with rfl | member
  · exact le_refl _
  · exact le_of_lt ((List.pairwise_cons.mp behind).1 entry member)

/-- Entries before a block have smaller keys than its first one. -/
theorem lt_firstKey (holds : table.Holds disk groups) {index : Nat} {block : BlockMeta}
    (inside : table.blocks[index]? = some block) :
    ∀ entry ∈ (groups.take index).flatten, entry.key < block.firstKey := by
  intro entry early
  obtain ⟨first, late, same, _⟩ := holds.firstKey_spec inside
  rw [← same]
  exact holds.lt_of_take_of_drop index entry early first late

/-- The index is sorted by first keys. -/
theorem sorted (holds : table.Holds disk groups) :
    table.blocks.Pairwise fun left right => left.firstKey ≤ right.firstKey := by
  apply List.pairwise_iff_getElem.mpr
  intro left right leftInside rightInside before
  have isLeft := List.getElem?_eq_getElem leftInside
  have isRight := List.getElem?_eq_getElem rightInside
  obtain ⟨_, _, _, low⟩ := holds.firstKey_spec isLeft
  obtain ⟨first, late, same, _⟩ := holds.firstKey_spec isRight
  rw [← same]
  apply low
  have split := List.drop_drop (i := right - left) (j := left) (l := groups)
  rw [Nat.add_sub_cancel' (Nat.le_of_lt before)] at split
  rw [← split] at late
  rw [← List.take_append_drop (right - left) (groups.drop left), List.flatten_append]
  exact List.mem_append_right _ late

/-- Before the block that the index names for a key there are smaller keys only, and larger ones only
behind it. -/
theorem findBlock_bounds (holds : table.Holds disk groups) (lower : Key) :
    (∀ entry ∈ (groups.take (table.findBlock lower)).flatten, entry.key < lower) ∧
      ∀ entry ∈ (groups.drop (table.findBlock lower + 1)).flatten, lower < entry.key := by
  obtain ⟨behind, before⟩ := findBlock_spec lower holds.sorted
  constructor
  · intro entry early
    rcases Nat.eq_zero_or_pos (table.findBlock lower) with first | positive
    · rw [first] at early
      cases early
    · obtain ⟨block, inside, bound⟩ := before positive
      exact lt_of_lt_of_le (holds.lt_firstKey inside entry early) bound
  · intro entry late
    cases inside : table.blocks[table.findBlock lower + 1]? with
    | none =>
      rw [List.getElem?_eq_none_iff, holds.length_blocks] at inside
      rw [List.drop_eq_nil_of_le inside] at late
      cases late
    | some block =>
      obtain ⟨_, _, _, low⟩ := holds.firstKey_spec inside
      exact lt_of_lt_of_le (behind _ block (Nat.lt_succ_self _) inside) (low entry late)

/-- Before the block that reading starts with, nothing reaches the lower end. -/
theorem reaches_of_take (holds : table.Holds disk groups) (lower : Option Key) :
    ∀ entry ∈ (groups.take (table.firstBlock lower)).flatten,
      Key.reaches lower entry.key = false := by
  intro entry early
  cases lower with
  | none => cases early
  | some low =>
    have below := (holds.findBlock_bounds low).1 entry early
    simpa [Key.reaches] using below

/-- What reading from a block on has met: the entries of a number of blocks, all of which can be read.
Behind them stands a block that is not wanted, or one that cannot be read, or none. -/
theorem spec_of_reads (holds : table.Holds disk groups) {index : Nat} {entries : List Entry}
    {ending : Option BlockReadFault} (reads : table.Reads disk wanted index entries ending) :
    ∃ count, entries = ((groups.drop index).take count).flatten ∧
      (∀ place, index ≤ place → place < index + count →
        ∃ group, table.readBlock disk place = .ok group) ∧
      (ending = none → ∀ block, table.blocks[index + count]? = some block →
        wanted block.firstKey = false) ∧
      ∀ fault, ending = some fault → table.readBlock disk (index + count) = .error fault ∧
        ∃ block, table.blocks[index + count]? = some block ∧ wanted block.firstKey = true := by
  induction reads with
  | atEnd unwanted =>
    refine ⟨0, by simp, ?_, fun _ => unwanted, by simp⟩
    intro place from_ before
    omega
  | fails inside isWanted failed =>
    refine ⟨0, by simp, ?_, by simp, ?_⟩
    · intro place from_ before
      omega
    · intro fault same
      cases same
      exact ⟨failed, _, inside, isWanted⟩
  | @goesOn index block group later ending inside isWanted read rest ih =>
    obtain ⟨count, isLater, readable, spent, failed⟩ := ih
    have stored := holds.reads index group read
    obtain ⟨bound, isGroup⟩ := List.getElem?_eq_some_iff.mp stored
    rw [Nat.add_right_comm, Nat.add_assoc] at spent failed
    refine ⟨count + 1, ?_, ?_, spent, failed⟩
    · rw [List.drop_eq_getElem_cons bound, isGroup, List.take_succ_cons, List.flatten_cons, isLater]
    · intro place from_ before
      rcases Nat.eq_or_lt_of_le from_ with rfl | behind
      · exact ⟨group, read⟩
      · exact readable place behind (by omega)

/-- What reading meets is a front of what is stored from the block on. -/
theorem isPrefix_of_reads (holds : table.Holds disk groups) {index : Nat} {entries : List Entry}
    {ending : Option BlockReadFault} (reads : table.Reads disk wanted index entries ending) :
    entries <+: (groups.drop index).flatten := by
  obtain ⟨count, rfl, _⟩ := holds.spec_of_reads reads
  refine ⟨((groups.drop index).drop count).flatten, ?_⟩
  rw [← List.flatten_append, List.take_append_drop]

/-- Where reading ends with a fault, there is a block that cannot be read. -/
theorem exists_unreadable (holds : table.Holds disk groups) {index : Nat} {entries : List Entry}
    {ending : Option BlockReadFault} (reads : table.Reads disk wanted index entries ending)
    (failed : ending ≠ none) : ∃ place, table.IsUnreadable disk place := by
  obtain ⟨fault, isFault⟩ := Option.ne_none_iff_exists'.mp failed
  obtain ⟨count, _, _, _, fails⟩ := holds.spec_of_reads reads
  obtain ⟨unread, block, inside, _⟩ := fails fault isFault
  exact ⟨_, (List.getElem?_eq_some_iff.mp inside).1, fault, unread⟩

/-- Where every block can be read, reading does not end with a fault. -/
theorem eq_none_of_readable (holds : table.Holds disk groups) (readable : table.Readable disk)
    {index : Nat} {entries : List Entry} {ending : Option BlockReadFault}
    (reads : table.Reads disk wanted index entries ending) : ending = none := by
  by_contra failed
  obtain ⟨place, inside, fault, unread⟩ := holds.exists_unreadable reads failed
  obtain ⟨group, isRead⟩ := readable place inside
  cases isRead.symm.trans unread

/-- What reading meets is stored, in that order. -/
theorem sublist_of_reads (holds : table.Holds disk groups) {index : Nat} {entries : List Entry}
    {ending : Option BlockReadFault} (reads : table.Reads disk wanted index entries ending) :
    entries.Sublist groups.flatten := by
  have behind : (groups.drop index).flatten <:+ groups.flatten := by
    refine ⟨(groups.take index).flatten, ?_⟩
    rw [← List.flatten_append, List.take_append_drop]
  exact (holds.isPrefix_of_reads reads).sublist.trans behind.sublist

/-- Where reading stopped at a block that is not wanted, or behind an entry above all keys of a range,
nothing of the range is left. -/
theorem outside_of_drop (holds : table.Holds disk groups) {index place : Nat} {entries : List Entry}
    {inRange : Key → Bool}
    (split : (groups.drop index).flatten = entries ++ (groups.drop place).flatten)
    (wants : ∀ low high, low ≤ high → inRange high = true → wanted low = true)
    (passed : (∀ block, table.blocks[place]? = some block → wanted block.firstKey = false) ∨
      ∃ late ∈ entries, ∀ key, inRange key = true → key ≤ late.key) :
    ∀ entry ∈ (groups.drop place).flatten, inRange entry.key = false := by
  intro entry member
  by_contra isIn
  rw [Bool.not_eq_false] at isIn
  rcases passed with unwanted | ⟨late, met, bound⟩
  · cases inside : table.blocks[place]? with
    | none =>
      rw [List.getElem?_eq_none_iff, holds.length_blocks] at inside
      rw [List.drop_eq_nil_of_le inside] at member
      cases member
    | some block =>
      obtain ⟨_, _, _, low⟩ := holds.firstKey_spec inside
      have isWanted := wants _ _ (low entry member) isIn
      rw [unwanted block inside] at isWanted
      cases isWanted
  · have ascends := holds.ascends
    rw [← List.take_append_drop index groups, List.flatten_append, split] at ascends
    have following := (List.pairwise_append.mp ascends).2.1
    have above := (List.pairwise_append.mp following).2.2 late met entry member
    exact absurd above (not_lt_of_ge (bound entry.key isIn))

/-- A block with an entry that passes a test lies between two places, if no entry does before the one
and from the other one on. -/
theorem place_bounds {first stop place : Nat} {group : List Entry} {entry : Entry}
    {test : Entry → Bool} (before : ∀ entry ∈ (groups.take first).flatten, test entry = false)
    (behind : ∀ entry ∈ (groups.drop stop).flatten, test entry = false)
    (isGroup : groups[place]? = some group) (member : entry ∈ group) (passes : test entry = true) :
    first ≤ place ∧ place < stop := by
  have absurdIn {some : List (List Entry)} (outside : ∀ entry ∈ some.flatten, test entry = false)
      (isSome : group ∈ some) : False := by
    have failed := outside entry (List.mem_flatten.mpr ⟨group, isSome, member⟩)
    rw [passes] at failed
    cases failed
  constructor
  · by_contra early
    refine absurdIn before (List.mem_iff_getElem?.mpr ⟨place, ?_⟩)
    rw [List.getElem?_take_of_lt (Nat.lt_of_not_le early), isGroup]
  · by_contra late
    refine absurdIn behind (List.mem_iff_getElem?.mpr ⟨place - stop, ?_⟩)
    rw [List.getElem?_drop, Nat.add_sub_cancel' (Nat.le_of_not_lt late), isGroup]

/-- Reading that ended without a fault, or met an entry behind all keys of a range, has met all
entries of the range, and all blocks with such entries can be read. Reading must have started before
the range, and blocks that may have keys of the range must be wanted. -/
theorem covers (holds : table.Holds disk groups) {index : Nat} {entries : List Entry}
    {ending : Option BlockReadFault} (reads : table.Reads disk wanted index entries ending)
    {inRange : Key → Bool}
    (before : ∀ entry ∈ (groups.take index).flatten, inRange entry.key = false)
    (wants : ∀ low high, low ≤ high → inRange high = true → wanted low = true)
    (passed : ending = none ∨ ∃ late ∈ entries, ∀ key, inRange key = true → key ≤ late.key) :
    (entries.filter fun entry => inRange entry.key) =
        (groups.flatten.filter fun entry => inRange entry.key) ∧
      ∀ place group, groups[place]? = some group → (∃ entry ∈ group, inRange entry.key = true) →
        ∃ read, table.readBlock disk place = .ok read := by
  obtain ⟨count, isRead, readable, spent, _⟩ := holds.spec_of_reads reads
  have split : (groups.drop index).flatten = entries ++ (groups.drop (index + count)).flatten := by
    rw [isRead, ← List.drop_drop, ← List.flatten_append, List.take_append_drop]
  have behind := holds.outside_of_drop split wants (passed.imp_left spent)
  constructor
  · have whole : groups.flatten = (groups.take index).flatten ++
        (entries ++ (groups.drop (index + count)).flatten) := by
      rw [← split, ← List.flatten_append, List.take_append_drop]
    have none (others : List Entry) (outside : ∀ entry ∈ others, inRange entry.key = false) :
        (others.filter fun entry => inRange entry.key) = [] :=
      List.filter_eq_nil_iff.mpr fun entry member => by simp [outside entry member]
    rw [whole, List.filter_append, List.filter_append, none _ before, none _ behind,
      List.nil_append, List.append_nil]
  · rintro place group isGroup ⟨entry, member, isIn⟩
    obtain ⟨notBefore, notBehind⟩ := place_bounds before behind isGroup member isIn
    exact readable place notBefore notBehind

end Holds

end Table

end SortedTables
