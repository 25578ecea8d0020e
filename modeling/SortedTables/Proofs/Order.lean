import Mathlib.Data.List.Sort
import SortedTables.Block.Cursor
import SortedTables.Table.Index

/-!
# Ascending entries and the searches that rely on them

Keys are linearly ordered, and the entries of a file ascend strictly. Two searches are built on
that: bisection inside a block, and the search of the index for the block that may hold a key. Both
find a place that splits the numbers into those a test holds of and the others; for ascending
entries such a place turns dropping a prefix into filtering by key.
-/

namespace SortedTables

namespace Key

/-- Dictionary order is linear. The order relations are the executable ones. -/
instance : LinearOrder Key where
  toLT := inferInstance
  toLE := inferInstance
  le_refl key := lt_irrefl key
  le_trans first second third left right := by
    intro after
    rcases lt_trichotomy second third with before | rfl | behind
    · exact left (lt_trans before after)
    · exact left after
    · exact right behind
  lt_iff_le_not_ge left right := by
    constructor
    · intro before
      exact ⟨fun after => lt_irrefl left (lt_trans before after), fun above => above before⟩
    · rintro ⟨_, above⟩
      exact Classical.not_not.mp above
  le_antisymm left right low high := by
    rcases lt_trichotomy left right with before | same | after
    · exact absurd before high
    · exact same
    · exact absurd after low
  le_total left right := by
    by_cases before : right < left
    · exact Or.inr fun after => lt_irrefl left (lt_trans after before)
    · exact Or.inl before
  toDecidableLE := inferInstance
  toDecidableLT := inferInstance
  toDecidableEq := inferInstance

/-- No key stands before the empty one. -/
theorem empty_le (key : Key) : empty ≤ key := by
  change ¬ precedes key.bytes [] = true
  cases key.bytes <;> simp [precedes]

/-- Whether a key is not below a lower end, if there is one. -/
def reaches (lower : Option Key) (key : Key) : Bool :=
  lower.all fun low => decide (low ≤ key)

/-- Whether a key is below an upper end, if there is one. -/
def staysBelow (upper : Option Key) (key : Key) : Bool :=
  upper.all fun high => decide (key < high)

/-- Whether a key lies between two ends: at the lower one or above, and below the upper one. -/
def isWithin (lower upper : Option Key) (key : Key) : Bool :=
  reaches lower key && staysBelow upper key

/-- Smaller keys than one below an upper end are below it. -/
theorem staysBelow_of_le {upper : Option Key} {low high : Key} (ordered : low ≤ high)
    (below : staysBelow upper high = true) : staysBelow upper low = true := by
  cases upper with
  | none => rfl
  | some bound =>
    simp only [staysBelow, Option.all_some, decide_eq_true_eq] at below ⊢
    exact lt_of_le_of_lt ordered below

end Key

/-- Entries whose keys ascend strictly, so that no key occurs twice. -/
def Ascending (entries : List Entry) : Prop :=
  entries.Pairwise fun left right => left.key < right.key

namespace Ascending

/-- Ascending lists with the same entries are the same list. -/
theorem eq_of_mem_iff {left right : List Entry} (leftAscends : Ascending left)
    (rightAscends : Ascending right) (same : ∀ entry, entry ∈ left ↔ entry ∈ right) :
    left = right := by
  have irreflexive : Std.Irrefl fun left right : Entry => left.key < right.key :=
    ⟨fun entry => lt_irrefl entry.key⟩
  exact List.Pairwise.eq_of_mem_iff leftAscends rightAscends same

/-- Of ascending entries no two have the same key. -/
theorem eq_of_key_eq {entries : List Entry} (ascends : Ascending entries) {left right : Entry}
    (leftMember : left ∈ entries) (rightMember : right ∈ entries) (same : left.key = right.key) :
    left = right := by
  by_contra different
  rcases List.Pairwise.forall_of_forall_of_flip
    (R := fun left right => left = right ∨ left.key ≠ right.key) (fun _ _ => Or.inl rfl)
    (ascends.imp fun below => Or.inr (ne_of_lt below))
    (ascends.imp fun below => Or.inr (ne_of_gt below)) leftMember rightMember with equal | other
  · exact different equal
  · exact other same

/-- One more entry at the end must stand behind the last one. -/
theorem concat_iff {entries : List Entry} {entry : Entry} :
    Ascending (entries ++ [entry]) ↔
      Ascending entries ∧ ∀ last, entries.getLast? = some last → last.key < entry.key := by
  constructor
  · intro ascends
    obtain ⟨before, _, behind⟩ := List.pairwise_append.mp ascends
    refine ⟨before, fun last isLast => ?_⟩
    exact behind last (List.mem_of_getLast? isLast) entry List.mem_cons_self
  · rintro ⟨before, behind⟩
    refine List.pairwise_append.mpr ⟨before, List.pairwise_singleton _ _, ?_⟩
    intro stored member added isAdded
    cases List.mem_singleton.mp isAdded
    obtain ⟨front, last, rfl⟩ := List.eq_nil_or_concat' entries |>.resolve_left
      (List.ne_nil_of_mem member)
    have lastBelow := behind last List.getLast?_concat
    rcases List.mem_append.mp member with member | member
    · exact lt_trans ((List.pairwise_append.mp before).2.2 stored member last (by simp)) lastBelow
    · cases List.mem_singleton.mp member
      exact lastBelow

end Ascending

/-- Where later elements pass a test only if earlier ones do, filtering by the test is stopping at the
first element that fails it. -/
theorem filter_eq_takeWhile {α : Type} {elements : List α} {test : α → Bool}
    (inherited : elements.Pairwise fun left right => test right = true → test left = true) :
    elements.filter test = elements.takeWhile test := by
  induction elements with
  | nil => rfl
  | cons first rest ih =>
    obtain ⟨before, restInherited⟩ := List.pairwise_cons.mp inherited
    by_cases passes : test first = true
    · simp only [List.filter_cons, List.takeWhile_cons, passes, if_true, ih restInherited]
    · simp only [List.filter_cons, List.takeWhile_cons, passes, Bool.false_eq_true, if_false]
      apply List.filter_eq_nil_iff.mpr
      intro element member later
      exact passes (before element member later)

/-- Where later elements pass a test only if earlier ones do, those that fail it follow those that pass. -/
theorem drop_takeWhile {α : Type} {elements : List α} {test : α → Bool}
    (inherited : elements.Pairwise fun left right => test right = true → test left = true) :
    elements.drop (elements.takeWhile test).length = elements.filter fun element => !test element := by
  induction elements with
  | nil => rfl
  | cons first rest ih =>
    obtain ⟨before, restInherited⟩ := List.pairwise_cons.mp inherited
    by_cases passes : test first = true
    · simp [passes, ih restInherited]
    · rw [List.takeWhile_cons_of_neg passes, List.length_nil, List.drop_zero]
      symm
      apply List.filter_eq_self.mpr
      intro element member
      rcases List.mem_cons.mp member with rfl | later
      · simpa using passes
      · simpa using fun holds => passes (before element later holds)

/-- A place splits the numbers by a test: it holds before the place and nowhere from it on. -/
structure Splits (test : Nat → Bool) (place : Nat) : Prop where
  /-- The test holds before the place. -/
  before : ∀ index, index < place → test index = true
  /-- The test fails from the place on. -/
  behind : ∀ index, place ≤ index → test index = false

namespace Splits

/-- Bisection of an interval outside of which the test is known finds the place that splits. -/
theorem bisect {test : Nat → Bool} {low high : Nat} (ordered : low ≤ high)
    (monotone : ∀ first second, first ≤ second → test second = true → test first = true)
    (below : ∀ index, index < low → test index = true)
    (above : ∀ index, high ≤ index → test index = false) :
    Splits test (Block.bisect test low high) := by
  fun_induction Block.bisect test low high with
  | case1 low high active middle holds ih =>
    refine ih (by omega) ?_ above
    intro index inside
    exact monotone index middle (by omega) holds
  | case2 low high active middle fails ih =>
    apply ih (by omega) below
    intro index outside
    cases holds : test index with
    | false => rfl
    | true => exact absurd (monotone middle index outside holds) fails
  | case3 low high inactive =>
    exact ⟨below, fun index outside => above index (by omega)⟩

/-- Halving an interval of candidates finds the place that splits. The interval keeps its base, so
its base is only known to pass the test once the interval has moved. -/
theorem countHolding {test : Nat → Bool} {base size : Nat}
    (monotone : ∀ first second, first ≤ second → test second = true → test first = true)
    (below : ∀ index, index < base → test index = true)
    (above : ∀ index, base + size ≤ index → test index = false) :
    Splits test (BlockMeta.countHolding test base size) := by
  have failsFrom (place : Nat) (fails : ¬ test place = true) (index : Nat)
      (outside : place ≤ index) : test index = false := by
    cases holds : test index with
    | false => rfl
    | true => exact absurd (monotone place index outside holds) fails
  fun_induction BlockMeta.countHolding test base size with
  | case1 base size several half holds ih =>
    refine ih ?_ ?_
    · intro index inside
      exact monotone index (base + half) (by omega) holds
    · intro index outside
      exact above index (by omega)
  | case2 base size several half fails ih =>
    apply ih below
    intro index outside
    exact failsFrom (base + half) fails index (by omega)
  | case3 base size single holds =>
    refine ⟨?_, ?_⟩
    · intro index inside
      exact monotone index base (by omega) holds
    · intro index outside
      exact above index (by omega)
  | case4 base size single fails =>
    exact ⟨below, fun index outside => failsFrom base fails index outside⟩

/-- Where a place splits a list by a test of its elements, what follows the place are the elements
that fail the test. -/
theorem drop_eq_filter {α : Type} {test : α → Bool} {elements : List α} {place : Nat}
    (splits : Splits (fun index => elements[index]?.any test) place) :
    elements.drop place = elements.filter fun element => !test element := by
  induction elements generalizing place with
  | nil => simp
  | cons first rest ih =>
    cases place with
    | zero =>
      have fails : ∀ element ∈ first :: rest, test element = false := by
        intro element member
        obtain ⟨index, found⟩ := List.mem_iff_getElem?.mp member
        simpa [found] using splits.behind index (Nat.zero_le index)
      rw [List.drop_zero]
      symm
      apply List.filter_eq_self.mpr
      intro element member
      simp [fails element member]
    | succ place =>
      have holds : test first = true := by simpa using splits.before 0 (Nat.succ_pos place)
      have shifted : Splits (fun index => rest[index]?.any test) place :=
        ⟨fun index inside => by simpa using splits.before (index + 1) (by omega),
          fun index outside => by simpa using splits.behind (index + 1) (by omega)⟩
      rw [List.drop_succ_cons, ih shifted, List.filter_cons_of_neg (by simp [holds])]

/-- A test that later elements of a list pass only if earlier ones do holds of a front of it. -/
theorem holds_of_le {α : Type} {test : α → Bool} {elements : List α}
    (inherited : elements.Pairwise fun left right => test right = true → test left = true)
    (first second : Nat) (ordered : first ≤ second)
    (holds : elements[second]?.any test = true) : elements[first]?.any test = true := by
  obtain ⟨later, found, passes⟩ := (Option.any_eq_true test _).mp holds
  obtain ⟨inside, rfl⟩ := List.getElem?_eq_some_iff.mp found
  have earlier : elements[first]? = some elements[first] := List.getElem?_eq_getElem (by omega)
  rcases Nat.lt_or_eq_of_le ordered with before | rfl
  · simpa [earlier] using List.pairwise_iff_getElem.mp inherited first second _ inside before passes
  · exact holds

end Splits

/-- The place that bisection finds in a block splits its indexes by whether the key there is below the
given one, if the keys of the block do not descend. -/
theorem splits_lowerBound {entries : List Entry} (key : Key)
    (sorted : entries.Pairwise fun left right => left.key ≤ right.key) :
    Splits (Block.Cursor.standsBefore entries key) (Block.Cursor.lowerBound entries key) := by
  have inherited : entries.Pairwise fun left right =>
      decide (right.key < key) = true → decide (left.key < key) = true :=
    sorted.imp fun ordered below => by
      simp only [decide_eq_true_eq] at below ⊢
      exact lt_of_le_of_lt ordered below
  apply Splits.bisect (Nat.zero_le _) (Splits.holds_of_le inherited) (by simp)
  intro index outside
  simp [List.getElem?_eq_none outside]

/-- From the place on that bisection finds in a block there are exactly the entries whose keys are
not below the given one, if the keys of the block do not descend. -/
theorem drop_lowerBound {entries : List Entry} (key : Key)
    (sorted : entries.Pairwise fun left right => left.key ≤ right.key) :
    entries.drop (Block.Cursor.lowerBound entries key) =
      entries.filter fun entry => decide (key ≤ entry.key) := by
  have splits : Splits (fun index => entries[index]?.any fun entry => decide (entry.key < key))
      (Block.Cursor.lowerBound entries key) := splits_lowerBound key sorted
  rw [splits.drop_eq_filter]
  congr 1
  funext entry
  simp [← not_lt]

/-- The block that the index names for a key: blocks behind it start behind the key, and unless it
is the first one it starts at the key or before it. -/
theorem findBlock_spec {blocks : List BlockMeta} (key : Key)
    (sorted : blocks.Pairwise fun left right => left.firstKey ≤ right.firstKey) :
    (∀ index block, BlockMeta.findBlock blocks key < index → blocks[index]? = some block →
      key < block.firstKey) ∧
    (0 < BlockMeta.findBlock blocks key →
      ∃ block, blocks[BlockMeta.findBlock blocks key]? = some block ∧ block.firstKey ≤ key) := by
  have inherited : blocks.Pairwise fun left right =>
      decide (right.firstKey ≤ key) = true → decide (left.firstKey ≤ key) = true :=
    sorted.imp fun ordered below => by
      simp only [decide_eq_true_eq] at below ⊢
      exact le_trans ordered below
  have splits : Splits (fun index => blocks[index]?.any fun block => decide (block.firstKey ≤ key))
      (BlockMeta.countHolding (fun index => blocks[index]?.any (·.firstKey ≤ key)) 0
        blocks.length) := by
    apply Splits.countHolding (Splits.holds_of_le inherited) (by simp)
    intro index outside
    rw [Nat.zero_add] at outside
    simp [List.getElem?_eq_none outside]
  simp only [BlockMeta.findBlock]
  constructor
  · intro index block behind found
    have fails := splits.behind index (by omega)
    simpa [found] using fails
  · intro positive
    have holds := splits.before _ (Nat.sub_lt (Nat.lt_of_lt_of_le positive (Nat.sub_le _ 1))
      Nat.one_pos)
    obtain ⟨block, found, below⟩ := (Option.any_eq_true _ _).mp holds
    exact ⟨block, found, by simpa using below⟩

end SortedTables
