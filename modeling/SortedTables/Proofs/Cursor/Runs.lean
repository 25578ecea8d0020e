import Mathlib.Logic.Function.Basic
import SortedTables.Cursor.Merge
import SortedTables.Proofs.Order

/-!
# What a merge makes of its sources

The sources of a merge are known by their places in the listing. `Runs` gives what is left of each:
the entries that it walks through and the fault behind them. `Merged` says what a merge makes of
them: in ascending order, once for each key, the entry that counts (`Counts`), up to the least of
the last keys of the failing sources (`Runs.Reach`), and a fault behind these if any source fails.
Nothing here mentions a cursor.

Moving on from a key takes every source behind that key, whether it was shown or passed over, so
that what is left of all runs is described by `Runs.behind` at once. `merged_nil`, `merged_of_failed`
and `merged_cons` put the outcome together from the end.
-/

namespace SortedTables

/-- What is related to the element at a place of a list is at the same place of the other list. -/
theorem exists_getElem?_of_forall₂ {α β : Type} {R : α → β → Prop} {left : List α} {right : List β}
    (related : List.Forall₂ R left right) {place : Nat} {element : α}
    (found : left[place]? = some element) : ∃ other, right[place]? = some other ∧ R element other := by
  induction related generalizing place with
  | nil => cases found
  | cons here _ ih =>
    cases place with
    | zero =>
      cases found
      exact ⟨_, rfl, here⟩
    | succ place => exact ih found

/-- Whether an entry counts, and not a rival with the same key, whose places in the listing are
given: unless the rival beats it. -/
def DuplicatePolicy.Prefers (policy : DuplicatePolicy) (rank : Nat) (entry : Entry)
    (rivalRank : Nat) (rival : Entry) : Prop :=
  match policy with
  | .newestSequence => rival.seq < entry.seq ∨ rival.seq = entry.seq ∧ rivalRank ≤ rank
  | .lastListed => rivalRank ≤ rank

instance (policy : DuplicatePolicy) (rank : Nat) (entry : Entry) (rivalRank : Nat) (rival : Entry) :
    Decidable (policy.Prefers rank entry rivalRank rival) :=
  match policy with
  | .newestSequence =>
    inferInstanceAs (Decidable (rival.seq < entry.seq ∨ rival.seq = entry.seq ∧ rivalRank ≤ rank))
  | .lastListed => inferInstanceAs (Decidable (rivalRank ≤ rank))

/-- Whether, of all entries with its key that are held in some place of a listing, an entry is the
one that counts. -/
def Counts (policy : DuplicatePolicy) (held : Nat → List Entry) (rank : Nat) (entry : Entry) :
    Prop :=
  entry ∈ held rank ∧ ∀ rivalRank rival, rival ∈ held rivalRank → rival.key = entry.key →
    policy.Prefers rank entry rivalRank rival

/-- Which entry counts among those whose keys pass a test does not depend on the others. -/
theorem counts_iff_of_mem_iff {policy : DuplicatePolicy} {held kept : Nat → List Entry}
    (Passes : Key → Prop)
    (isKept : ∀ rank entry, entry ∈ kept rank ↔ entry ∈ held rank ∧ Passes entry.key) {rank : Nat}
    {entry : Entry} :
    Counts policy kept rank entry ↔ Counts policy held rank entry ∧ Passes entry.key := by
  constructor
  · rintro ⟨member, prefers⟩
    obtain ⟨isHeld, passes⟩ := (isKept rank entry).mp member
    refine ⟨⟨isHeld, ?_⟩, passes⟩
    intro rivalRank rival isRival same
    exact prefers rivalRank rival ((isKept _ _).mpr ⟨isRival, same ▸ passes⟩) same
  · rintro ⟨⟨isHeld, prefers⟩, passes⟩
    refine ⟨(isKept rank entry).mpr ⟨isHeld, passes⟩, ?_⟩
    intro rivalRank rival isRival same
    exact prefers rivalRank rival ((isKept _ _).mp isRival).1 same

/-- What is left of the sources of a merge, by place: the entries to come and the fault behind. -/
abbrev Runs : Type := Nat → List Entry × Option Fault

namespace Runs

/-- The entries to come. -/
def held (runs : Runs) (rank : Nat) : List Entry := (runs rank).1

/-- Whether no failing source fails before a key is reached. -/
def Reach (runs : Runs) (key : Key) : Prop :=
  ∀ rank, (runs rank).2 ≠ none → ∃ entry ∈ (runs rank).1, key ≤ entry.key

/-- What is left of the sources behind a key. -/
def behind (key : Key) (runs : Runs) : Runs := fun rank =>
  ((runs rank).1.filter fun entry => decide (key < entry.key), (runs rank).2)

/-- Behind the key of its first entry, the rest of a run is left. -/
theorem behind_of_cons {runs : Runs} {rank : Nat} {entry : Entry} {later : List Entry}
    {ending : Option Fault} (whole : runs rank = (entry :: later, ending))
    (ascends : Ascending (runs rank).1) : runs.behind entry.key rank = (later, ending) := by
  rw [whole] at ascends
  have above := (List.pairwise_cons.mp ascends).1
  have kept : later.filter (fun other => decide (entry.key < other.key)) = later :=
    List.filter_eq_self.mpr fun other member => decide_eq_true (above other member)
  simp only [behind, whole, List.filter_cons, lt_irrefl, decide_false, Bool.false_eq_true, if_false,
    kept]

/-- Before the key of its first entry, a run is left as it is. -/
theorem behind_of_lt {runs : Runs} {rank : Nat} {key : Key}
    (above : ∀ entry ∈ (runs rank).1, key < entry.key) : runs.behind key rank = runs rank := by
  have kept : (runs rank).1.filter (fun other => decide (key < other.key)) = (runs rank).1 :=
    List.filter_eq_self.mpr fun other member => decide_eq_true (above other member)
  simp only [behind, kept]

/-- What is left behind a key ascends. -/
theorem ascending_behind {runs : Runs} (ascends : ∀ rank, Ascending (runs rank).1) (key : Key)
    (rank : Nat) : Ascending (runs.behind key rank).1 :=
  (ascends rank).filter _

/-- Taking an entry off a run makes no difference behind its key. -/
theorem behind_update {runs : Runs} {rank : Nat} {entry : Entry} {later : List Entry}
    {ending : Option Fault} (whole : runs rank = (entry :: later, ending)) :
    behind entry.key (Function.update runs rank (later, ending)) = runs.behind entry.key := by
  funext other
  by_cases same : other = rank
  · subst same
    simp [behind, whole]
  · simp [behind, Function.update_of_ne same]

/-- Taking an entry off a run leaves no other entries than before. -/
theorem subset_of_update {runs : Runs} {rank : Nat} {entry : Entry} {later : List Entry}
    {ending : Option Fault} (whole : runs rank = (entry :: later, ending)) (other : Nat) :
    (Function.update runs rank (later, ending) other).1 ⊆ (runs other).1 := by
  by_cases same : other = rank
  · subst same
    rw [Function.update_self, whole]
    exact List.subset_cons_self _ _
  · rw [Function.update_of_ne same]
    exact List.Subset.refl _

/-- Taking an entry off a run leaves ascending runs. -/
theorem ascending_update {runs : Runs} {rank : Nat} {entry : Entry} {later : List Entry}
    {ending : Option Fault} (whole : runs rank = (entry :: later, ending))
    (ascends : ∀ rank, Ascending (runs rank).1) (other : Nat) :
    Ascending (Function.update runs rank (later, ending) other).1 := by
  by_cases same : other = rank
  · subst same
    have before := ascends other
    rw [whole] at before
    rw [Function.update_self]
    exact (List.pairwise_cons.mp before).2
  · rw [Function.update_of_ne same]
    exact ascends other

end Runs

/-- Of two entries that are preferred to each other neither comes from a later place. -/
theorem DuplicatePolicy.Prefers.antisymm {policy : DuplicatePolicy} {rank other : Nat}
    {entry rival : Entry} (left : policy.Prefers rank entry other rival)
    (right : policy.Prefers other rival rank entry) : rank = other := by
  cases policy <;> simp only [Prefers] at left right <;> grind

/-- Of two entries one is preferred to the other. -/
theorem DuplicatePolicy.Prefers.total (policy : DuplicatePolicy) (rank : Nat) (entry : Entry)
    (other : Nat) (rival : Entry) :
    policy.Prefers rank entry other rival ∨ policy.Prefers other rival rank entry := by
  cases policy <;> simp only [Prefers] <;> grind

/-- An entry is preferred to what one that it is preferred to is preferred to. -/
theorem DuplicatePolicy.Prefers.trans {policy : DuplicatePolicy} {rank middle other : Nat}
    {entry between rival : Entry} (first : policy.Prefers rank entry middle between)
    (second : policy.Prefers middle between other rival) :
    policy.Prefers rank entry other rival := by
  cases policy <;> simp only [Prefers] at first second ⊢ <;> grind

/-- Among some entries there is one that is preferred to all. -/
theorem DuplicatePolicy.exists_preferred (policy : DuplicatePolicy)
    {candidates : List (Nat × Entry)} (nonempty : candidates ≠ []) :
    ∃ best ∈ candidates, ∀ rival ∈ candidates,
      policy.Prefers best.1 best.2 rival.1 rival.2 := by
  induction candidates with
  | nil => exact absurd rfl nonempty
  | cons first later ih =>
    have reflexive := or_self_iff.mp (Prefers.total policy first.1 first.2 first.1 first.2)
    by_cases alone : later = []
    · subst alone
      exact ⟨first, List.mem_cons_self, by simpa using reflexive⟩
    · obtain ⟨best, isLater, prefers⟩ := ih alone
      rcases Prefers.total policy first.1 first.2 best.1 best.2 with better | worse
      · refine ⟨first, List.mem_cons_self, List.forall_mem_cons.mpr ⟨reflexive, ?_⟩⟩
        exact fun rival member => better.trans (prefers rival member)
      · exact ⟨best, List.mem_cons_of_mem _ isLater, List.forall_mem_cons.mpr ⟨worse, prefers⟩⟩

/-- For each stored key an entry counts, if the listing ends. -/
theorem exists_counts (policy : DuplicatePolicy) {held : Nat → List Entry} {count rank : Nat}
    {entry : Entry} (short : ∀ rank, count ≤ rank → held rank = []) (member : entry ∈ held rank) :
    ∃ other winner, Counts policy held other winner ∧ winner.key = entry.key := by
  let candidates := (List.range count).flatMap fun rank =>
    ((held rank).filter fun stored => stored.key = entry.key).map fun stored => (rank, stored)
  have isCandidate (other : Nat) (stored : Entry) :
      (other, stored) ∈ candidates ↔ stored ∈ held other ∧ stored.key = entry.key := by
    have listed : stored ∈ held other → other < count := by
      intro isStored
      by_contra behind
      rw [short other (Nat.le_of_not_lt behind)] at isStored
      cases isStored
    simp only [candidates, List.mem_flatMap, List.mem_range, List.mem_map, List.mem_filter,
      decide_eq_true_eq, Prod.mk.injEq]
    constructor
    · rintro ⟨_, _, _, ⟨isStored, same⟩, rfl, rfl⟩
      exact ⟨isStored, same⟩
    · rintro ⟨isStored, same⟩
      exact ⟨other, listed isStored, stored, ⟨isStored, same⟩, rfl, rfl⟩
  have nonempty : candidates ≠ [] :=
    List.ne_nil_of_mem ((isCandidate rank entry).mpr ⟨member, rfl⟩)
  obtain ⟨⟨other, winner⟩, isBest, prefers⟩ := policy.exists_preferred nonempty
  obtain ⟨isStored, same⟩ := (isCandidate other winner).mp isBest
  refine ⟨other, winner, ⟨isStored, ?_⟩, same⟩
  intro rivalRank rival isRival sameKey
  exact prefers (rivalRank, rival) ((isCandidate _ _).mpr ⟨isRival, sameKey.trans same⟩)

/-- For each key at most one entry counts. -/
theorem Counts.unique {policy : DuplicatePolicy} {held : Nat → List Entry} {rank other : Nat}
    {entry rival : Entry} (ascends : ∀ rank, Ascending (held rank))
    (counts : Counts policy held rank entry) (rivalCounts : Counts policy held other rival)
    (same : rival.key = entry.key) : rank = other ∧ entry = rival := by
  have sameRank := (counts.2 other rival rivalCounts.1 same).antisymm
    (rivalCounts.2 rank entry counts.1 same.symm)
  subst sameRank
  exact ⟨rfl, (ascends rank).eq_of_key_eq counts.1 rivalCounts.1 same.symm⟩

/-- What a merge makes of the runs of its sources. -/
structure Merged (policy : DuplicatePolicy) (runs : Runs) (seen : List (Nat × Entry))
    (ending : Option Fault) : Prop where
  /-- Keys ascend, so that none occurs twice. -/
  ascends : Ascending (seen.map Prod.snd)
  /-- The entries that count are seen, up to the place where a source fails. -/
  mem_iff : ∀ rank entry, (rank, entry) ∈ seen ↔
    Counts policy runs.held rank entry ∧ runs.Reach entry.key
  /-- A fault is that of a source. -/
  failed : ∀ fault, ending = some fault → ∃ rank, (runs rank).2 = some fault
  /-- Without a fault, no source fails. -/
  complete : ending = none → ∀ rank, (runs rank).2 = none

/-- Where no source fails, the entries that count are seen. -/
theorem mem_iff_counts {policy : DuplicatePolicy} {runs : Runs} {seen : List (Nat × Entry)}
    (merged : Merged policy runs seen none) (rank : Nat) (entry : Entry) :
    (rank, entry) ∈ seen ↔ Counts policy runs.held rank entry := by
  rw [merged.mem_iff]
  exact and_iff_left fun rank fails => absurd (merged.complete rfl rank) fails

/-- Where no source of a listing fails, the keys of all entries are seen. -/
theorem Merged.exists_key_iff {policy : DuplicatePolicy} {runs : Runs} {seen : List (Nat × Entry)}
    {count : Nat} (merged : Merged policy runs seen none)
    (short : ∀ rank, count ≤ rank → runs.held rank = []) (key : Key) :
    (∃ shown ∈ seen, shown.2.key = key) ↔ ∃ rank, ∃ entry ∈ runs.held rank, entry.key = key := by
  constructor
  · rintro ⟨⟨rank, entry⟩, member, same⟩
    exact ⟨rank, entry, ((mem_iff_counts merged rank entry).mp member).1, same⟩
  · rintro ⟨rank, entry, isHeld, rfl⟩
    obtain ⟨other, winner, counts, same⟩ := exists_counts policy short isHeld
    exact ⟨(other, winner), (mem_iff_counts merged other winner).mpr counts, same⟩

/-- Up to where fronts of runs reach, they hold what the runs hold. -/
theorem Runs.mem_held_of_reach {parts full : Runs} (ascends : ∀ rank, Ascending (full rank).1)
    (fronts : ∀ rank, (parts rank).1 <+: (full rank).1)
    (complete : ∀ rank, (parts rank).2 = none → (parts rank).1 = (full rank).1) {rank : Nat}
    {entry : Entry} (reached : parts.Reach entry.key) (member : entry ∈ full.held rank) :
    entry ∈ parts.held rank := by
  by_cases fails : (parts rank).2 = none
  · rw [held, complete rank fails]
    exact member
  · obtain ⟨late, isPart, bound⟩ := reached rank fails
    obtain ⟨rest, whole⟩ := fronts rank
    have ascending := ascends rank
    rw [held, ← whole] at member
    rw [← whole] at ascending
    rcases List.mem_append.mp member with isFront | isRest
    · exact isFront
    · have above := (List.pairwise_append.mp ascending).2.2 late isPart entry isRest
      exact absurd above (not_lt_of_ge bound)

/-- What a merge makes of fronts of runs that do not fail is what it makes of these, up to where the
fronts reach. -/
theorem Merged.mem_iff_of_fronts {policy : DuplicatePolicy} {parts full : Runs}
    {seen all : List (Nat × Entry)} {ending : Option Fault}
    (merged : Merged policy parts seen ending) (mergedFull : Merged policy full all none)
    (ascends : ∀ rank, Ascending (full rank).1)
    (fronts : ∀ rank, (parts rank).1 <+: (full rank).1)
    (complete : ∀ rank, (parts rank).2 = none → (parts rank).1 = (full rank).1)
    (shown : Nat × Entry) : shown ∈ seen ↔ shown ∈ all ∧ parts.Reach shown.2.key := by
  obtain ⟨rank, entry⟩ := shown
  have sound (rank : Nat) {entry : Entry} (member : entry ∈ parts.held rank) :
      entry ∈ full.held rank := (fronts rank).subset member
  have noFault : full.Reach entry.key := fun rank fails =>
    absurd (mergedFull.complete rfl rank) fails
  rw [merged.mem_iff, mergedFull.mem_iff]
  constructor
  · rintro ⟨⟨member, prefers⟩, reached⟩
    refine ⟨⟨⟨sound rank member, ?_⟩, noFault⟩, reached⟩
    intro rivalRank rival isRival same
    have isFront := Runs.mem_held_of_reach ascends fronts complete (same ▸ reached) isRival
    exact prefers rivalRank rival isFront same
  · rintro ⟨⟨⟨member, prefers⟩, _⟩, reached⟩
    refine ⟨⟨Runs.mem_held_of_reach ascends fronts complete reached member, ?_⟩, reached⟩
    intro rivalRank rival isRival same
    exact prefers rivalRank rival (sound rivalRank isRival) same

/-- What is merged is known by which of the entries that something else is merged to are among it. -/
theorem Merged.eq_filter {policy : DuplicatePolicy} {parts full : Runs} {seen all : List (Nat × Entry)}
    {ending otherEnding : Option Fault} (kept : Key → Bool) (merged : Merged policy parts seen ending)
    (mergedFull : Merged policy full all otherEnding)
    (isKept : ∀ shown, shown ∈ seen ↔ shown ∈ all ∧ kept shown.2.key = true) :
    seen = all.filter fun shown => kept shown.2.key := by
  have irreflexive : Std.Irrefl fun left right : Nat × Entry => left.2.key < right.2.key :=
    ⟨fun shown => lt_irrefl shown.2.key⟩
  refine List.Pairwise.eq_of_mem_iff (List.pairwise_map.mp merged.ascends)
    ((List.pairwise_map.mp mergedFull.ascends).filter _) ?_
  intro shown
  rw [isKept, List.mem_filter]

/-- A merge makes one thing only of runs. -/
theorem Merged.unique {policy : DuplicatePolicy} {runs : Runs} {seen other : List (Nat × Entry)}
    {ending otherEnding : Option Fault} (merged : Merged policy runs seen ending)
    (mergedOther : Merged policy runs other otherEnding) : seen = other := by
  have same := merged.eq_filter (fun _ => true) mergedOther fun shown => by
    rw [merged.mem_iff, mergedOther.mem_iff, and_iff_left rfl]
  rwa [List.filter_true] at same

/-- What a merge makes of fronts of runs that do not fail is the part of what it makes of these that the
fronts reach. -/
theorem Merged.eq_filter_of_fronts {policy : DuplicatePolicy} {parts full : Runs}
    {seen all : List (Nat × Entry)} {ending : Option Fault} (reached : Key → Bool)
    (merged : Merged policy parts seen ending) (mergedFull : Merged policy full all none)
    (ascends : ∀ rank, Ascending (full rank).1)
    (fronts : ∀ rank, (parts rank).1 <+: (full rank).1)
    (complete : ∀ rank, (parts rank).2 = none → (parts rank).1 = (full rank).1)
    (isReach : ∀ key, reached key = true ↔ parts.Reach key) :
    seen = all.filter fun shown => reached shown.2.key := by
  refine merged.eq_filter reached mergedFull fun shown => ?_
  rw [merged.mem_iff_of_fronts mergedFull ascends fronts complete, isReach]

/-- What a merge makes of fronts of runs that do not fail is a front of what it makes of these. It is
all of that if no front fails. -/
theorem Merged.isPrefix {policy : DuplicatePolicy} {parts full : Runs}
    {seen all : List (Nat × Entry)} {ending : Option Fault}
    (merged : Merged policy parts seen ending) (mergedFull : Merged policy full all none)
    (ascends : ∀ rank, Ascending (full rank).1)
    (fronts : ∀ rank, (parts rank).1 <+: (full rank).1)
    (complete : ∀ rank, (parts rank).2 = none → (parts rank).1 = (full rank).1) :
    seen <+: all ∧ (ending = none → seen = all) := by
  classical
  have isFilter : seen = all.filter fun shown => decide (parts.Reach shown.2.key) :=
    merged.eq_filter_of_fronts (fun key => decide (parts.Reach key)) mergedFull ascends fronts
      complete fun _ => decide_eq_true_iff
  constructor
  · rw [isFilter, filter_eq_takeWhile]
    · exact List.takeWhile_prefix _
    · refine (List.pairwise_map.mp mergedFull.ascends).imp fun below reached => ?_
      rw [decide_eq_true_eq] at reached ⊢
      intro rank fails
      obtain ⟨late, isPart, bound⟩ := reached rank fails
      exact ⟨late, isPart, le_trans (le_of_lt below) bound⟩
  · intro noFault
    rw [isFilter, List.filter_eq_self]
    intro shown _
    exact decide_eq_true fun rank fails => absurd (merged.complete noFault rank) fails

/-- An entry from which a merge can start: it counts, and no key to come is smaller. -/
structure Runs.Least (policy : DuplicatePolicy) (runs : Runs) (rank : Nat) (entry : Entry) :
    Prop where
  /-- The entry counts. -/
  counts : Counts policy runs.held rank entry
  /-- No smaller key is to come. -/
  low : ∀ rank, ∀ other ∈ (runs rank).1, entry.key ≤ other.key
  /-- A failing source has an entry to come. -/
  nonempty : ∀ rank, (runs rank).2 ≠ none → (runs rank).1 ≠ []

/-- The least key is reached. -/
theorem Runs.Least.reach {policy : DuplicatePolicy} {runs : Runs} {rank : Nat} {entry : Entry}
    (least : runs.Least policy rank entry) : runs.Reach entry.key := by
  intro rank fails
  obtain ⟨first, member⟩ := List.exists_mem_of_ne_nil _ (least.nonempty rank fails)
  exact ⟨first, member, least.low rank first member⟩

/-- From sources without entries a merge makes nothing. -/
theorem merged_nil {policy : DuplicatePolicy} {runs : Runs} (spent : ∀ rank, runs rank = ([], none)) :
    Merged policy runs [] none where
  ascends := List.Pairwise.nil
  mem_iff rank entry := by simp [Counts, Runs.held, spent]
  failed := by simp
  complete _ rank := by rw [spent]

/-- If a source fails behind the least key, this is the only one that is seen. -/
theorem merged_of_failed {policy : DuplicatePolicy} {runs : Runs} {rank failing : Nat} {entry : Entry}
    {fault : Fault} (ascends : ∀ rank, Ascending (runs rank).1) (least : runs.Least policy rank entry)
    (fails : runs.behind entry.key failing = ([], some fault)) :
    Merged policy runs [(rank, entry)] (some fault) where
  ascends := List.pairwise_singleton _ _
  mem_iff other stored := by
    have isFault : (runs failing).2 = some fault := congrArg Prod.snd fails
    have noneAbove : ∀ late ∈ (runs failing).1, late.key ≤ entry.key := by
      intro late member
      have none := List.filter_eq_nil_iff.mp (congrArg Prod.fst fails) late member
      simpa using none
    constructor
    · intro member
      cases List.mem_singleton.mp member
      exact ⟨least.counts, least.reach⟩
    · rintro ⟨counts, reached⟩
      obtain ⟨late, member, bound⟩ := reached failing (by simp [isFault])
      have low := least.low other stored counts.1
      have same : stored.key = entry.key :=
        le_antisymm (le_trans bound (noneAbove late member)) low
      obtain ⟨rfl, rfl⟩ := least.counts.unique ascends counts same
      exact List.mem_singleton_self _
  failed := by
    intro other same
    cases same
    exact ⟨failing, congrArg Prod.snd fails⟩
  complete := by simp

/-- Otherwise the entries behind the least key follow. -/
theorem merged_cons {policy : DuplicatePolicy} {runs : Runs} {rank : Nat} {entry : Entry}
    {seen : List (Nat × Entry)} {ending : Option Fault} (ascends : ∀ rank, Ascending (runs rank).1)
    (least : runs.Least policy rank entry)
    (merged : Merged policy (runs.behind entry.key) seen ending) :
    Merged policy runs ((rank, entry) :: seen) ending := by
  have memBehind (other : Nat) (stored : Entry) :
      stored ∈ (runs.behind entry.key).held other ↔
        stored ∈ runs.held other ∧ entry.key < stored.key := by
    simp [Runs.held, Runs.behind]
  have counts (other : Nat) (stored : Entry) :
      Counts policy (runs.behind entry.key).held other stored ↔
        Counts policy runs.held other stored ∧ entry.key < stored.key :=
    counts_iff_of_mem_iff (entry.key < ·) fun rank stored => memBehind rank stored
  have reach (key : Key) (above : entry.key < key) :
      (runs.behind entry.key).Reach key ↔ runs.Reach key := by
    constructor
    · intro reached other fails
      obtain ⟨late, member, bound⟩ := reached other fails
      exact ⟨late, ((memBehind _ _).mp member).1, bound⟩
    · intro reached other fails
      obtain ⟨late, member, bound⟩ := reached other fails
      exact ⟨late, (memBehind _ _).mpr ⟨member, lt_of_lt_of_le above bound⟩, bound⟩
  refine ⟨?_, ?_, merged.failed, merged.complete⟩
  · refine List.pairwise_cons.mpr ⟨?_, merged.ascends⟩
    intro stored member
    obtain ⟨⟨other, _⟩, isSeen, rfl⟩ := List.mem_map.mp member
    exact ((counts _ _).mp ((merged.mem_iff _ _).mp isSeen).1).2
  · intro other stored
    rw [List.mem_cons, merged.mem_iff, counts]
    constructor
    · rintro (isFirst | ⟨⟨isCounted, above⟩, reached⟩)
      · cases isFirst
        exact ⟨least.counts, least.reach⟩
      · exact ⟨isCounted, (reach _ above).mp reached⟩
    · rintro ⟨isCounted, reached⟩
      rcases lt_or_eq_of_le (least.low other stored isCounted.1) with above | same
      · exact Or.inr ⟨⟨isCounted, above⟩, (reach _ above).mpr reached⟩
      · obtain ⟨rfl, rfl⟩ := least.counts.unique ascends isCounted same.symm
        exact Or.inl rfl

/-- What runs that do not fail are merged to begins with the least key, and goes on with what is behind
it. -/
theorem Merged.exists_cons {policy : DuplicatePolicy} {runs : Runs} {rank : Nat} {entry : Entry}
    {seen : List (Nat × Entry)} (merged : Merged policy runs seen none)
    (ascends : ∀ rank, Ascending (runs rank).1) (least : runs.Least policy rank entry) :
    ∃ later, seen = (rank, entry) :: later ∧ Merged policy (runs.behind entry.key) later none := by
  have behind : Merged policy (runs.behind entry.key)
      (seen.filter fun shown => entry.key < shown.2.key) none := by
    refine ⟨?_, ?_, by simp, merged.complete⟩
    · exact List.pairwise_map.mpr ((List.pairwise_map.mp merged.ascends).filter _)
    · intro other stored
      have noFault : (runs.behind entry.key).Reach stored.key := fun rank fails =>
        absurd (merged.complete rfl rank) fails
      rw [List.mem_filter, mem_iff_counts merged, decide_eq_true_iff, and_iff_left noFault]
      refine (counts_iff_of_mem_iff (entry.key < ·) fun rank stored => ?_).symm
      simp [Runs.held, Runs.behind]
  exact ⟨_, merged.unique (merged_cons ascends least behind), behind⟩

end SortedTables
