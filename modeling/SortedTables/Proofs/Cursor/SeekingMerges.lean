import SortedTables.Proofs.Cursor.Bounding
import SortedTables.Proofs.Cursor.Conveying
import SortedTables.Proofs.Cursor.MergedLists

/-!
# Seeking a merge

Sources that can be sought stand anywhere in their entries (`Cursor.Ranges`). What is left of all of
them while they are merged is described by one lower end: moving on leaves what is above the current
key, seeking a key what is not below it. This is the invariant `Merge.Spans`, and `Cursor.Advances` are
the moves that keep it. As which entry counts depends on the entries with its key only, a merge that
seeks a key goes on as if what is below it had been left out (`Merge.drains_seek`).

The condition on a seek, that it does not go back, is one on the merge. It implies that no source is
sought for a key that it has passed, and nothing is required of sources that are.
-/

namespace SortedTables

namespace Cursor

variable {σ : Type} [Cursor σ] {disk : Disk} {entries left : List Entry} {cursor : σ}

/-- A place in given entries for the cursors of a kind, from which they go on and are sought without a
fault. -/
structure Serves (disk : Disk) (entries : List Entry) (At : σ → List Entry → Prop) : Prop where
  /-- The first entry left is shown. -/
  shows : ∀ {cursor left}, At cursor left → showing? cursor = left.head?
  /-- From an entry, a cursor goes on to the next one. -/
  moves : ∀ {cursor entry later}, At cursor (entry :: later) →
    (next disk cursor).fault = none ∧ At (next disk cursor).state later
  /-- Sought for a key that it has not passed, a cursor goes to the first entry that is not below
  it. -/
  seeks : ∀ {cursor left} (key), At cursor left →
    (left.filter fun entry => key ≤ entry.key) = (entries.filter fun entry => key ≤ entry.key) →
    (seek disk key cursor).fault = none ∧
      At (seek disk key cursor).state (entries.filter fun entry => key ≤ entry.key)

/-- A cursor that can be moved and sought without a fault in given entries stands at a place where some
of them are left. -/
def Ranges (disk : Disk) (entries : List Entry) (cursor : σ) (left : List Entry) : Prop :=
  ∃ At : σ → List Entry → Prop, Serves disk entries At ∧ At cursor left

/-- A cursor has not passed a key. -/
def IsAhead (key : Key) (cursor : σ) : Prop :=
  ∀ entry, showing? cursor = some entry → entry.key ≤ key

/-- What becomes of a cursor that is moved, and sought for keys that it has not passed. -/
inductive Advances (disk : Disk) (start : σ) : σ → Prop where
  | stays : Advances disk start start
  | moves {cursor : σ} (before : Advances disk start cursor) :
      Advances disk start (next disk cursor).state
  | seeks {cursor : σ} (before : Advances disk start cursor) (key : Key) (ahead : IsAhead key cursor) :
      Advances disk start (seek disk key cursor).state

namespace Ranges

/-- The first entry left is shown. -/
theorem showing?_eq (ranges : Ranges disk entries cursor left) : showing? cursor = left.head? := by
  obtain ⟨At, serves, here⟩ := ranges
  exact serves.shows here

/-- From an entry, the cursor goes on to the next one. -/
theorem next {entry : Entry} {later : List Entry}
    (ranges : Ranges disk entries cursor (entry :: later)) :
    (Cursor.next disk cursor).fault = none ∧
      Ranges disk entries (Cursor.next disk cursor).state later := by
  obtain ⟨At, serves, here⟩ := ranges
  obtain ⟨moved, there⟩ := serves.moves here
  exact ⟨moved, At, serves, there⟩

/-- Sought for a key that it has not passed, the cursor goes to the first entry that is not below it. -/
theorem seek (ranges : Ranges disk entries cursor left) (key : Key)
    (ahead : (left.filter fun entry => key ≤ entry.key) =
      (entries.filter fun entry => key ≤ entry.key)) :
    (Cursor.seek disk key cursor).fault = none ∧
      Ranges disk entries (Cursor.seek disk key cursor).state
        (entries.filter fun entry => key ≤ entry.key) := by
  obtain ⟨At, serves, here⟩ := ranges
  obtain ⟨sought, there⟩ := serves.seeks key here ahead
  exact ⟨sought, At, serves, there⟩

/-- The cursor walks through what is left. -/
theorem walks (ranges : Ranges disk entries cursor left) : Walks disk showing? cursor left none := by
  induction left generalizing cursor with
  | nil => exact .atEnd ranges.showing?_eq
  | cons entry later ih =>
    obtain ⟨moved, there⟩ := ranges.next
    exact .goesOn ranges.showing?_eq moved (ih there)

/-- What is left is known by walking through it. -/
theorem eq_of_walks {seen : List Entry} (ranges : Ranges disk entries cursor left)
    (walks : Walks disk showing? cursor seen none) : left = seen := by
  obtain ⟨_, drains⟩ := ranges.walks.exists_drains
  obtain ⟨_, others⟩ := walks.exists_drains
  exact drains.unique others

end Ranges

end Cursor

/-- A scripted cursor over ascending entries that is not told to fail can be moved and sought. -/
theorem Scripted.ranges {cursor : Scripted} {disk : Disk} {entries left : List Entry}
    (ascends : Ascending entries) (fine : cursor.failingAdvance = none)
    (seeks : cursor.failsSeek = false) (whole : cursor.entries = entries)
    (isLeft : entries.drop cursor.index = left) : Cursor.Ranges disk entries cursor left := by
  subst whole
  refine ⟨fun reached left => reached.failingAdvance = none ∧ reached.failsSeek = false ∧
    reached.entries = cursor.entries ∧ reached.entries.drop reached.index = left, ⟨?_, ?_, ?_⟩,
    fine, seeks, rfl, isLeft⟩
  · rintro reached _ ⟨_, _, _, rfl⟩
    rw [showing?_eq, List.head?_drop]
  · rintro reached entry later ⟨fine, seeks, whole, isLeft⟩
    obtain ⟨here, isLater⟩ := getElem?_of_drop isLeft
    rw [next_of_getElem? disk here (by simp [fine])]
    exact ⟨rfl, fine, seeks, whole, isLater⟩
  · rintro reached _ key ⟨fine, seeks, whole, rfl⟩ ahead
    have left := drop_seek seeks (whole ▸ ascends) key
    rw [ahead] at left
    have sought : Cursor.seek disk key reached = Scripted.seek key reached := rfl
    rw [sought]
    unfold Scripted.seek at left ⊢
    rw [seeks] at left ⊢
    exact ⟨rfl, fine, rfl, whole, left⟩

namespace Merge

open Ranked Cursor

variable {σ : Type} [Cursor σ] {disk : Disk} {policy : DuplicatePolicy}

/-! ## What moving and seeking does to the sources in use -/

section Sources

variable {Kept : Ranked σ → Prop}
  (moves : ∀ source, Kept source → (Cursor.next disk source.source).fault = none →
    isValid (Cursor.next disk source.source).state = true →
    Kept ⟨source.rank, (Cursor.next disk source.source).state⟩)

include moves

/-- What every move of a source to an entry keeps, passing over duplicates keeps of the waiting ones. -/
theorem forall_passDuplicates (key : Key) (waiting released : List (Ranked σ))
    (fine : (passDuplicates disk policy key waiting released).fault = none)
    (areKept : ∀ source ∈ waiting, Kept source) :
    ∀ source ∈ (passDuplicates disk policy key waiting released).state.1, Kept source := by
  fun_induction passDuplicates disk policy key waiting released with
  | case1 => exact areKept
  | case2 => cases fine
  | case3 waiting released first others taken same step moved fault valid ih =>
    obtain ⟨here, there⟩ := forall_of_takeFirst taken areKept
    exact ih fine (List.forall_mem_cons.mpr ⟨moves first here fault valid, there⟩)
  | case4 waiting released first others taken same step moved fault invalid ih =>
    exact ih fine (forall_of_takeFirst taken areKept).2
  | case5 => exact areKept

/-- What every move of a source to an entry keeps, a merge that goes on keeps of the sources in use. -/
theorem forall_inUse_next {merge : Merge σ} (fine : (Cursor.next disk merge).fault = none)
    (areKept : ∀ source ∈ merge.inUse, Kept source) :
    ∀ source ∈ (Cursor.next disk merge).state.inUse, Kept source := by
  have goes := goes_next disk merge
  generalize Cursor.next disk merge = step at goes fine ⊢
  cases goes with
  | stays => exact areKept
  | fails => cases fine
  | failsLast => cases fine
  | @moves current passed standing passes moved =>
    simp only [inUse, standing, Option.toList_some, List.singleton_append, List.forall_mem_cons]
      at areKept
    obtain ⟨isKept, areKept⟩ := areKept
    have others : ∀ source ∈ passed.1, Kept source := by
      have kept := forall_passDuplicates moves (Cursor.key current.source) merge.waiting
        merge.released (by rw [passes]; rfl) areKept
      rwa [passes] at kept
    intro source member
    rcases mem_inUse_select_enter member with ⟨rfl, valid⟩ | waits
    · exact moves current isKept moved valid
    · exact others source waits

end Sources

/-- A source that is sought, at its place. -/
def sought (disk : Disk) (key : Key) (source : Ranked σ) : Ranked σ :=
  ⟨source.rank, (Cursor.seek disk key source.source).state⟩

/-- Where no source fails to be sought, seeking a key lets all sources enter anew. -/
theorem foldl_seekSource (key : Key) {sources : List (Ranked σ)}
    (fine : ∀ source ∈ sources, (Cursor.seek disk key source.source).fault = none) (merge : Merge σ) :
    sources.foldl (seekSource disk key) (.done merge) =
      .done ((sources.map (sought disk key)).foldl (fun merge source => enter source merge) merge) := by
  induction sources generalizing merge with
  | nil => rfl
  | cons source later ih =>
    obtain ⟨here, there⟩ := List.forall_mem_cons.mp fine
    have enters : seekSource disk key (.done merge) source =
        .done (merge.enter (sought disk key source)) := by
      simp only [seekSource, here]
      rfl
    rw [List.foldl_cons, enters, ih there, List.map_cons, List.foldl_cons]

/-- Where no source in use fails to be sought, and each then walks through a run, seeking a key makes a
merge follow these runs. The sources in use are then among those that were. -/
theorem Follows.exists_seek {runs : Runs} {merge : Merge σ} (follows : Follows disk runs merge)
    (key : Key) (left : Runs) (ascends : ∀ rank, Ascending (left rank).1)
    (spent : ∀ rank, runs rank = ([], none) → left rank = ([], none))
    (fine : ∀ source ∈ merge.inUse, (Cursor.seek disk key source.source).fault = none)
    (walks : ∀ source ∈ merge.inUse, Walks disk showing? (Cursor.seek disk key source.source).state
      (left source.rank).1 (left source.rank).2) :
    ∃ found, Cursor.seek disk key merge = .done found ∧ Follows disk left found ∧
      found.policy = merge.policy ∧ ∀ source ∈ found.inUse, ∃ before ∈ merge.inUse,
        source = sought disk key before := by
  let asked := merge.waiting ++ merge.current.toList
  have areInUse : asked.Perm merge.inUse := List.perm_append_comm
  have samePlaces : (asked.map (sought disk key)).map Ranked.rank = asked.map Ranked.rank := by
    rw [List.map_map]
    rfl
  let emptied : Merge σ := { merge with waiting := [], current := none }
  have nothing : Standing disk left emptied.waiting :=
    ⟨by simp [emptied], by simp [emptied], by simp [emptied]⟩
  obtain ⟨standing, leftOut⟩ := standing_foldl_enter (asked.map (sought disk key)) emptied nothing
    (List.forall_mem_map.mpr fun source member => walks source (areInUse.mem_iff.mp member))
    (by
      rw [samePlaces]
      exact (areInUse.map Ranked.rank).nodup_iff.mpr follows.standing.distinct)
    (by simp [emptied])
  refine ⟨_, ?_, follows_select standing ?_ ascends, ?_, ?_⟩
  · change Merge.seek disk key merge = _
    have eachFine : ∀ source ∈ asked, (Cursor.seek disk key source.source).fault = none :=
      fun source member => fine source (areInUse.mem_iff.mp member)
    rw [Merge.seek, foldl_seekSource key eachFine]
    rfl
  · intro rank outside
    by_cases waits : rank ∈ asked.map Ranked.rank
    · exact leftOut rank (.inl (samePlaces ▸ waits)) outside
    · apply spent
      apply follows.covers
      exact fun used => waits ((areInUse.map Ranked.rank).mem_iff.mpr used)
  · rw [policy_select, policy_foldl_enter]
  · intro source member
    rcases mem_waiting_foldl_enter ((inUse_select_perm _).mem_iff.mp member) with entered | waits
    · obtain ⟨before, isAsked, rfl⟩ := List.mem_map.mp entered
      exact ⟨before, areInUse.mem_iff.mp isAsked, rfl⟩
    · cases waits

/-! ## What is left of the sources -/

/-- What is left of lists above a lower end. -/
def leftAbove (lower : Bound) (lists : List (List Entry)) : Runs := fun rank =>
  ((lists.getD rank []).filter fun entry => lower.admitsAbove entry.key, none)

variable {lists : List (List Entry)} {lower : Bound} {merge : Merge σ}

/-- Of what is left above a lower end, what passes a test is what passes it at all, if the end admits
all that passes. -/
theorem filter_leftAbove (passes : Key → Bool)
    (admits : ∀ key, passes key = true → lower.admitsAbove key = true) (rank : Nat) :
    ((leftAbove lower lists rank).1.filter fun entry => passes entry.key) =
      (lists.getD rank []).filter fun entry => passes entry.key := by
  rw [leftAbove, List.filter_filter]
  refine List.filter_congr fun entry _ => ?_
  rw [Bool.and_eq_left_iff_imp]
  exact admits entry.key

/-- A merge spans lists above a lower end: this is what is left of its sources, and they can be moved
and sought in the lists. -/
structure Spans (disk : Disk) (policy : DuplicatePolicy) (lists : List (List Entry)) (lower : Bound)
    (merge : Merge σ) : Prop where
  /-- The policy is the given one. -/
  policy_eq : merge.policy = policy
  /-- What is above the end is left. -/
  follows : Follows disk (leftAbove lower lists) merge
  /-- The sources can be moved and sought. -/
  ranges : ∀ source ∈ merge.inUse, Ranges disk (lists.getD source.rank []) source.source
    (leftAbove lower lists source.rank).1

/-- A source stands at an entry of the list at its place, and can be moved and sought there. -/
def StandsIn (disk : Disk) (lists : List (List Entry)) (source : Ranked σ) : Prop :=
  ∃ left, left ≠ [] ∧ Ranges disk (lists.getD source.rank []) source.source left

/-- A source that is moved to an entry stands at it. -/
theorem StandsIn.moved {source : Ranked σ} (stands : StandsIn disk lists source)
    (valid : isValid (Cursor.next disk source.source).state = true) :
    StandsIn disk lists ⟨source.rank, (Cursor.next disk source.source).state⟩ := by
  obtain ⟨left, nonempty, ranges⟩ := stands
  obtain ⟨first, later, rfl⟩ := List.exists_cons_of_ne_nil nonempty
  obtain ⟨_, ranges⟩ := ranges.next
  exact ⟨later, (isValid_iff ranges.walks).mp valid, ranges⟩

/-- A merge that was just made spans all of the lists. -/
theorem spans_create (policy : DuplicatePolicy) {sources : List σ}
    (ranges : List.Forall₂ (fun source entries => Ranges disk entries source entries) sources lists)
    (ascends : ∀ entries ∈ lists, Ascending entries) :
    Spans disk policy lists .unbounded (create policy sources) := by
  have all : leftAbove .unbounded lists = Runs.ofLists lists := by
    funext rank
    simp [leftAbove, Runs.ofLists, Bound.admitsAbove]
  refine ⟨policy_create sources, ?_, ?_⟩
  · rw [all]
    exact follows_of_lists policy (ranges.imp fun _ _ => Ranges.walks) ascends
  · intro source member
    obtain ⟨entries, isListed, here⟩ :=
      exists_getElem?_of_forall₂ ranges (getElem?_of_mem_inUse_create member)
    simpa [all, Runs.ofLists, isListed] using here

/-- Without a current entry, nothing is left. -/
theorem Spans.eq_nil_of_spent (spans : Spans disk policy lists lower merge)
    (spent : merge.current = none) (rank : Nat) : (leftAbove lower lists rank).1 = [] := by
  have nothing : leftAbove lower lists rank = ([], none) := by
    apply spans.follows.covers
    simp [inUse, spent, spans.follows.spent spent]
  rw [nothing]

/-- A merge with a current source shows an entry, which is above the lower end. -/
theorem Spans.exists_shown (spans : Spans disk policy lists lower merge) {current : Ranked σ}
    (standing : merge.current = some current) :
    ∃ entry, shown? merge = some (current.rank, entry) ∧ lower.admitsAbove entry.key = true := by
  obtain ⟨entry, later, ending, whole, here, _⟩ := spans.follows.least standing
  refine ⟨entry, by simp [shown?, standing, here], ?_⟩
  have member : entry ∈ (leftAbove lower lists current.rank).1 := by simp [whole]
  exact (List.mem_filter.mp member).2

/-- A merge walks through what its sources are merged to. -/
theorem Spans.walks (spans : Spans disk policy lists lower merge) :
    ∃ seen, Walks disk shown? merge seen none ∧ Merged policy (leftAbove lower lists) seen none := by
  obtain ⟨seen, walks, isMerged⟩ := spans.follows.exists_walks fun _ => rfl
  rw [spans.policy_eq] at isMerged
  exact ⟨seen, walks, isMerged⟩

/-- Moving on leaves what is above the current key. -/
theorem Spans.next (spans : Spans disk policy lists lower merge) :
    ∃ lower', Spans disk policy lists lower' (Cursor.next disk merge).state := by
  cases standing : merge.current with
  | none =>
    rw [next_of_spent standing]
    exact ⟨lower, spans⟩
  | some current =>
    obtain ⟨entry, shown, admitted⟩ := spans.exists_shown standing
    have left : (leftAbove lower lists).behind entry.key = leftAbove (.excluded entry.key) lists := by
      funext rank
      refine Prod.ext (filter_leftAbove (fun key => entry.key < key) (fun key above => ?_) rank) rfl
      exact Bound.admitsAbove_of_le (le_of_lt (of_decide_eq_true above)) admitted
    have next := spans.follows.next shown
    cases fine : (Cursor.next disk merge).fault with
    | some fault =>
      rw [fine] at next
      obtain ⟨rank, fails⟩ := next
      cases congrArg Prod.snd fails
    | none =>
      rw [fine, left] at next
      obtain ⟨follows, samePolicy⟩ := next
      refine ⟨.excluded entry.key, samePolicy.trans spans.policy_eq, follows, ?_⟩
      -- Each source that is in use can be moved and sought from where it stands, wherever this is.
      have stand := forall_inUse_next (fun _ stands _ valid => StandsIn.moved stands valid) fine
        fun source member => ⟨_, spans.follows.standing.nonempty source member,
          spans.ranges source member⟩
      intro source member
      obtain ⟨left, _, ranges⟩ := stand source member
      exact ranges.eq_of_walks (follows.standing.walks source member) ▸ ranges

/-- Seeking a key leaves what is not below it. -/
theorem Spans.seek (spans : Spans disk policy lists lower merge) {key : Key}
    (ahead : IsAhead key merge) :
    ∃ found lower', Cursor.seek disk key merge = .done found ∧
      Spans disk policy lists lower' found ∧
      ∀ rank, (leftAbove lower' lists rank).1 =
        (leftAbove lower lists rank).1.filter fun entry => key ≤ entry.key := by
  cases standing : merge.current with
  | none =>
    refine ⟨merge, lower, ?_, spans, fun rank => ?_⟩
    · change Merge.seek disk key merge = _
      obtain ⟨policy, waiting, current, released⟩ := merge
      cases standing
      cases spans.follows.spent rfl
      rfl
    · rw [spans.eq_nil_of_spent standing]
      rfl
  | some current =>
    obtain ⟨entry, shown, admitted⟩ := spans.exists_shown standing
    have low : entry.key ≤ key := by
      apply ahead
      rw [showing?_eq_map_shown?, shown]
      rfl
    have left (rank : Nat) : ((leftAbove lower lists rank).1.filter fun entry => key ≤ entry.key) =
        (leftAbove (.included key) lists rank).1 := by
      refine filter_leftAbove (fun other => key ≤ other) (fun other above => ?_) rank
      exact Bound.admitsAbove_of_le (le_trans low (of_decide_eq_true above)) admitted
    have eachSought (source : Ranked σ) (member : source ∈ merge.inUse) :=
      (spans.ranges source member).seek key (left source.rank)
    have ascends (rank : Nat) : Ascending (leftAbove (.included key) lists rank).1 := by
      rw [← left]
      exact (spans.follows.ascends rank).filter _
    have spent (rank : Nat) (usedUp : leftAbove lower lists rank = ([], none)) :
        leftAbove (.included key) lists rank = ([], none) := by
      refine Prod.ext ?_ rfl
      rw [← left, usedUp]
      rfl
    obtain ⟨found, isFound, follows, samePolicy, before⟩ :=
      spans.follows.exists_seek key _ ascends spent (fun source member => (eachSought source member).1)
        fun source member => (eachSought source member).2.walks
    refine ⟨found, .included key, isFound, ⟨samePolicy.trans spans.policy_eq, follows, ?_⟩,
      fun rank => (left rank).symm⟩
    intro source member
    obtain ⟨source, wasUsed, rfl⟩ := before source member
    exact (eachSought source wasUsed).2

/-- Moving on, and seeking keys that were not passed, keeps what a merge spans above some lower end. -/
theorem Spans.advances {start : Merge σ} (spans : Spans disk policy lists lower start)
    (advances : Advances disk start merge) : ∃ lower', Spans disk policy lists lower' merge := by
  induction advances with
  | stays => exact ⟨lower, spans⟩
  | moves _ ih =>
    obtain ⟨_, spans⟩ := ih
    exact spans.next
  | seeks _ key ahead ih =>
    obtain ⟨_, spans⟩ := ih
    obtain ⟨found, lower', sought, spansFound, _⟩ := spans.seek ahead
    rw [sought]
    exact ⟨lower', spansFound⟩

/-- Let sources be merged that can be moved and sought in ascending lists of entries, and let the merge
be at any place that it gets to by being moved on and by seeking keys that it has not passed. Seeking
such a key succeeds, and draining the merge then shows those entries of all that it would have shown
otherwise whose keys are not below that key, with the same places of their sources. -/
theorem drains_seek (policy : DuplicatePolicy) {sources : List σ}
    (ranges : List.Forall₂ (fun source entries => Ranges disk entries source entries) sources lists)
    (ascends : ∀ entries ∈ lists, Ascending entries)
    (advances : Advances disk (create policy sources) merge) {key : Key} (ahead : IsAhead key merge) :
    ∃ seen last found foundLast, Drains disk shown? merge seen last ∧
      Cursor.seek disk key merge = .done found ∧
      Drains disk shown? found (seen.filter fun shown => key ≤ shown.2.key) foundLast := by
  obtain ⟨lower, spans⟩ := (spans_create policy ranges ascends).advances advances
  obtain ⟨found, lower', sought, spansFound, left⟩ := spans.seek ahead
  obtain ⟨seen, walks, isMerged⟩ := spans.walks
  obtain ⟨later, laterWalks, isMergedLater⟩ := spansFound.walks
  have isFilter : later = seen.filter fun shown => key ≤ shown.2.key := by
    refine isMergedLater.eq_filter (fun other => key ≤ other) isMerged fun shown => ?_
    obtain ⟨rank, entry⟩ := shown
    rw [mem_iff_counts isMergedLater, mem_iff_counts isMerged, decide_eq_true_iff]
    refine counts_iff_of_mem_iff (key ≤ ·) fun rank entry => ?_
    rw [Runs.held, left, List.mem_filter, decide_eq_true_iff]
    rfl
  subst isFilter
  obtain ⟨last, drains⟩ := walks.exists_drains
  obtain ⟨foundLast, laterDrains⟩ := laterWalks.exists_drains
  exact ⟨seen, last, found, foundLast, drains, sought, laterDrains⟩

/-- The merge of the contestants at their second key, which two of them stand at. -/
def secondContest : Merge Scripted :=
  (Cursor.next .empty (create .newestSequence contestants)).state

/-- Sought for the key that it stands at, this merge shows the same entry again, and what is behind
it. -/
theorem drains_seek_secondContest :
    ∃ seen last found foundLast, Drains .empty shown? secondContest seen last ∧
      Cursor.seek .empty ⟨[97]⟩ secondContest = .done found ∧
      Drains .empty shown? found (seen.filter fun shown => ⟨[97]⟩ ≤ shown.2.key) foundLast ∧
      (0, ⟨⟨[97]⟩, 5, .put, [1]⟩) ∈ seen.filter fun shown => ⟨[97]⟩ ≤ shown.2.key := by
  have shows : shown? secondContest = some (0, ⟨⟨[97]⟩, 5, .put, [1]⟩) := by decide +kernel
  have ranges : List.Forall₂ (fun source entries => Ranges .empty entries source entries)
      contestants contested := by
    rw [contestants, List.forall₂_map_left_iff, List.forall₂_same]
    have ascends : ∀ entries ∈ contested, Ascending entries := by unfold Ascending; decide
    exact fun entries member => Scripted.ranges (ascends entries member) rfl rfl rfl rfl
  have ahead : IsAhead ⟨[97]⟩ secondContest := by
    intro entry here
    rw [showing?_eq_map_shown?, shows] at here
    cases here
    exact le_refl _
  obtain ⟨seen, last, found, foundLast, drains, sought, drainsFound⟩ :=
    drains_seek .newestSequence ranges (by unfold Ascending; decide) (.moves .stays) ahead
  refine ⟨seen, last, found, foundLast, drains, sought, drainsFound, ?_⟩
  cases drains with
  | atEnd nothing => cases shows.symm.trans nothing
  | goesOn here _ _ =>
    cases shows.symm.trans here
    exact List.mem_filter.mpr ⟨List.mem_cons_self, by decide⟩

end Merge

end SortedTables
