import SortedTables.Proofs.Cursor.MergeSteps
import SortedTables.Proofs.Cursor.Runs
import SortedTables.Proofs.Cursor.Walk

/-!
# What a merge walks through

`Merge.walks_of_follows` says that a merge walks through what the runs of its sources are merged to.
The invariant `Merge.Follows` relates a merge to these runs. `Follows.next` is its step: moving on
from a key either meets a source that fails there, or leaves a merge that follows what is left of
the runs behind that key.
-/

namespace SortedTables

namespace Ranked

variable {σ : Type} [Cursor σ] {policy : DuplicatePolicy}

/-- What is shown at an entry. -/
theorem shown_of_showing? {source : Ranked σ} {entry : Entry}
    (here : Cursor.showing? source.source = some entry) :
    source.shown = ⟨source.rank, .ofEntry entry⟩ := by
  rw [shown, View.eq_ofEntry here]

/-- One of two sources does not go before the other exactly if its key is larger, or if it does not
count. -/
theorem goesBefore_eq_false_iff {rank rivalRank : Nat} {entry rival : Entry} :
    goesBefore policy ⟨rivalRank, .ofEntry rival⟩ ⟨rank, .ofEntry entry⟩ = false ↔
      entry.key < rival.key ∨ rival.key = entry.key ∧ policy.Prefers rank entry rivalRank rival := by
  have compared : beats policy ⟨rivalRank, .ofEntry rival⟩ ⟨rank, .ofEntry entry⟩ = false ↔
      policy.Prefers rank entry rivalRank rival := by
    cases policy with
    | lastListed => simp [beats, DuplicatePolicy.Prefers]
    | newestSequence =>
      simp only [beats, View.ofEntry, DuplicatePolicy.Prefers, Bool.or_eq_false_iff,
        Bool.and_eq_false_imp, decide_eq_false_iff_not, not_lt]
      grind
  have keyOf (stored : Entry) : (View.ofEntry stored).key = stored.key := rfl
  rcases lt_trichotomy entry.key rival.key with above | same | below
  · simp [goesBefore, keyOf, above, not_lt_of_gt above, ne_of_gt above]
  · simp [goesBefore, keyOf, ← same, compared]
  · simp [goesBefore, keyOf, below, not_lt_of_gt below, ne_of_lt below]

/-- If neither of two pairs of neighbours is out of order, the outer ones are not either. -/
theorem goesBefore_trans {first second third : Ranked View}
    (left : goesBefore policy third second = false) (right : goesBefore policy second first = false) :
    goesBefore policy third first = false := by
  cases policy <;> simp only [goesBefore, beats] at left right ⊢ <;> grind

/-- Of two sources only one goes before the other. -/
theorem goesBefore_asymm {first second : Ranked View}
    (before : goesBefore policy first second = true) : goesBefore policy second first = false := by
  cases policy <;> simp only [goesBefore, beats] at before ⊢ <;> grind

/-- No source goes before itself. -/
theorem goesBefore_self (view : Ranked View) : goesBefore policy view view = false := by
  cases policy <;> simp [goesBefore, beats]

/-- The source that is taken first has none of the others before it. -/
theorem goesBefore_of_takeFirst {sources others : List (Ranked σ)} {best : Ranked σ}
    (taken : takeFirst policy sources = some (best, others)) :
    ∀ source ∈ others, goesBefore policy source.shown best.shown = false := by
  induction sources generalizing best others with
  | nil => cases taken
  | cons source sources ih =>
    unfold takeFirst at taken
    split at taken
    · cases taken
      intro other member
      cases member
    · next found rest recursive =>
      split at taken
      · next before =>
        cases taken
        intro other member
        rcases List.mem_cons.mp member with rfl | member
        · exact goesBefore_asymm before
        · exact ih recursive other member
      · next behind =>
        cases taken
        have ordered := Bool.eq_false_iff.mpr behind
        intro other member
        rcases List.mem_cons.mp member with rfl | member
        · exact ordered
        · exact goesBefore_trans (ih recursive other member) ordered

/-- No source goes before the one that is taken first, this one included. -/
theorem isFirst_of_takeFirst {sources others : List (Ranked σ)} {first : Ranked σ}
    (taken : takeFirst policy sources = some (first, others)) :
    ∀ source ∈ sources, goesBefore policy source.shown first.shown = false := by
  intro source member
  rcases List.mem_cons.mp ((perm_of_takeFirst taken).mem_iff.mpr member) with rfl | isOther
  · exact goesBefore_self _
  · exact goesBefore_of_takeFirst taken source isOther

/-- Nothing is taken only if there is nothing. -/
theorem eq_nil_of_takeFirst {sources : List (Ranked σ)} (none : takeFirst policy sources = none) :
    sources = [] := by
  cases sources with
  | nil => rfl
  | cons source sources =>
    unfold takeFirst at none
    split at none
    · cases none
    · split at none <;> cases none

end Ranked

namespace Merge

open Ranked Cursor

variable {σ : Type} [Cursor σ] {disk : Disk} {policy : DuplicatePolicy} {runs : Runs}

/-- Sources that stand at entries and walk through their runs. No place in the listing occurs
twice. -/
structure Standing (disk : Disk) (runs : Runs) (sources : List (Ranked σ)) : Prop where
  /-- Every source walks through its run. -/
  walks : ∀ source ∈ sources,
    Walks disk showing? source.source (runs source.rank).1 (runs source.rank).2
  /-- No source is used up. -/
  nonempty : ∀ source ∈ sources, (runs source.rank).1 ≠ []
  /-- No two sources have the same place. -/
  distinct : (sources.map Ranked.rank).Nodup

/-- Sources that are not among the given ones are used up. -/
def Covers (runs : Runs) (sources : List (Ranked σ)) : Prop :=
  ∀ rank, rank ∉ sources.map Ranked.rank → runs rank = ([], none)

omit [Cursor σ] in
/-- A place where something is left is that of one of the given sources. -/
theorem Covers.exists_source {sources : List (Ranked σ)} (covers : Covers runs sources) {rank : Nat}
    (left : runs rank ≠ ([], none)) : ∃ source ∈ sources, source.rank = rank := by
  by_contra unused
  apply left
  apply covers
  intro isUsed
  obtain ⟨source, isSource, same⟩ := List.mem_map.mp isUsed
  exact unused ⟨source, isSource, same⟩

omit [Cursor σ] in
/-- An entry to come is in the run of one of the given sources. -/
theorem Covers.exists_of_mem {sources : List (Ranked σ)} (covers : Covers runs sources) {rank : Nat}
    {entry : Entry} (coming : entry ∈ (runs rank).1) : ∃ source ∈ sources, source.rank = rank := by
  apply covers.exists_source
  intro spent
  rw [spent] at coming
  cases coming

/-- The order of sources does not matter. -/
theorem Standing.perm {left right : List (Ranked σ)} (standing : Standing disk runs left)
    (same : left.Perm right) : Standing disk runs right where
  walks source member := standing.walks source (same.mem_iff.mpr member)
  nonempty source member := standing.nonempty source (same.mem_iff.mpr member)
  distinct := (same.map Ranked.rank).nodup_iff.mp standing.distinct

/-- A source with a place of its own joins sources that stand. -/
theorem Standing.cons {sources : List (Ranked σ)} (standing : Standing disk runs sources)
    {source : Ranked σ} (walks : Walks disk showing? source.source (runs source.rank).1
      (runs source.rank).2)
    (nonempty : (runs source.rank).1 ≠ []) (alone : source.rank ∉ sources.map Ranked.rank) :
    Standing disk runs (source :: sources) where
  walks := List.forall_mem_cons.mpr ⟨walks, standing.walks⟩
  nonempty := List.forall_mem_cons.mpr ⟨nonempty, standing.nonempty⟩
  distinct := List.nodup_cons.mpr ⟨alone, standing.distinct⟩

/-- Without the first of them, sources stand as before, and its place does not occur among them. -/
theorem Standing.tail {source : Ranked σ} {sources : List (Ranked σ)}
    (standing : Standing disk runs (source :: sources)) :
    Standing disk runs sources ∧ source.rank ∉ sources.map Ranked.rank := by
  obtain ⟨alone, distinct⟩ := List.nodup_cons.mp standing.distinct
  exact ⟨⟨(List.forall_mem_cons.mp standing.walks).2, (List.forall_mem_cons.mp standing.nonempty).2,
    distinct⟩, alone⟩

/-- Sources that stand do so in any runs that agree at their places. -/
theorem Standing.congr {sources : List (Ranked σ)} (standing : Standing disk runs sources)
    {other : Runs} (same : ∀ source ∈ sources, other source.rank = runs source.rank) :
    Standing disk other sources where
  walks source member := by
    rw [same source member]
    exact standing.walks source member
  nonempty source member := by
    rw [same source member]
    exact standing.nonempty source member
  distinct := standing.distinct

/-- Sources show the first entries of their runs. -/
def Shows (runs : Runs) (sources : List (Ranked σ)) : Prop :=
  ∀ source ∈ sources, ∃ entry later ending, runs source.rank = (entry :: later, ending) ∧
    showing? source.source = some entry

/-- Sources that stand show the first entries of their runs. -/
theorem Standing.shows {sources : List (Ranked σ)} (standing : Standing disk runs sources) :
    Shows runs sources := by
  intro source member
  have walks := standing.walks source member
  obtain ⟨entry, later, whole⟩ := List.exists_cons_of_ne_nil (standing.nonempty source member)
  refine ⟨entry, later, (runs source.rank).2, Prod.ext whole rfl, ?_⟩
  rw [← walks.head?_eq, whole]
  rfl

/-- If no source goes before one that stands at an entry, no entry to come has a smaller key. -/
theorem Shows.le_of_first {sources : List (Ranked σ)} (shows : Shows runs sources)
    (ascends : ∀ rank, Ascending (runs rank).1) {first : Ranked σ} {least : Entry}
    (here : showing? first.source = some least)
    (isFirst : ∀ source ∈ sources, goesBefore policy source.shown first.shown = false) :
    ∀ source ∈ sources, ∀ entry ∈ (runs source.rank).1, least.key ≤ entry.key := by
  intro source member entry coming
  obtain ⟨head, later, ending, whole, shown⟩ := shows source member
  have ordered := isFirst source member
  rw [shown_of_showing? here, shown_of_showing? shown, goesBefore_eq_false_iff] at ordered
  have headLow : least.key ≤ head.key := by
    rcases ordered with below | ⟨same, _⟩
    · exact le_of_lt below
    · exact le_of_eq same.symm
  have ascending := ascends source.rank
  rw [whole] at ascending coming
  rcases List.mem_cons.mp coming with rfl | coming
  · exact headLow
  · exact le_trans headLow (le_of_lt ((List.pairwise_cons.mp ascending).1 entry coming))

/-- If no source goes before one that stands at an entry, that entry counts among those to come with
its key. -/
theorem Shows.prefers_of_first {sources : List (Ranked σ)} (shows : Shows runs sources)
    (ascends : ∀ rank, Ascending (runs rank).1) {first : Ranked σ} {least : Entry}
    (here : showing? first.source = some least)
    (isFirst : ∀ source ∈ sources, goesBefore policy source.shown first.shown = false) :
    ∀ source ∈ sources, ∀ entry ∈ (runs source.rank).1, entry.key = least.key →
      policy.Prefers first.rank least source.rank entry := by
  intro source member entry coming same
  obtain ⟨head, later, ending, whole, shown⟩ := shows source member
  have low := shows.le_of_first ascends here isFirst source member
  -- Behind the entry that the source stands at, keys are larger than the least one.
  have isHead : entry = head := by
    have ascending := ascends source.rank
    rw [whole] at ascending coming low
    rcases List.mem_cons.mp coming with isHead | behind
    · exact isHead
    · have above := (List.pairwise_cons.mp ascending).1 entry behind
      rw [same] at above
      exact absurd above (not_lt_of_ge (low head List.mem_cons_self))
  have ordered := isFirst source member
  rw [shown_of_showing? here, shown_of_showing? shown, goesBefore_eq_false_iff, ← isHead] at ordered
  rcases ordered with above | ⟨_, prefers⟩
  · exact absurd same (ne_of_gt above)
  · exact prefers

/-- If no source goes before one of them, this one shows an entry from which a merge can start. -/
theorem Shows.least {sources : List (Ranked σ)} (shows : Shows runs sources)
    (covers : Covers runs sources) (ascends : ∀ rank, Ascending (runs rank).1) {first : Ranked σ}
    (member : first ∈ sources)
    (isFirst : ∀ source ∈ sources, goesBefore policy source.shown first.shown = false) :
    ∃ entry later ending, runs first.rank = (entry :: later, ending) ∧
      showing? first.source = some entry ∧ runs.Least policy first.rank entry := by
  obtain ⟨entry, later, ending, whole, here⟩ := shows first member
  refine ⟨entry, later, ending, whole, here, ⟨?_, ?_⟩, ?_, ?_⟩
  · simp [Runs.held, whole]
  · intro rivalRank rival coming same
    obtain ⟨source, isUsed, rfl⟩ := covers.exists_of_mem coming
    exact shows.prefers_of_first ascends here isFirst source isUsed rival coming same
  · intro rank other coming
    obtain ⟨source, isUsed, rfl⟩ := covers.exists_of_mem coming
    exact shows.le_of_first ascends here isFirst source isUsed other coming
  · intro rank fails empty
    have left : runs rank ≠ ([], none) := by
      intro spent
      rw [spent] at fails
      exact fails rfl
    obtain ⟨source, isUsed, rfl⟩ := covers.exists_source left
    obtain ⟨_, _, _, whole, _⟩ := shows source isUsed
    rw [whole] at empty
    cases empty

/-- The key of a source is that of the entry it stands at. -/
theorem key_of_showing? {cursor : σ} {entry : Entry} (here : showing? cursor = some entry) :
    Cursor.key cursor = entry.key := by
  rw [Cursor.key, View.eq_ofEntry here]
  rfl

/-- A cursor stands at the first entry of what it walks through, if there is one. -/
theorem isValid_iff {cursor : σ} {seen : List Entry} {ending : Option Fault}
    (walks : Walks disk showing? cursor seen ending) : isValid cursor = true ↔ seen ≠ [] := by
  rw [isValid, ← View.isSome_showing?]
  change (showing? cursor).isSome = true ↔ seen ≠ []
  rw [← walks.head?_eq]
  cases seen <;> simp

/-- The source that is taken first stands at the least key to come, and the others stand beside
it. -/
theorem Standing.taken {sources others : List (Ranked σ)} {first : Ranked σ}
    (standing : Standing disk runs sources) (ascends : ∀ rank, Ascending (runs rank).1)
    (taken : takeFirst policy sources = some (first, others)) :
    ∃ entry later ending, runs first.rank = (entry :: later, ending) ∧
      showing? first.source = some entry ∧ Walks disk showing? first.source (entry :: later) ending ∧
      Standing disk runs others ∧ first.rank ∉ others.map Ranked.rank ∧
      ∀ source ∈ sources, ∀ stored ∈ (runs source.rank).1, entry.key ≤ stored.key := by
  have perm := perm_of_takeFirst taken
  have member : first ∈ sources := perm.mem_iff.mp List.mem_cons_self
  obtain ⟨entry, later, ending, whole, here⟩ := standing.shows first member
  obtain ⟨rest, alone⟩ := (standing.perm perm.symm).tail
  have walks := standing.walks first member
  rw [whole] at walks
  exact ⟨entry, later, ending, whole, here, walks, rest, alone,
    standing.shows.le_of_first ascends here (isFirst_of_takeFirst taken)⟩

/-- What passing over the duplicates of a key makes of waiting sources: they are all taken behind that
key, and left out if nothing is left of them. If that fails, a source fails behind that key. -/
def Passed (disk : Disk) (runs : Runs) (key : Key) (waiting : List (Ranked σ))
    (passed : Step (List (Ranked σ) × List (Ranked σ)) Fault) : Prop :=
  match passed.fault with
  | some fault => ∃ rank, runs.behind key rank = ([], some fault)
  | none =>
    Standing disk (runs.behind key) passed.state.1 ∧
      passed.state.1.map Ranked.rank ⊆ waiting.map Ranked.rank ∧
      ∀ rank ∈ waiting.map Ranked.rank, rank ∉ passed.state.1.map Ranked.rank →
        runs.behind key rank = ([], none)

/-- Sources that all stand behind a key are passed as they are. -/
theorem passed_of_lt {key : Key} {waiting released : List (Ranked σ)}
    (standing : Standing disk runs waiting)
    (above : ∀ source ∈ waiting, ∀ entry ∈ (runs source.rank).1, key < entry.key) :
    Passed disk runs key waiting (.done (waiting, released)) := by
  refine ⟨?_, fun _ member => member, ?_⟩
  · exact standing.congr fun source member => Runs.behind_of_lt (above source member)
  · intro rank member outside
    exact absurd member outside

/-- What is passed depends on the places of the waiting sources and on what is left of them behind
the key. Places that nothing is left of can be added. -/
theorem Passed.congr {key : Key} {few many : List (Ranked σ)} {other : Runs}
    {passed : Step (List (Ranked σ) × List (Ranked σ)) Fault}
    (passedFew : Passed disk runs key few passed)
    (same : runs.behind key = other.behind key)
    (ranks : few.map Ranked.rank ⊆ many.map Ranked.rank)
    (added : ∀ rank ∈ many.map Ranked.rank, rank ∉ few.map Ranked.rank →
      other.behind key rank = ([], none)) :
    Passed disk other key many passed := by
  unfold Passed at passedFew ⊢
  rw [← same]
  rw [← same] at added
  cases ended : passed.fault with
  | some fault => simpa [ended] using passedFew
  | none =>
    simp only [ended] at passedFew ⊢
    obtain ⟨standing, kept, dropped⟩ := passedFew
    refine ⟨standing, List.Subset.trans kept ranks, ?_⟩
    intro rank member outside
    by_cases before : rank ∈ few.map Ranked.rank
    · exact dropped rank before outside
    · exact added rank member before

/-- Passing over the duplicates of a key leaves the sources as described, if none of them stands
before that key. -/
theorem passed_passDuplicates (key : Key) (waiting released : List (Ranked σ)) :
    ∀ runs : Runs, Standing disk runs waiting → (∀ rank, Ascending (runs rank).1) →
      (∀ source ∈ waiting, ∀ entry ∈ (runs source.rank).1, key ≤ entry.key) →
      Passed disk runs key waiting (passDuplicates disk policy key waiting released) := by
  fun_induction passDuplicates disk policy key waiting released with
  | case1 waiting released none =>
    intro runs standing ascends low
    apply passed_of_lt standing
    intro source member
    rw [eq_nil_of_takeFirst none] at member
    cases member
  | case2 waiting released first others taken same step moved fault failed =>
    intro runs standing ascends low
    obtain ⟨entry, later, ending, whole, here, walks, _⟩ := standing.taken ascends taken
    obtain ⟨rfl, rfl⟩ := walks.of_failed rfl failed
    refine ⟨first.rank, ?_⟩
    rw [← same, key_of_showing? here]
    exact Runs.behind_of_cons whole (ascends _)
  | case3 waiting released first others taken same step moved fault valid ih =>
    intro runs standing ascends low
    have perm := perm_of_takeFirst taken
    obtain ⟨entry, later, ending, whole, here, walks, rest, alone, _⟩ :=
      standing.taken ascends taken
    have onward : Walks disk showing? step.state later ending := walks.tail rfl fault
    have isKey : entry.key = key := (key_of_showing? here).symm.trans same
    -- What is left of the source that moved is its run without the entry it stood at.
    let onwards : Runs := Function.update runs first.rank (later, ending)
    have moves : onwards moved.rank = (later, ending) := Function.update_self ..
    have beside : Standing disk onwards others := by
      refine rest.congr fun source isOther => Function.update_of_ne ?_ ..
      intro isMoved
      exact alone (isMoved ▸ List.mem_map_of_mem isOther)
    have ranks : ∀ rank, rank ∈ (moved :: others).map Ranked.rank ↔
        rank ∈ waiting.map Ranked.rank := fun rank => (perm.map Ranked.rank).mem_iff
    have same : onwards.behind key = runs.behind key := by
      rw [← isKey]
      exact Runs.behind_update whole
    refine Passed.congr (ih onwards (beside.cons ?_ ?_ alone)
      (Runs.ascending_update whole ascends) ?_) same (fun rank => (ranks rank).mp) ?_
    · rw [moves]
      exact onward
    · rw [moves]
      exact (isValid_iff onward).mp valid
    · intro source waits stored coming
      obtain ⟨original, member, sameRank⟩ := List.mem_map.mp
        ((ranks _).mp (List.mem_map_of_mem (f := Ranked.rank) waits))
      exact low original member stored (sameRank ▸ Runs.subset_of_update whole _ coming)
    · exact fun rank waits absent => absurd ((ranks rank).mpr waits) absent
  | case4 waiting released first others taken same step moved fault invalid ih =>
    intro runs standing ascends low
    have perm := perm_of_takeFirst taken
    obtain ⟨entry, later, ending, whole, here, walks, rest, _⟩ := standing.taken ascends taken
    have onward : Walks disk showing? step.state later ending := walks.tail rfl fault
    have usedUp : later = [] := by
      by_contra more
      exact invalid ((isValid_iff onward).mpr more)
    have nothing : runs.behind key first.rank = ([], none) := by
      rw [← same, key_of_showing? here, Runs.behind_of_cons whole (ascends _), usedUp,
        onward.ending_eq_none usedUp]
    have ranks (rank : Nat) := (perm.map Ranked.rank).mem_iff (a := rank)
    refine Passed.congr (ih runs rest ascends ?_) rfl ?_ ?_
    · exact fun source isOther => low source (perm.mem_iff.mp (List.mem_cons_of_mem _ isOther))
    · exact fun rank isOther => (ranks rank).mp (List.mem_cons_of_mem _ isOther)
    · intro rank waits noOther
      rcases List.mem_cons.mp ((ranks rank).mpr waits) with rfl | isOther
      · exact nothing
      · exact absurd isOther noOther
  | case5 waiting released first others taken other =>
    intro runs standing ascends low
    have member : first ∈ waiting := (perm_of_takeFirst taken).mem_iff.mp List.mem_cons_self
    obtain ⟨entry, later, ending, whole, here, _, _, _, least⟩ := standing.taken ascends taken
    have above : key < entry.key := by
      apply lt_of_le_of_ne (low first member entry (by rw [whole]; exact List.mem_cons_self))
      exact fun same => other ((key_of_showing? here).trans same.symm)
    apply passed_of_lt standing
    intro source waits stored coming
    exact lt_of_lt_of_le above (least source waits stored coming)

/-- What a merge shows at an entry, with the place of the source in the listing. -/
def shown? (merge : Merge σ) : Option (Nat × Entry) :=
  merge.current.bind fun current => (showing? current.source).map fun entry => (current.rank, entry)

/-- The entry that a merge stands at is that of its current source. -/
theorem showing?_eq_map_shown? (merge : Merge σ) : showing? merge = (shown? merge).map Prod.snd := by
  unfold showing? shown?
  change View.showing? (Merge.view merge) = _
  unfold Merge.view
  cases merge.current with
  | none => rfl
  | some current =>
    change showing? current.source = _
    cases here : showing? current.source <;> simp [here]

/-- A merge follows the runs of its sources: those in use stand and walk through their runs, the
others are used up, and none goes before the current one. -/
structure Follows (disk : Disk) (runs : Runs) (merge : Merge σ) : Prop where
  /-- Sources in use walk through their runs. -/
  standing : Standing disk runs merge.inUse
  /-- All others are used up. -/
  covers : Covers runs merge.inUse
  /-- Runs ascend. -/
  ascends : ∀ rank, Ascending (runs rank).1
  /-- No waiting source goes before the current one. -/
  first : ∀ current, merge.current = some current → ∀ source ∈ merge.waiting,
    goesBefore merge.policy source.shown current.shown = false
  /-- Without a current source there are no waiting ones. -/
  spent : merge.current = none → merge.waiting = []

/-- Selecting the first of the waiting sources makes a merge follow their runs. -/
theorem follows_select {merge : Merge σ} (standing : Standing disk runs merge.waiting)
    (covers : Covers runs merge.waiting) (ascends : ∀ rank, Ascending (runs rank).1) :
    Follows disk runs merge.select := by
  unfold select
  cases taken : takeFirst merge.policy merge.waiting with
  | none =>
    have empty := eq_nil_of_takeFirst taken
    exact ⟨by simpa [inUse] using standing, by simpa [inUse] using covers, ascends, by simp,
      fun _ => empty⟩
  | some found =>
    obtain ⟨best, others⟩ := found
    have perm := perm_of_takeFirst taken
    refine ⟨?_, ?_, ascends, ?_, by simp⟩
    · exact standing.perm perm.symm
    · intro rank outside
      exact covers rank fun waits => outside ((perm.map Ranked.rank).mem_iff.mpr waits)
    · intro current isBest source member
      cases isBest
      exact goesBefore_of_takeFirst taken source member

/-- Sources that enter a merge stand in it beside the waiting ones. Those left out are used up. -/
theorem standing_foldl_enter (entering : List (Ranked σ)) (merge : Merge σ)
    (standing : Standing disk runs merge.waiting)
    (walks : ∀ source ∈ entering,
      Walks disk showing? source.source (runs source.rank).1 (runs source.rank).2)
    (distinct : (entering.map Ranked.rank).Nodup)
    (apart : ∀ source ∈ entering, source.rank ∉ merge.waiting.map Ranked.rank) :
    let entered := (entering.foldl (fun merge source => enter source merge) merge).waiting
    Standing disk runs entered ∧
      ∀ rank, rank ∈ entering.map Ranked.rank ∨ rank ∈ merge.waiting.map Ranked.rank →
        rank ∉ entered.map Ranked.rank → runs rank = ([], none) := by
  have mem_entered (source : Ranked σ) : source ∈ (entering.filter fun source =>
      isValid source.source).reverse ++ merge.waiting ↔
        (source ∈ entering ∧ isValid source.source = true) ∨ source ∈ merge.waiting := by
    rw [List.mem_append, List.mem_reverse, List.mem_filter]
  rw [waiting_foldl_enter]
  refine ⟨⟨?_, ?_, ?_⟩, ?_⟩
  · intro source member
    rcases (mem_entered source).mp member with ⟨enters, _⟩ | waits
    · exact walks source enters
    · exact standing.walks source waits
  · intro source member
    rcases (mem_entered source).mp member with ⟨enters, valid⟩ | waits
    · exact (isValid_iff (walks source enters)).mp valid
    · exact standing.nonempty source waits
  · rw [List.map_append, List.map_reverse, List.nodup_append, List.nodup_reverse]
    refine ⟨distinct.sublist (List.filter_sublist.map _), standing.distinct, ?_⟩
    rintro rank enters _ waits rfl
    obtain ⟨source, member, rfl⟩ := List.mem_map.mp (List.mem_reverse.mp enters)
    exact apart source (List.mem_filter.mp member).1 waits
  · rintro rank (enters | waits) outside
    · obtain ⟨source, member, rfl⟩ := List.mem_map.mp enters
      have invalid : ¬ isValid source.source = true := fun valid =>
        outside (List.mem_map_of_mem ((mem_entered source).mpr (.inl ⟨member, valid⟩)))
      have usedUp : (runs source.rank).1 = [] := by
        by_contra more
        exact invalid ((isValid_iff (walks source member)).mpr more)
      exact Prod.ext usedUp ((walks source member).ending_eq_none usedUp)
    · obtain ⟨source, member, rfl⟩ := List.mem_map.mp waits
      exact absurd (List.mem_map_of_mem ((mem_entered source).mpr (.inr member))) outside

/-- No source in use goes before the current one. -/
theorem Follows.isFirst {merge : Merge σ} (follows : Follows disk runs merge) {current : Ranked σ}
    (standing : merge.current = some current) :
    ∀ source ∈ merge.inUse, goesBefore merge.policy source.shown current.shown = false := by
  intro source isUsed
  have inUse : merge.inUse = current :: merge.waiting := by simp [Merge.inUse, standing]
  rw [inUse] at isUsed
  rcases List.mem_cons.mp isUsed with rfl | waits
  · exact goesBefore_self _
  · exact follows.first current standing source waits

/-- The entry of the current source is the least one to come, and counts. -/
theorem Follows.least {merge : Merge σ} (follows : Follows disk runs merge) {current : Ranked σ}
    (standing : merge.current = some current) :
    ∃ entry later ending, runs current.rank = (entry :: later, ending) ∧
      showing? current.source = some entry ∧
      Walks disk showing? current.source (entry :: later) ending ∧
      runs.Least merge.policy current.rank entry := by
  have member : current ∈ merge.inUse := by simp [Merge.inUse, standing]
  obtain ⟨entry, later, ending, whole, here, least⟩ :=
    follows.standing.shows.least follows.covers follows.ascends member (follows.isFirst standing)
  have walks := follows.standing.walks current member
  rw [whole] at walks
  exact ⟨entry, later, ending, whole, here, walks, least⟩

/-- With all sources taken behind a key, a merge follows what is left of the runs there. -/
theorem Follows.moved {merge : Merge σ} {current : Ranked σ} {key : Key}
    {passed : List (Ranked σ) × List (Ranked σ)} (follows : Follows disk runs merge)
    (standing : merge.current = some current)
    (others : Passed disk runs key merge.waiting (.done passed))
    {moved : σ} (walks : Walks disk showing? moved (runs.behind key current.rank).1
      (runs.behind key current.rank).2) :
    Follows disk (runs.behind key)
      (({ merge with waiting := passed.1, released := passed.2 } : Merge σ).enter
        { current with source := moved }).select := by
  have inUse : merge.inUse = current :: merge.waiting := by simp [Merge.inUse, standing]
  have distinct := follows.standing
  rw [inUse] at distinct
  obtain ⟨_, alone⟩ := distinct.tail
  obtain ⟨stays, kept, dropped⟩ := others
  let moves : Ranked σ := { current with source := moved }
  let passing : Merge σ := { merge with waiting := passed.1, released := passed.2 }
  obtain ⟨entered, leftOut⟩ := standing_foldl_enter [moves] passing stays
    (List.forall_mem_singleton.mpr walks) (List.nodup_singleton _)
    (List.forall_mem_singleton.mpr fun member => alone (kept member))
  refine follows_select entered ?_ ?_
  · intro rank outside
    by_cases here : rank = current.rank ∨ rank ∈ passed.1.map Ranked.rank
    · exact leftOut rank (here.imp_left List.mem_singleton.mpr) outside
    · rw [not_or] at here
      by_cases waits : rank ∈ merge.waiting.map Ranked.rank
      · exact dropped rank waits here.2
      · have usedUp : runs rank = ([], none) := by
          apply follows.covers
          rw [inUse, List.map_cons, List.mem_cons]
          exact not_or.mpr ⟨here.1, waits⟩
        simp [Runs.behind, usedUp]
  · exact Runs.ascending_behind follows.ascends key

/-- Moving on from the least entry either meets a source that fails behind its key, or makes the
merge follow what is left of the runs behind it. -/
theorem Follows.next {merge : Merge σ} (follows : Follows disk runs merge) {rank : Nat}
    {entry : Entry} (shown : shown? merge = some (rank, entry)) :
    match (Cursor.next disk merge).fault with
    | some fault => ∃ failing, runs.behind entry.key failing = ([], some fault)
    | none => Follows disk (runs.behind entry.key) (Cursor.next disk merge).state ∧
        (Cursor.next disk merge).state.policy = merge.policy := by
  obtain ⟨current, standing, isShown⟩ := Option.bind_eq_some_iff.mp shown
  obtain ⟨least, later, ending, whole, here, walks, isLeast⟩ := follows.least standing
  have isEntry : least = entry := by
    rw [here] at isShown
    cases isShown
    rfl
  subst isEntry
  have isKey := key_of_showing? here
  have inUse : merge.inUse = current :: merge.waiting := by simp [Merge.inUse, standing]
  have distinct := follows.standing
  rw [inUse] at distinct
  have passing : Passed disk runs least.key merge.waiting
      (passDuplicates disk merge.policy least.key merge.waiting merge.released) :=
    passed_passDuplicates _ _ _ runs distinct.tail.1 follows.ascends
      (fun source _ => isLeast.low source.rank)
  have behind := Runs.behind_of_cons whole (follows.ascends _)
  have goes := goes_next disk merge
  generalize Cursor.next disk merge = step at goes ⊢
  cases goes with
  | stays nothing => cases standing.symm.trans nothing
  | fails standing' failed =>
    cases standing.symm.trans standing'
    rw [isKey] at failed
    rw [failed] at passing
    exact passing
  | failsLast standing' _ failed =>
    cases standing.symm.trans standing'
    obtain ⟨rfl, rfl⟩ := walks.of_failed rfl failed
    exact ⟨current.rank, behind⟩
  | moves standing' passes moved =>
    cases standing.symm.trans standing'
    rw [isKey] at passes
    rw [passes] at passing
    have onward : Walks disk showing? (Cursor.next disk current.source).state
        (runs.behind least.key current.rank).1 (runs.behind least.key current.rank).2 := by
      rw [behind]
      exact walks.tail rfl moved
    exact ⟨follows.moved standing passing onward, (policy_select _).trans (policy_enter _ _)⟩

/-- A merge that follows runs gets nearer to its end with every move. -/
theorem Follows.budget_lt {merge : Merge σ} {current : Ranked σ}
    (standing : merge.current = some current) {runs : Runs}
    (moved : (Cursor.next disk merge).fault = none)
    (follows : Follows disk runs (Cursor.next disk merge).state) :
    Cursor.budget (Cursor.next disk merge).state < Cursor.budget merge := by
  cases reached : (Cursor.next disk merge).state.current with
  | none =>
    have spent : Cursor.budget (Cursor.next disk merge).state = 0 := by
      change Merge.budget _ = 0
      simp [Merge.budget, Merge.inUse, reached, follows.spent reached, totalBudget]
    have positive : 0 < Cursor.budget merge := by
      change 0 < Merge.budget _
      simp only [Merge.budget, Merge.inUse, standing, Option.toList_some, List.singleton_append,
        totalBudget_cons]
      omega
    omega
  | some next =>
    obtain ⟨entry, _, _, _, here, _⟩ := follows.least reached
    apply Cursor.budget_next_lt disk merge moved
    change (Merge.view _).valid = true
    rw [Merge.view, reached]
    simp only [View.eq_ofEntry here, View.ofEntry]

/-- A merge that follows the runs of its sources walks through what they are merged to. -/
theorem walks_of_follows {merge : Merge σ} {runs : Runs} (follows : Follows disk runs merge) :
    ∃ seen ending, Walks disk shown? merge seen ending ∧
      Merged merge.policy runs seen ending := by
  cases standing : merge.current with
  | none =>
    have nothing : shown? merge = none := by simp [shown?, standing]
    have spent (rank : Nat) : runs rank = ([], none) := by
      apply follows.covers
      simp [inUse, standing, follows.spent standing]
    exact ⟨[], none, .atEnd nothing, merged_nil spent⟩
  | some current =>
    obtain ⟨entry, _, _, _, here, _, least⟩ := follows.least standing
    have shown : shown? merge = some (current.rank, entry) := by simp [shown?, standing, here]
    have next := follows.next shown
    cases moved : (Cursor.next disk merge).fault with
    | some fault =>
      rw [moved] at next
      obtain ⟨failing, fails⟩ := next
      exact ⟨_, _, .fails shown moved, merged_of_failed follows.ascends least fails⟩
    | none =>
      rw [moved] at next
      obtain ⟨onwards, samePolicy⟩ := next
      have nearer := onwards.budget_lt standing moved
      obtain ⟨seen, ending, walks, merged⟩ := walks_of_follows onwards
      rw [samePolicy] at merged
      exact ⟨_, _, .goesOn shown moved walks, merged_cons follows.ascends least merged⟩
termination_by Cursor.budget merge

/-- If no source fails, the merge does not either. -/
theorem Follows.exists_walks {merge : Merge σ} (follows : Follows disk runs merge)
    (fine : ∀ rank, (runs rank).2 = none) :
    ∃ seen, Walks disk shown? merge seen none ∧ Merged merge.policy runs seen none := by
  obtain ⟨seen, ending, walks, isMerged⟩ := walks_of_follows follows
  cases ending with
  | none => exact ⟨seen, walks, isMerged⟩
  | some fault =>
    obtain ⟨rank, fails⟩ := isMerged.failed fault rfl
    cases (fine rank).symm.trans fails

/-- A merge that was just made has the policy it was given. -/
theorem policy_create (sources : List σ) : (create policy sources).policy = policy :=
  (policy_select _).trans (policy_foldl_enter _ _)

omit [Cursor σ] in
/-- Sources are given the places of a listing. -/
theorem map_rank_zipIdx (sources : List σ) :
    (sources.zipIdx.map fun listed => (⟨listed.2, listed.1⟩ : Ranked σ)).map Ranked.rank =
      List.range sources.length := by
  rw [List.map_map, List.range_eq_range']
  exact List.zipIdx_map_snd 0 sources

/-- A merge that was just made follows the runs of its sources. -/
theorem follows_create {sources : List σ}
    (walks : ∀ rank source, sources[rank]? = some source →
      Walks disk showing? source (runs rank).1 (runs rank).2)
    (ascends : ∀ rank, Ascending (runs rank).1)
    (spent : ∀ rank, sources.length ≤ rank → runs rank = ([], none)) :
    Follows disk runs (create policy sources) := by
  let ranked := sources.zipIdx.map fun listed => (⟨listed.2, listed.1⟩ : Ranked σ)
  have ranks : ranked.map Ranked.rank = List.range sources.length := map_rank_zipIdx sources
  have nothing : Standing disk runs ([] : List (Ranked σ)) := ⟨by simp, by simp, by simp⟩
  obtain ⟨standing, leftOut⟩ := standing_foldl_enter ranked ⟨policy, [], none, []⟩ nothing
    (by
      intro source member
      obtain ⟨⟨inner, rank⟩, isSource, rfl⟩ := List.mem_map.mp member
      exact walks rank inner (List.mem_zipIdx_iff_getElem?.mp isSource))
    (by
      rw [ranks]
      exact List.nodup_range)
    (by simp)
  refine follows_select standing ?_ ascends
  intro rank outside
  by_cases listed : rank < sources.length
  · exact leftOut rank (Or.inl (by rw [ranks]; exact List.mem_range.mpr listed)) outside
  · exact spent rank (Nat.le_of_not_lt listed)

end Merge

end SortedTables
