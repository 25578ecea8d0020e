import Mathlib.Algebra.GroupWithZero.Nat
import Mathlib.Data.List.Perm.Basic
import SortedTables.Proofs.Cursor.Bounding
import SortedTables.Proofs.Cursor.Conveying
import SortedTables.Proofs.Cursor.FailingSources

/-!
# Trying a failed move again

A source may fail to move, stay where it is, and move when it is tried again. `Cursor.Persists` is the
walk of a consumer that does so until the move succeeds, with the number of faults that it meets. A
merge of such sources fails in the middle of a move: some duplicates of the current key have been passed
over, one has failed, and the current source has not been moved yet, or has failed last of all.

So between a fault and the move that succeeds, sources stand at the current key or behind it
(`Merge.Midway`), whichever way they got there. This is all that the next try needs to know, and the
invariant `Merge.Withstands` says no more: what is left of the sources is what was left when the current
one was chosen. A try that fails uses up a fault of some source, so that only finitely many tries fail
(`Merge.persists_create`).
-/

namespace SortedTables

/-- The elements of related lists are related. -/
theorem exists_of_forall₂ {α β : Type} {R : α → β → Prop} {elements : List α} {others : List β}
    (related : List.Forall₂ R elements others) {element : α} (member : element ∈ elements) :
    ∃ other, R element other := by
  obtain ⟨place, found⟩ := List.getElem?_of_mem member
  obtain ⟨other, _, isRelated⟩ := exists_getElem?_of_forall₂ related found
  exact ⟨other, isRelated⟩

/-- Where all elements are related to something, so is the list of them. -/
theorem exists_forall₂_of_mem {α β : Type} {R : α → β → Prop} {elements : List α}
    (related : ∀ element ∈ elements, ∃ other, R element other) :
    ∃ others, List.Forall₂ R elements others := by
  induction elements with
  | nil => exact ⟨[], .nil⟩
  | cons element later ih =>
    obtain ⟨here, there⟩ := List.forall_mem_cons.mp related
    obtain ⟨other, isRelated⟩ := here
    obtain ⟨others, areRelated⟩ := ih there
    exact ⟨other :: others, .cons isRelated areRelated⟩

namespace Cursor

variable {σ α : Type} [Cursor σ] {disk : Disk} {look : σ → Option α} {cursor : σ} {seen : List α}
  {faults : Nat}

/-- What is seen of a cursor that is moved until it stands nowhere, each move being tried again until it
succeeds, and how many tries fail. A try that fails leaves the cursor at its place. -/
inductive Persists (disk : Disk) (look : σ → Option α) : σ → List α → Nat → Prop where
  | atEnd {cursor : σ} (nothing : look cursor = none) : Persists disk look cursor [] 0
  | fails {cursor : σ} {shown : α} {later : List α} {faults : Nat} (here : look cursor = some shown)
      (failed : (next disk cursor).fault ≠ none)
      (again : Persists disk look (next disk cursor).state (shown :: later) faults) :
      Persists disk look cursor (shown :: later) (faults + 1)
  | goesOn {cursor : σ} {shown : α} {later : List α} {faults : Nat}
      (here : look cursor = some shown) (moved : (next disk cursor).fault = none)
      (rest : Persists disk look (next disk cursor).state later faults) :
      Persists disk look cursor (shown :: later) faults

namespace Persists

/-- What is seen first is what the cursor shows. -/
theorem head?_eq (persists : Persists disk look cursor seen faults) : seen.head? = look cursor := by
  cases persists with
  | atEnd nothing => exact nothing.symm
  | fails here _ _ => exact here.symm
  | goesOn here _ _ => exact here.symm

/-- A move that succeeds leads on to what was behind the first place. -/
theorem moved {shown : α} {later : List α}
    (persists : Persists disk look cursor (shown :: later) faults)
    (moved : (Cursor.next disk cursor).fault = none) :
    Persists disk look (Cursor.next disk cursor).state later faults := by
  cases persists with
  | fails _ failed _ => exact absurd moved failed
  | goesOn _ _ rest => exact rest

/-- A try that fails leaves the same to be seen, and one fault less. -/
theorem failed {shown : α} {later : List α}
    (persists : Persists disk look cursor (shown :: later) faults)
    (failed : (Cursor.next disk cursor).fault ≠ none) :
    ∃ fewer < faults, Persists disk look (Cursor.next disk cursor).state (shown :: later) fewer := by
  cases persists with
  | @fails _ _ _ fewer _ _ again => exact ⟨fewer, Nat.lt_succ_self fewer, again⟩
  | goesOn _ moved _ => exact absurd moved failed

/-- A cursor stands at an entry if one is left. -/
theorem isValid_iff {left : List Entry} (persists : Persists disk showing? cursor left faults) :
    isValid cursor = true ↔ left ≠ [] := by
  rw [isValid, ← View.isSome_showing?]
  change (showing? cursor).isSome = true ↔ left ≠ []
  rw [← persists.head?_eq]
  cases left <;> simp

/-- Nothing is left where a cursor stands at no entry. -/
theorem eq_nil {left : List Entry} (persists : Persists disk showing? cursor left faults)
    (invalid : ¬ isValid cursor = true) : left = [] := by
  by_contra more
  exact invalid (persists.isValid_iff.mpr more)

end Persists

end Cursor

/-- A scripted cursor fails once at most, so it is had to the end by trying again. -/
theorem Scripted.exists_persists {cursor : Scripted} {disk : Disk} {left : List Entry}
    (isLeft : cursor.entries.drop cursor.index = left) :
    ∃ faults, Cursor.Persists disk Cursor.showing? cursor left faults := by
  induction left generalizing cursor with
  | nil =>
    refine ⟨0, .atEnd ?_⟩
    rw [showing?_eq, ← List.head?_drop, isLeft]
    rfl
  | cons entry later ih =>
    obtain ⟨here, isLater⟩ := getElem?_of_drop isLeft
    have goesOn (cursor : Scripted) (here : cursor.entries[cursor.index]? = some entry)
        (isLater : cursor.entries.drop (cursor.index + 1) = later)
        (fine : cursor.failingAdvance ≠ some (cursor.advances + 1)) :
        ∃ faults, Cursor.Persists disk Cursor.showing? cursor (entry :: later) faults := by
      have moves := next_of_getElem? disk here fine
      have reached : (Cursor.next disk cursor).state.entries.drop
          (Cursor.next disk cursor).state.index = later := by
        rw [moves]
        exact isLater
      obtain ⟨faults, rest⟩ := ih reached
      exact ⟨faults, .goesOn ((showing?_eq cursor).trans here) (by rw [moves]; rfl) rest⟩
    by_cases fails : cursor.failingAdvance = some (cursor.advances + 1)
    · have stays : Cursor.next disk cursor = .failed { cursor with advances := cursor.advances + 1 }
          (.scripted cursor.name .advance) := by
        change Scripted.next cursor = _
        simp [Scripted.next, fails]
      obtain ⟨faults, rest⟩ :=
        goesOn { cursor with advances := cursor.advances + 1 } here isLater (by simp [fails])
      refine ⟨faults + 1, .fails ((showing?_eq cursor).trans here) (by rw [stays]; simp) ?_⟩
      rw [stays]
      exact rest
    · exact goesOn cursor here isLater fails

namespace Merge

open Ranked Cursor

variable {σ : Type} [Cursor σ] {disk : Disk} {policy : DuplicatePolicy} {runs : Runs} {key : Key}
  {source : Ranked σ} {faults : Nat}

/-! ## Sources -/

/-- A source stands at the first entry of its run, which has no fault behind it, and is had to the end of
the run in spite of some faults. -/
def Endures (disk : Disk) (runs : Runs) (source : Ranked σ) (faults : Nat) : Prop :=
  ∃ entry later, runs source.rank = (entry :: later, none) ∧
    Persists disk showing? source.source (entry :: later) faults

/-- While the duplicates of a key are passed over, a source stands where it stood before or behind that
key. -/
def Midway (disk : Disk) (runs : Runs) (key : Key) (source : Ranked σ) (faults : Nat) : Prop :=
  Endures disk runs source faults ∨ Endures disk (runs.behind key) source faults

/-- A source that stands at an entry endures if it is had to the end of its run. -/
theorem endures_of_valid {left : List Entry} (whole : runs source.rank = (left, none))
    (persists : Persists disk showing? source.source left faults)
    (valid : isValid source.source = true) : Endures disk runs source faults := by
  obtain ⟨entry, later, rfl⟩ := List.exists_cons_of_ne_nil (persists.isValid_iff.mp valid)
  exact ⟨entry, later, whole, persists⟩

/-- A source that endures shows the first entry of its run. -/
theorem Endures.shows (endures : Endures disk runs source faults) :
    ∃ entry later, runs source.rank = (entry :: later, none) ∧
      showing? source.source = some entry := by
  obtain ⟨entry, later, whole, persists⟩ := endures
  exact ⟨entry, later, whole, persists.head?_eq.symm⟩

/-- A source that is moved goes on with what is behind its key. -/
theorem Endures.moved (endures : Endures disk runs source faults)
    (ascends : Ascending (runs source.rank).1)
    (moved : (Cursor.next disk source.source).fault = none) :
    ∃ later, runs.behind (Cursor.key source.source) source.rank = (later, none) ∧
      Persists disk showing? (Cursor.next disk source.source).state later faults := by
  obtain ⟨entry, later, whole, persists⟩ := endures
  refine ⟨later, ?_, persists.moved moved⟩
  rw [key_of_showing? persists.head?_eq.symm]
  exact Runs.behind_of_cons whole ascends

/-- A source that fails to move endures with one fault less. -/
theorem Endures.failed (endures : Endures disk runs source faults)
    (failed : (Cursor.next disk source.source).fault ≠ none) :
    ∃ fewer < faults,
      Endures disk runs ⟨source.rank, (Cursor.next disk source.source).state⟩ fewer := by
  obtain ⟨entry, later, whole, persists⟩ := endures
  obtain ⟨fewer, less, again⟩ := persists.failed failed
  exact ⟨fewer, less, entry, later, whole, again⟩

/-- A source that stands at the key has not been passed over. -/
theorem Midway.endures (midway : Midway disk runs key source faults)
    (same : Cursor.key source.source = key) : Endures disk runs source faults := by
  rcases midway with before | behind
  · exact before
  · obtain ⟨entry, later, whole, here⟩ := behind.shows
    have member : entry ∈ (runs.behind key source.rank).1 := by simp [whole]
    have above := of_decide_eq_true (List.mem_filter.mp member).2
    rw [key_of_showing? here] at same
    exact absurd same (ne_of_gt above)

/-- A source that stands behind the key walks through what is behind it. -/
theorem Midway.behind (midway : Midway disk runs key source faults)
    (ascends : Ascending (runs source.rank).1) (above : key < Cursor.key source.source) :
    Endures disk (runs.behind key) source faults := by
  rcases midway with before | behind
  · obtain ⟨entry, later, whole, persists⟩ := before
    rw [key_of_showing? persists.head?_eq.symm] at above
    refine ⟨entry, later, ?_, persists⟩
    rw [Runs.behind_of_lt, whole]
    intro stored coming
    rw [whole] at ascends coming
    rcases List.mem_cons.mp coming with rfl | coming
    · exact above
    · exact lt_trans above ((List.pairwise_cons.mp ascends).1 stored coming)
  · exact behind

/-- No source stands before the key if no entry is before it. -/
theorem Midway.le (midway : Midway disk runs key source faults)
    (low : ∀ entry ∈ (runs source.rank).1, key ≤ entry.key) :
    ∃ entry, showing? source.source = some entry ∧ key ≤ entry.key := by
  rcases midway with before | behind
  · obtain ⟨entry, later, whole, here⟩ := before.shows
    exact ⟨entry, here, low entry (by simp [whole])⟩
  · obtain ⟨entry, later, whole, here⟩ := behind.shows
    have member : entry ∈ (runs.behind key source.rank).1 := by simp [whole]
    exact ⟨entry, here, low entry (List.mem_filter.mp member).1⟩

/-! ## Passing over duplicates -/

/-- Sources and their faults can be looked at from the source that goes first. -/
theorem exists_cons_of_takeFirst {Kept : Ranked σ → Nat → Prop} {waiting others : List (Ranked σ)}
    {first : Ranked σ} {faults : List Nat} (kept : List.Forall₂ Kept waiting faults)
    (taken : takeFirst policy waiting = some (first, others)) :
    ∃ here there, Kept first here ∧ List.Forall₂ Kept others there ∧ here + there.sum = faults.sum := by
  obtain ⟨same, kept, permuted⟩ := List.perm_comp_forall₂ (perm_of_takeFirst taken) kept
  cases kept with
  | @cons _ here _ there isKept areKept =>
    exact ⟨here, there, isKept, areKept, by rw [← permuted.sum_nat, List.sum_cons]⟩

/-- What a try to pass over the duplicates of a key makes of the waiting sources. -/
structure Passing (disk : Disk) (runs : Runs) (key : Key) (waiting : List (Ranked σ)) (faults : Nat)
    (passed : Step (List (Ranked σ) × List (Ranked σ)) Fault) : Prop where
  /-- Those left stand midway, and a failed try has used up a fault. -/
  midway : ∃ left, List.Forall₂ (Midway disk runs key) passed.state.1 left ∧ left.sum ≤ faults ∧
    (passed.fault ≠ none → left.sum < faults)
  /-- They have places of their own. -/
  places : (passed.state.1.map Ranked.rank).Subperm (waiting.map Ranked.rank)
  /-- Nothing is left of the others behind the key. -/
  dropped : ∀ rank ∈ waiting.map Ranked.rank, rank ∉ passed.state.1.map Ranked.rank →
    runs.behind key rank = ([], none)
  /-- If the try succeeds, all have left the key. -/
  above : passed.fault = none → ∀ source ∈ passed.state.1, key < Cursor.key source.source

/-- A try on some of the sources is one on all, if nothing is left of the others. -/
theorem Passing.mono {few many : List (Ranked σ)} {fewFaults manyFaults : Nat}
    {passed : Step (List (Ranked σ) × List (Ranked σ)) Fault}
    (passing : Passing disk runs key few fewFaults passed)
    (places : (few.map Ranked.rank).Subperm (many.map Ranked.rank))
    (spent : ∀ rank ∈ many.map Ranked.rank, rank ∉ few.map Ranked.rank →
      runs.behind key rank = ([], none))
    (atMost : fewFaults ≤ manyFaults) : Passing disk runs key many manyFaults passed where
  midway := by
    obtain ⟨left, midway, bound, used⟩ := passing.midway
    exact ⟨left, midway, bound.trans atMost, fun failed => (used failed).trans_le atMost⟩
  places := passing.places.trans places
  dropped rank member outside := by
    by_cases before : rank ∈ few.map Ranked.rank
    · exact passing.dropped rank before outside
    · exact spent rank member before
  above := passing.above

/-- If no source stands before a key, and the one that goes first does not stand at it, then all stand
behind it. -/
theorem lt_key_of_apart {waiting others : List (Ranked σ)} {first : Ranked σ}
    (taken : takeFirst policy waiting = some (first, others))
    (apart : Cursor.key first.source ≠ key)
    (standsAt : ∀ source ∈ waiting, ∃ entry, showing? source.source = some entry ∧ key ≤ entry.key) :
    ∀ source ∈ waiting, key < Cursor.key source.source := by
  intro source member
  obtain ⟨least, isLeast, notBefore⟩ :=
    standsAt first ((perm_of_takeFirst taken).mem_iff.mp List.mem_cons_self)
  obtain ⟨entry, here, _⟩ := standsAt source member
  rw [key_of_showing? isLeast] at apart
  rw [key_of_showing? here]
  have behind : key < least.key := lt_of_le_of_ne notBefore (Ne.symm apart)
  have ordered := isFirst_of_takeFirst taken source member
  rw [shown_of_showing? isLeast, shown_of_showing? here, goesBefore_eq_false_iff] at ordered
  rcases ordered with above | ⟨same, _⟩
  · exact lt_trans behind above
  · exact same ▸ behind

/-- Sources that stand midway are passed over as described, whether this is the first try or not. -/
theorem passing_passDuplicates (ascends : ∀ rank, Ascending (runs rank).1)
    (low : ∀ rank, ∀ entry ∈ (runs rank).1, key ≤ entry.key) (waiting released : List (Ranked σ)) :
    ∀ faults : List Nat, List.Forall₂ (Midway disk runs key) waiting faults →
      Passing disk runs key waiting faults.sum
        (passDuplicates disk policy key waiting released) := by
  fun_induction passDuplicates disk policy key waiting released with
  | case1 waiting released none =>
    intro faults midway
    cases eq_nil_of_takeFirst none
    exact ⟨⟨faults, midway, le_refl _, by simp⟩, .refl _, by simp, by simp⟩
  | case2 waiting released first others taken same step moved fault failed =>
    intro faults midway
    obtain ⟨here, there, isMidway, areMidway, sum⟩ := exists_cons_of_takeFirst midway taken
    have ranks := (perm_of_takeFirst taken).map Ranked.rank
    obtain ⟨fewer, less, endures⟩ := (isMidway.endures same).failed (by simp [step, failed])
    refine ⟨⟨fewer :: there, .cons (.inl endures) areMidway, ?_, ?_⟩, ranks.subperm, ?_, by simp⟩
    · rw [List.sum_cons]
      omega
    · rw [List.sum_cons]
      omega
    · exact fun rank waits absent => absurd (ranks.mem_iff.mpr waits) absent
  | case3 waiting released first others taken same step moved fault valid ih =>
    intro faults midway
    obtain ⟨here, there, isMidway, areMidway, sum⟩ := exists_cons_of_takeFirst midway taken
    have ranks := (perm_of_takeFirst taken).map Ranked.rank
    obtain ⟨later, left, persists⟩ := (isMidway.endures same).moved (ascends _) fault
    rw [same] at left
    have isBehind : Endures disk (runs.behind key) moved here := endures_of_valid left persists valid
    refine (ih _ (.cons (.inr isBehind) areMidway)).mono ranks.subperm ?_ (le_of_eq sum)
    exact fun rank waits absent => absurd (ranks.mem_iff.mpr waits) absent
  | case4 waiting released first others taken same step moved fault invalid ih =>
    intro faults midway
    obtain ⟨here, there, isMidway, areMidway, sum⟩ := exists_cons_of_takeFirst midway taken
    have ranks := (perm_of_takeFirst taken).map Ranked.rank
    obtain ⟨later, left, persists⟩ := (isMidway.endures same).moved (ascends _) fault
    rw [same] at left
    refine (ih _ areMidway).mono ((List.sublist_cons_self _ _).subperm.trans ranks.subperm) ?_
      (by omega)
    intro rank waits absent
    rcases List.mem_cons.mp (ranks.mem_iff.mpr waits) with rfl | isOther
    · rw [left, persists.eq_nil invalid]
    · exact absurd isOther absent
  | case5 waiting released first others taken other =>
    intro faults midway
    refine ⟨⟨faults, midway, le_refl _, by simp⟩, .refl _, ?_, ?_⟩
    · exact fun rank member outside => absurd member outside
    · intro _ source member
      refine lt_key_of_apart taken other (fun source waits => ?_) source member
      obtain ⟨_, isMidway⟩ := exists_of_forall₂ midway waits
      exact isMidway.le (low _)

/-- Beside the current source, those that are left have places of their own, and nothing is left
elsewhere behind the key. -/
theorem Passing.beside {waiting : List (Ranked σ)} {current : Ranked σ}
    {passed : Step (List (Ranked σ) × List (Ranked σ)) Fault}
    (passing : Passing disk runs key waiting faults passed)
    (distinct : ((current :: waiting).map Ranked.rank).Nodup)
    (covers : Covers (runs.behind key) (current :: waiting)) :
    ((current :: passed.state.1).map Ranked.rank).Nodup ∧
      Covers (runs.behind key) (current :: passed.state.1) := by
  obtain ⟨alone, others⟩ := List.nodup_cons.mp distinct
  constructor
  · refine List.nodup_cons.mpr ⟨fun member => alone (passing.places.subset member), ?_⟩
    obtain ⟨_, same, fewer⟩ := passing.places
    exact same.nodup_iff.mp (others.sublist fewer)
  · intro rank outside
    by_cases waits : rank ∈ waiting.map Ranked.rank
    · exact passing.dropped rank waits fun member => outside (List.mem_cons_of_mem _ member)
    · refine covers rank fun member => ?_
      rcases List.mem_cons.mp member with rfl | member
      · exact outside List.mem_cons_self
      · exact waits member

/-! ## Merges -/

/-- A merge that goes on in spite of some faults. What is left of its sources is what was left when the
current one was chosen, but for duplicates of its key that may have been passed over since then. -/
inductive Withstands (disk : Disk) (runs : Runs) : Merge σ → Nat → Prop where
  | spent {merge : Merge σ} (nothing : merge.current = none)
      (usedUp : ∀ rank, runs rank = ([], none)) : Withstands disk runs merge 0
  | stands {merge : Merge σ} {current : Ranked σ} {entry : Entry} {here : Nat} {there : List Nat}
      (standing : merge.current = some current) (shows : showing? current.source = some entry)
      (endures : Endures disk runs current here)
      (midway : List.Forall₂ (Midway disk runs entry.key) merge.waiting there)
      (distinct : ((current :: merge.waiting).map Ranked.rank).Nodup)
      (covers : Covers (runs.behind entry.key) (current :: merge.waiting))
      (least : runs.Least merge.policy current.rank entry) :
      Withstands disk runs merge (here + there.sum)

/-- With the first of sources that endure chosen, a merge withstands their faults. -/
theorem exists_withstands_select {merge : Merge σ} (ascends : ∀ rank, Ascending (runs rank).1)
    (endures : ∀ source ∈ merge.waiting, ∃ faults, Endures disk runs source faults)
    (distinct : (merge.waiting.map Ranked.rank).Nodup) (covers : Covers runs merge.waiting) :
    ∃ faults, Withstands disk runs merge.select faults := by
  unfold select
  cases taken : takeFirst merge.policy merge.waiting with
  | none =>
    refine ⟨0, .spent rfl fun rank => covers rank ?_⟩
    simp [eq_nil_of_takeFirst taken]
  | some found =>
    obtain ⟨best, others⟩ := found
    have perm := perm_of_takeFirst taken
    have member : best ∈ merge.waiting := perm.mem_iff.mp List.mem_cons_self
    have shows : Shows runs merge.waiting := by
      intro source waits
      obtain ⟨_, endures⟩ := endures source waits
      obtain ⟨entry, later, whole, here⟩ := endures.shows
      exact ⟨entry, later, none, whole, here⟩
    obtain ⟨entry, _, _, _, here, least⟩ :=
      shows.least covers ascends member (isFirst_of_takeFirst taken)
    obtain ⟨faults, isEndured⟩ := endures best member
    have midway : ∀ source ∈ others, ∃ faults, Midway disk runs entry.key source faults := by
      intro source isOther
      obtain ⟨faults, endures⟩ := endures source (perm.mem_iff.mp (List.mem_cons_of_mem _ isOther))
      exact ⟨faults, .inl endures⟩
    obtain ⟨there, areMidway⟩ := exists_forall₂_of_mem midway
    refine ⟨_, .stands rfl here isEndured areMidway ?_ ?_ least⟩
    · exact (perm.map Ranked.rank).nodup_iff.mpr distinct
    · intro rank outside
      have usedUp := covers rank fun waits => outside ((perm.map Ranked.rank).mem_iff.mpr waits)
      simp [Runs.behind, usedUp]

/-- With sources entered that are had to the end of their runs, and the first one chosen, a merge
withstands their faults. -/
theorem exists_withstands_foldl_enter (ascends : ∀ rank, Ascending (runs rank).1)
    (entering : List (Ranked σ)) (merge : Merge σ)
    (persists : ∀ source ∈ entering, ∃ left faults, runs source.rank = (left, none) ∧
      Persists disk showing? source.source left faults)
    (endures : ∀ source ∈ merge.waiting, ∃ faults, Endures disk runs source faults)
    (distinct : ((entering ++ merge.waiting).map Ranked.rank).Nodup)
    (covers : Covers runs (entering ++ merge.waiting)) :
    ∃ faults, Withstands disk runs
      (entering.foldl (fun merge source => enter source merge) merge).select faults := by
  have mem_entered (source : Ranked σ) : source ∈ (entering.filter fun source =>
      isValid source.source).reverse ++ merge.waiting ↔
        (source ∈ entering ∧ isValid source.source = true) ∨ source ∈ merge.waiting := by
    rw [List.mem_append, List.mem_reverse, List.mem_filter]
  apply exists_withstands_select ascends
  · rw [waiting_foldl_enter]
    intro source member
    rcases (mem_entered source).mp member with ⟨enters, valid⟩ | waits
    · obtain ⟨left, faults, whole, persists⟩ := persists source enters
      exact ⟨faults, endures_of_valid whole persists valid⟩
    · exact endures source waits
  · rw [waiting_foldl_enter]
    have sublist : ((entering.filter fun source => isValid source.source) ++ merge.waiting).Sublist
        (entering ++ merge.waiting) := List.filter_sublist.append_right _
    have same := (List.reverse_perm (entering.filter fun source => isValid source.source)).append_right
      merge.waiting
    exact (same.map Ranked.rank).nodup_iff.mpr (distinct.sublist (sublist.map _))
  · rw [waiting_foldl_enter]
    intro rank outside
    by_cases listed : rank ∈ (entering ++ merge.waiting).map Ranked.rank
    · obtain ⟨source, member, rfl⟩ := List.mem_map.mp listed
      rcases List.mem_append.mp member with enters | waits
      · obtain ⟨left, faults, whole, persists⟩ := persists source enters
        have invalid : ¬ isValid source.source = true := fun valid =>
          outside (List.mem_map_of_mem ((mem_entered source).mpr (.inl ⟨enters, valid⟩)))
        rw [whole, persists.eq_nil invalid]
      · exact absurd (List.mem_map_of_mem ((mem_entered source).mpr (.inr waits))) outside
    · exact covers rank listed

/-- Going on from an entry takes a merge behind its key. If it fails, the merge is where it was, and
withstands fewer faults. -/
theorem Withstands.next {merge : Merge σ} (ascends : ∀ rank, Ascending (runs rank).1)
    (withstands : Withstands disk runs merge faults) {rank : Nat} {entry : Entry}
    (shown : shown? merge = some (rank, entry)) :
    match (Cursor.next disk merge).fault with
    | none => ∃ left, Withstands disk (runs.behind entry.key) (Cursor.next disk merge).state left
    | some _ => (∃ fewer < faults, Withstands disk runs (Cursor.next disk merge).state fewer) ∧
        shown? (Cursor.next disk merge).state = some (rank, entry) := by
  cases withstands with
  | spent nothing _ => simp [shown?, nothing] at shown
  | @stands current entry' here there standing shows endures midway distinct covers least =>
    obtain ⟨rfl, rfl⟩ : current.rank = rank ∧ entry' = entry := by
      simpa [shown?, standing, shows] using shown
    have isKey := key_of_showing? shows
    have passing : Passing disk runs entry'.key merge.waiting there.sum
        (passDuplicates disk merge.policy entry'.key merge.waiting merge.released) :=
      passing_passDuplicates ascends least.low _ _ there midway
    obtain ⟨left, isMidway, atMost, used⟩ := passing.midway
    obtain ⟨apart, covered⟩ := passing.beside distinct covers
    have goes := goes_next disk merge
    generalize Cursor.next disk merge = step at goes ⊢
    cases goes with
    | stays nothing => cases standing.symm.trans nothing
    | @fails current' passed fault standing' failed =>
      cases standing.symm.trans standing'
      rw [isKey] at failed
      rw [failed] at isMidway used apart covered
      have less := used (by simp)
      refine ⟨⟨here + left.sum, by omega, ?_⟩, by simp [shown?, standing, shows]⟩
      exact .stands standing shows endures isMidway apart covered least
    | @failsLast current' passed fault standing' passes failed =>
      cases standing.symm.trans standing'
      rw [isKey] at passes
      rw [passes] at isMidway apart covered
      obtain ⟨fewer, less, stillEndures⟩ := endures.failed (by simp [failed])
      have stillShows : showing? (Cursor.next disk current.source).state = some entry' := by
        obtain ⟨_, _, whole, isShown⟩ := endures.shows
        obtain ⟨_, _, whole', isShown'⟩ := stillEndures.shows
        cases whole.symm.trans whole'
        rw [isShown', ← isShown, shows]
      refine ⟨⟨fewer + left.sum, by omega, ?_⟩, by simp [shown?, stillShows]⟩
      exact .stands rfl stillShows stillEndures isMidway apart covered least
    | @moves current' passed standing' passes moved =>
      cases standing.symm.trans standing'
      rw [isKey] at passes
      rw [passes] at isMidway apart covered passing
      have onward := endures.moved (ascends _) moved
      rw [isKey] at onward
      obtain ⟨later, isLeft, persists⟩ := onward
      have areBehind : ∀ source ∈ passed.1,
          ∃ faults, Endures disk (runs.behind entry'.key) source faults := by
        intro source member
        obtain ⟨faults, isMidway⟩ := exists_of_forall₂ isMidway member
        exact ⟨faults, isMidway.behind (ascends _) (passing.above rfl source member)⟩
      exact exists_withstands_foldl_enter (Runs.ascending_behind ascends _)
        [⟨current.rank, (Cursor.next disk current.source).state⟩]
        { merge with waiting := passed.1, released := passed.2 }
        (List.forall_mem_singleton.mpr ⟨later, here, isLeft, persists⟩) areBehind apart covered

/-- A merge that shows nothing is at the end of all runs. -/
theorem Withstands.usedUp {merge : Merge σ} (withstands : Withstands disk runs merge faults)
    (nothing : shown? merge = none) :
    merge.current = none ∧ ∀ rank, runs rank = ([], none) := by
  cases withstands with
  | spent isSpent usedUp => exact ⟨isSpent, usedUp⟩
  | stands standing shows => simp [shown?, standing, shows] at nothing

/-- A merge shows an entry from which it can start. -/
theorem Withstands.least {merge : Merge σ} (withstands : Withstands disk runs merge faults)
    {rank : Nat} {entry : Entry} (shown : shown? merge = some (rank, entry)) :
    runs.Least merge.policy rank entry := by
  cases withstands with
  | spent nothing _ => simp [shown?, nothing] at shown
  | @stands current entry' _ _ standing shows _ _ _ _ least =>
    obtain ⟨rfl, rfl⟩ : current.rank = rank ∧ entry' = entry := by
      simpa [shown?, standing, shows] using shown
    exact least

/-- At its end, a merge does not go on, and does not fail to. -/
theorem Withstands.next_of_usedUp {merge : Merge σ} (withstands : Withstands disk runs merge faults)
    (nothing : shown? merge = none) : Cursor.next disk merge = .done merge :=
  next_of_spent (withstands.usedUp nothing).1

/-- A merge that fails to go on stands at an entry, and still does. -/
theorem Withstands.stays {merge : Merge σ} (ascends : ∀ rank, Ascending (runs rank).1)
    (withstands : Withstands disk runs merge faults)
    (failed : (Cursor.next disk merge).fault ≠ none) :
    (shown? merge).isSome = true ∧ shown? (Cursor.next disk merge).state = shown? merge := by
  cases shown : shown? merge with
  | none =>
    rw [withstands.next_of_usedUp shown] at failed
    exact absurd rfl failed
  | some place =>
    have next := withstands.next ascends shown
    cases outcome : (Cursor.next disk merge).fault with
    | none => exact absurd outcome failed
    | some fault =>
      rw [outcome] at next
      exact ⟨rfl, next.2⟩

/-- However often it is asked to go on, a merge stays one that withstands the faults to come. -/
theorem Withstands.replay {merge : Merge σ} (ascends : ∀ rank, Ascending (runs rank).1)
    (withstands : Withstands disk runs merge faults) (calls : Nat) :
    ∃ (left : Runs) (fewer : Nat), (∀ rank, Ascending (left rank).1) ∧
      Withstands disk left (Request.replay merge (List.replicate calls (.next disk))) fewer := by
  induction calls generalizing merge runs faults with
  | zero => exact ⟨runs, faults, ascends, withstands⟩
  | succ calls ih =>
    change ∃ left fewer, _ ∧ Withstands disk left
      (Request.replay (Cursor.next disk merge).state (List.replicate calls (.next disk))) fewer
    cases shown : shown? merge with
    | none =>
      rw [withstands.next_of_usedUp shown]
      exact ih ascends withstands
    | some place =>
      have next := withstands.next ascends shown
      cases outcome : (Cursor.next disk merge).fault with
      | none =>
        rw [outcome] at next
        obtain ⟨fewer, next⟩ := next
        exact ih (Runs.ascending_behind ascends _) next
      | some fault =>
        rw [outcome] at next
        obtain ⟨⟨fewer, _, next⟩, _⟩ := next
        exact ih ascends next

/-- A merge that withstands the faults of its sources is had to the end of what these are merged to. -/
theorem persists_of_withstands {merge : Merge σ} {runs : Runs} {faults : Nat}
    (ascends : ∀ rank, Ascending (runs rank).1)
    (withstands : Withstands disk runs merge faults) {seen : List (Nat × Entry)}
    (merged : Merged merge.policy runs seen none) :
    ∃ tries, Persists disk shown? merge seen tries := by
  cases shown : shown? merge with
  | none =>
    obtain ⟨_, usedUp⟩ := withstands.usedUp shown
    rw [merged.unique (merged_nil usedUp)]
    exact ⟨0, .atEnd shown⟩
  | some place =>
    obtain ⟨rank, entry⟩ := place
    have next := withstands.next ascends shown
    obtain ⟨later, isSeen, mergedLater⟩ := merged.exists_cons ascends (withstands.least shown)
    cases outcome : (Cursor.next disk merge).fault with
    | none =>
      rw [outcome] at next
      obtain ⟨left, next⟩ := next
      rw [← policy_next merge] at mergedLater
      obtain ⟨tries, rest⟩ := persists_of_withstands (Runs.ascending_behind ascends _) next mergedLater
      rw [isSeen]
      exact ⟨tries, .goesOn shown outcome rest⟩
    | some fault =>
      rw [outcome] at next
      obtain ⟨⟨fewer, less, next⟩, _⟩ := next
      rw [← policy_next merge] at merged
      obtain ⟨tries, again⟩ := persists_of_withstands ascends next merged
      rw [isSeen] at again ⊢
      exact ⟨tries + 1, .fails shown (by simp [outcome]) again⟩
termination_by (seen.length, faults)
decreasing_by
  · simp [isSeen, Prod.lex_iff]
  · exact Prod.Lex.right _ less

/-- A merge that was just made withstands the faults of its sources. -/
theorem exists_withstands_create (policy : DuplicatePolicy) {sources : List σ}
    {lists : List (List Entry)}
    (persist : List.Forall₂ (fun source entries =>
      ∃ faults, Persists disk showing? source entries faults) sources lists)
    (ascends : ∀ entries ∈ lists, Ascending entries) :
    ∃ faults, Withstands disk (Runs.ofLists lists) (create policy sources) faults := by
  refine exists_withstands_foldl_enter (Runs.ascending_ofLists ascends) _ ⟨policy, [], none, []⟩ ?_
    (by simp) ?_ ?_
  · intro source member
    obtain ⟨⟨inner, rank⟩, isSource, rfl⟩ := List.mem_map.mp member
    obtain ⟨entries, isListed, faults, persists⟩ :=
      exists_getElem?_of_forall₂ persist (List.mem_zipIdx_iff_getElem?.mp isSource)
    exact ⟨entries, faults, by simp [Runs.ofLists, isListed], persists⟩
  · rw [List.append_nil, map_rank_zipIdx]
    exact List.nodup_range
  · intro rank outside
    rw [List.append_nil, map_rank_zipIdx, List.mem_range, Nat.not_lt, persist.length_eq] at outside
    simp [Runs.ofLists, List.getElem?_eq_none outside]

/-- Sources that are had to the end of ascending lists of entries, each in spite of any faults, are
merged to what these lists are merged to, whatever tries fail: a consumer that tries each move again
until it succeeds sees exactly what the merge of sources gives that walk through the lists and do not
fail. A try that fails leaves the merge at an entry, with the same view and the same current source. -/
theorem persists_create (policy : DuplicatePolicy) {sources : List σ} {lists : List (List Entry)}
    (persist : List.Forall₂ (fun source entries =>
      ∃ faults, Persists disk showing? source entries faults) sources lists)
    (ascends : ∀ entries ∈ lists, Ascending entries) :
    ∃ merged, MergeOf policy lists merged ∧
      (∃ tries, Persists disk shown? (create policy sources) merged tries) ∧
      (∀ {τ : Type} [Cursor τ] {others : List τ},
        List.Forall₂ (fun other entries => Walks disk showing? other entries none) others lists →
        ∃ last, Drains disk shown? (create policy others) merged last) ∧
      ∀ calls, let merge := Request.replay (create policy sources) (List.replicate calls (.next disk))
        let step := Cursor.next disk merge
        step.fault ≠ none → isValid step.state = true ∧
          Cursor.view step.state = Cursor.view merge ∧
          step.state.currentSource = merge.currentSource := by
  have wholeAscends := Runs.ascending_ofLists ascends
  obtain ⟨faults, withstands⟩ := exists_withstands_create policy persist ascends
  obtain ⟨merged, isMerged⟩ := exists_merged policy ascends
  refine ⟨merged, isMerged.mergeOf, ?_, ?_, ?_⟩
  · refine persists_of_withstands wholeAscends withstands ?_
    rw [policy_create]
    exact isMerged
  · intro τ _ others walks
    obtain ⟨seen, seenWalks, isSeen⟩ := walks_of_lists policy walks ascends
    rw [isMerged.unique isSeen]
    exact seenWalks.exists_drains
  · intro calls merge step failed
    obtain ⟨left, fewer, leftAscends, withstands⟩ := withstands.replay wholeAscends calls
    obtain ⟨shown, same⟩ := withstands.stays leftAscends failed
    obtain ⟨⟨rank, entry⟩, isShown⟩ := Option.isSome_iff_exists.mp shown
    obtain ⟨here, isCurrent⟩ := shown?_eq_some_iff.mp isShown
    obtain ⟨stillHere, isStill⟩ := shown?_eq_some_iff.mp (same.trans isShown)
    refine ⟨?_, ?_, isStill.trans isCurrent.symm⟩
    · rw [isValid, ← View.isSome_showing?]
      exact congrArg Option.isSome stillHere
    · exact (View.eq_ofEntry stillHere).trans (View.eq_ofEntry here).symm

/-- Sources of the contested lists three of which fail once, two of these at a key that they share. -/
def unsteady : List Scripted :=
  List.zipWith (fun entries fails => .ofEntries "u" entries fails false false) contested
    [some 1, none, some 1, some 2]

/-- A source fails while it is passed over at its first key. The merge stays at the entry of the other
source there, and is had to the end. -/
theorem persists_create_unsteady :
    ∃ merged tries, (2, ⟨⟨[98]⟩, 3, .delete, []⟩) ∈ merged ∧
      Persists .empty shown? (create .newestSequence unsteady) merged tries ∧
      let merge := Request.replay (create .newestSequence unsteady) [.next .empty]
      let step := Cursor.next .empty merge
      step.fault = some (.scripted "u" .advance) ∧ isValid step.state = true ∧
        step.state.currentSource = some 0 := by
  have persist : List.Forall₂ (fun source entries =>
      ∃ faults, Persists .empty showing? source entries faults) unsteady contested :=
    .cons (Scripted.exists_persists rfl) (.cons (Scripted.exists_persists rfl)
      (.cons (Scripted.exists_persists rfl) (.cons (Scripted.exists_persists rfl) .nil)))
  obtain ⟨merged, isMerge, ⟨tries, persists⟩, _, stays⟩ :=
    persists_create .newestSequence persist (by unfold Ascending; decide)
  have fails : (Cursor.next .empty (Request.replay (create .newestSequence unsteady)
      [.next .empty])).fault = some (.scripted "u" .advance) := by decide +kernel
  have isCurrent : (Request.replay (create .newestSequence unsteady) [.next .empty]).currentSource =
      some 0 := by decide +kernel
  obtain ⟨valid, _, same⟩ := stays 1 (by
    intro fine
    cases fails.symm.trans fine)
  refine ⟨merged, tries, ?_, persists, fails, valid, same.trans isCurrent⟩
  exact (isMerge.mem_iff _ _).mpr (counts_iff_of_lists.mpr (by decide))

end Merge

end SortedTables
