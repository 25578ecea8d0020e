import SortedTables.Proofs.Cursor.Draining
import SortedTables.Proofs.Cursor.Scripts
import SortedTables.Proofs.Cursor.Watching

/-!
# What a bounded cursor shows and asks for

A cursor is restricted to a range wherever it stands (`Cursor.Placed`): before the range, in it, behind it
or at its end. What is left of the entries is filtered by both ends then, and the cursor stays at the first
entry that is above the lower end but behind the upper one (`Bounded.drains_create`).

Once a bounded cursor has stopped at such an entry, it makes no request of the cursor under it any more.
This cannot be told from what is shown, so the cursor under it is a watched one: that a request leaves the
bounded cursor as it is says that nothing was asked (`Bounded.StaysBehind`).
-/

namespace SortedTables

/-- Whether a key lies on the near side of a lower end. -/
def Bound.admitsAbove (bound : Bound) (key : Key) : Bool :=
  match bound with
  | unbounded => true
  | included first => first ≤ key
  | excluded before => before < key

/-- Greater keys than one that a lower end admits are admitted. -/
theorem Bound.admitsAbove_of_le {lower : Bound} {low high : Key} (ordered : low ≤ high)
    (admitted : lower.admitsAbove low = true) : lower.admitsAbove high = true := by
  cases lower with
  | unbounded => rfl
  | included first =>
    simp only [admitsAbove, decide_eq_true_eq] at admitted ⊢
    exact le_trans admitted ordered
  | excluded before =>
    simp only [admitsAbove, decide_eq_true_eq] at admitted ⊢
    exact lt_of_lt_of_le admitted ordered

/-- Of ascending entries all are admitted if the first one is. -/
theorem Bound.filter_admitsAbove {lower : Bound} {entries : List Entry} (ascends : Ascending entries)
    (admitted : ∀ entry, entries.head? = some entry → lower.admitsAbove entry.key = true) :
    (entries.filter fun entry => lower.admitsAbove entry.key) = entries := by
  cases entries with
  | nil => rfl
  | cons first later =>
    have isFirst := admitted first rfl
    refine List.filter_eq_self.mpr fun entry member => ?_
    rcases List.mem_cons.mp member with rfl | behind
    · exact isFirst
    · exact admitsAbove_of_le (le_of_lt ((List.pairwise_cons.mp ascends).1 entry behind)) isFirst

/-- Smaller keys than one that an upper end admits are admitted. -/
theorem Bound.admitsBelow_of_le {upper : Bound} {low high : Key} (ordered : low ≤ high)
    (admitted : upper.admitsBelow high = true) : upper.admitsBelow low = true := by
  cases upper with
  | unbounded => rfl
  | included last =>
    simp only [admitsBelow, decide_eq_true_eq] at admitted ⊢
    exact le_trans ordered admitted
  | excluded after =>
    simp only [admitsBelow, decide_eq_true_eq] at admitted ⊢
    exact lt_of_le_of_lt ordered admitted

namespace Request

variable {σ : Type} [Forward σ]

/-- Requests are made one after the other. -/
theorem replay_append (cursor : σ) (earlier later : List Request) :
    replay cursor (earlier ++ later) = replay (replay cursor earlier) later := by
  induction earlier generalizing cursor with
  | nil => rfl
  | cons request earlier ih => exact ih _

end Request

namespace Cursor

variable {σ τ : Type} [Cursor σ] [Cursor τ] {disk : Disk}

/-- A cursor whose entries ascend, at some place: it walks through the entries that are left, and sought
for a key above the one at its place, it goes to the first of these that is not below that key. -/
structure Placed (disk : Disk) (cursor : σ) (left : List Entry) : Prop where
  /-- The keys ascend. -/
  ascends : Ascending left
  /-- The entries are left. -/
  walks : Walks disk showing? cursor left none
  /-- Seeking goes forward to the first entry that is not below a key. -/
  seeks : ∀ key entry, showing? cursor = some entry → entry.key < key →
    (seek disk key cursor).fault = none ∧
      Walks disk showing? (seek disk key cursor).state (left.filter fun entry => key ≤ entry.key) none

/-- What shows and does the same as a cursor that walks through entries walks through them. -/
theorem Walks.of_conveyed {f : τ → σ} (conveys : Conveys f) {cursor : τ} {seen : List Entry}
    {ending : Option Fault} (walks : Walks disk showing? (f cursor) seen ending) :
    Walks disk showing? cursor seen ending := by
  have shows (cursor : τ) : showing? cursor = showing? (f cursor) := by
    simp only [showing?, conveys.view]
  generalize isCursor : f cursor = under at walks
  induction walks generalizing cursor with
  | atEnd nothing => exact .atEnd (by rw [shows, isCursor, nothing])
  | fails here failed =>
    subst isCursor
    refine .fails ((shows _).trans here) ?_
    rwa [conveys.next, Step.fault_map] at failed
  | goesOn here moved _ ih =>
    subst isCursor
    refine .goesOn ((shows _).trans here) ?_ (ih ?_)
    · rwa [conveys.next, Step.fault_map] at moved
    · rw [conveys.next, Step.state_map]

/-- What shows and does the same as a cursor at some place is at that place. -/
theorem Placed.of_conveyed {f : τ → σ} (conveys : Conveys f) {cursor : τ} {left : List Entry}
    (placed : Placed disk (f cursor) left) : Placed disk cursor left where
  ascends := placed.ascends
  walks := .of_conveyed conveys placed.walks
  seeks key entry here below := by
    have shows : showing? (f cursor) = some entry := by
      rw [← here]
      simp only [showing?, conveys.view]
    have found := placed.seeks key entry shows below
    rw [conveys.seek, Step.fault_map, Step.state_map] at found
    exact ⟨found.1, .of_conveyed conveys found.2⟩

/-- Draining a cursor is asking it for the next entry as often as it shows one. -/
theorem Drains.eq_replay {α : Type} {look : σ → Option α} {cursor last : σ} {seen : List α}
    (drains : Drains disk look cursor seen last) :
    last = Request.replay cursor (List.replicate seen.length (.next disk)) := by
  induction drains with
  | atEnd _ => rfl
  | goesOn _ _ _ ih => exact ih

end Cursor

/-- A scripted cursor over ascending entries that is not told to fail is at its place. -/
theorem Scripted.placed {cursor : Scripted} (disk : Disk) (ascends : Ascending cursor.entries)
    (fine : cursor.failingAdvance = none) (seeks : cursor.failsSeek = false) :
    Cursor.Placed disk cursor (cursor.entries.drop cursor.index) where
  ascends := ascends.drop
  walks := walks_of_unfailing fine rfl
  seeks key entry here below := by
    have left := drop_seek seeks ascends key
    have sought : Cursor.seek disk key cursor = Scripted.seek key cursor := rfl
    rw [sought]
    unfold Scripted.seek at left ⊢
    rw [seeks] at left ⊢
    exact ⟨rfl, walks_of_unfailing fine left⟩

namespace Bounded

open Cursor

variable {σ : Type} [Cursor σ] {disk : Disk} {cursor : σ} {left seen : List Entry} {upper : Bound}

/-! ## What is shown -/

/-- A cursor is brought to the first entry that is not below a key. -/
theorem exists_skipBelow (placed : Placed disk cursor left) (key : Key) :
    ∃ settled, skipBelow disk key cursor = .done settled ∧
      Walks disk showing? settled
        (left.filter fun entry => (Bound.included key).admitsAbove entry.key) none := by
  by_cases below : ∃ entry, showing? cursor = some entry ∧ entry.key < key
  · obtain ⟨entry, here, below⟩ := below
    obtain ⟨fine, walks⟩ := placed.seeks key entry here below
    have shown := View.eq_ofEntry here
    refine ⟨(Cursor.seek disk key cursor).state, ?_, walks⟩
    simp only [skipBelow, shown, View.ofEntry, below, decide_true, Bool.and_self, if_true]
    rw [Step.done, ← fine]
  · have above : ∀ entry, showing? cursor = some entry → key ≤ entry.key :=
      fun entry here => not_lt.mp fun low => below ⟨entry, here, low⟩
    refine ⟨cursor, skipBelow_of_le above, ?_⟩
    rw [Bound.filter_admitsAbove placed.ascends]
    · exact placed.walks
    · rw [placed.walks.head?_eq]
      exact fun entry here => decide_eq_true (above entry here)

/-- A cursor that stands at a key or above is brought to the first entry above the key. -/
theorem exists_skipAt {key : Key} (ascends : Ascending seen)
    (walks : Walks disk showing? cursor seen none) (above : ∀ entry ∈ seen, key ≤ entry.key) :
    ∃ settled, skipAt disk key cursor = .done settled ∧
      Walks disk showing? settled
        (seen.filter fun entry => (Bound.excluded key).admitsAbove entry.key) none := by
  cases walks with
  | atEnd nothing =>
    have invalid := valid_of_showing?_eq_none nothing
    exact ⟨cursor, by simp [skipAt, invalid], .atEnd nothing⟩
  | @goesOn _ entry later _ here moved rest =>
    have shown := View.eq_ofEntry here
    obtain ⟨behind, laterAscends⟩ := List.pairwise_cons.mp ascends
    by_cases same : entry.key = key
    · subst same
      refine ⟨(Cursor.next disk cursor).state, ?_, ?_⟩
      · simp only [skipAt, shown, View.ofEntry, decide_true, Bool.and_self, if_true]
        rw [Step.done, ← moved]
      · rw [List.filter_cons_of_neg (by simp [Bound.admitsAbove]),
          Bound.filter_admitsAbove laterAscends]
        · exact rest
        · exact fun other first => decide_eq_true (behind other (List.mem_of_head? first))
    · have below : key < entry.key := lt_of_le_of_ne (above entry List.mem_cons_self) (Ne.symm same)
      refine ⟨cursor, by simp [skipAt, shown, View.ofEntry, same], ?_⟩
      rw [Bound.filter_admitsAbove ascends]
      · exact .goesOn here moved rest
      · rintro other ⟨⟩
        exact decide_eq_true below

/-- A cursor is brought to the first entry that a lower end admits. -/
theorem exists_skipTo (placed : Placed disk cursor left) (lower : Bound) :
    ∃ settled, skipTo disk lower cursor = .done settled ∧
      Walks disk showing? settled (left.filter fun entry => lower.admitsAbove entry.key) none := by
  cases lower with
  | unbounded =>
    rw [Bound.filter_admitsAbove placed.ascends fun _ _ => rfl]
    exact ⟨cursor, rfl, placed.walks⟩
  | included key => exact exists_skipBelow placed key
  | excluded key =>
    obtain ⟨settled, isSettled, walks⟩ := exists_skipBelow placed key
    have above : ∀ entry ∈ left.filter fun entry => (Bound.included key).admitsAbove entry.key,
        key ≤ entry.key := fun entry member => of_decide_eq_true (List.mem_filter.mp member).2
    obtain ⟨passed, isPassed, walks⟩ := exists_skipAt (placed.ascends.filter _) walks above
    refine ⟨passed, by rw [skipTo, isSettled]; exact isPassed, ?_⟩
    -- What is above the key is also not below it, so the first filter does not count.
    have both (entry : Entry) : ((Bound.excluded key).admitsAbove entry.key &&
        (Bound.included key).admitsAbove entry.key) = (Bound.excluded key).admitsAbove entry.key := by
      simp only [Bound.admitsAbove, Bool.and_eq_left_iff_imp, decide_eq_true_eq]
      exact le_of_lt
    simpa only [List.filter_filter, both] using walks

/-- Draining a cursor that stops at an upper end shows the entries before the first one behind the end,
and leaves the inner cursor at that one. -/
theorem exists_drains_noteEnd (upper : Bound) (walks : Walks disk showing? cursor seen none) :
    ∃ last, Drains disk showing? (noteEnd ⟨cursor, upper, false⟩)
        (seen.takeWhile fun entry => upper.admitsBelow entry.key) last ∧
      showing? last.inner = seen.find? fun entry => !upper.admitsBelow entry.key := by
  generalize isEnding : (none : Option Fault) = ending at walks
  induction walks with
  | atEnd nothing =>
    exact ⟨_, .atEnd (showing?_of_none nothing), by rw [inner_noteEnd]; exact nothing⟩
  | fails => cases isEnding
  | @goesOn cursor entry later _ here moved _ ih =>
    cases admitted : upper.admitsBelow entry.key with
    | true =>
      have goesOn := next_of_moved here admitted moved
      obtain ⟨last, drains, shows⟩ := ih isEnding
      have reached : (Cursor.next disk (noteEnd ⟨cursor, upper, false⟩)).state =
          noteEnd ⟨(Cursor.next disk cursor).state, upper, false⟩ := congrArg Step.state goesOn
      rw [← reached] at drains
      refine ⟨last, ?_, ?_⟩
      · simp only [List.takeWhile_cons, admitted, if_true]
        exact .goesOn (showing?_of_admitted here admitted) (congrArg Step.fault goesOn) drains
      · simp only [List.find?_cons, admitted, Bool.not_true]
        exact shows
    | false =>
      refine ⟨noteEnd ⟨cursor, upper, false⟩, ?_, ?_⟩
      · simp only [List.takeWhile_cons, admitted, Bool.false_eq_true, if_false]
        exact .atEnd (showing?_of_not_admitted here admitted)
      · simp only [inner_noteEnd, List.find?_cons, admitted, Bool.not_false]
        exact here

/-! ## What is asked for -/

/-- A cursor stands at an entry behind an upper end. -/
def IsBehind (upper : Bound) (cursor : σ) : Prop :=
  ∃ entry, showing? cursor = some entry ∧ upper.admitsBelow entry.key = false

/-- A bounded cursor shows nothing although the inner one stands at an entry. -/
def IsStopped (bounded : Bounded σ) : Prop :=
  isValid bounded = false ∧ isValid bounded.inner = true

/-- A bounded cursor that has noted that the end was reached stands behind it. -/
structure Notes (upper : Bound) (bounded : Bounded σ) : Prop where
  /-- The upper end is the given one. -/
  upper_eq : bounded.upper = upper
  /-- The inner cursor is behind the end, if that was noted. -/
  isBehind : bounded.reachedEnd = true → IsBehind upper bounded.inner

/-- Taking note of the upper end notes exactly whether the inner cursor is behind it. -/
theorem reachedEnd_noteEnd_iff (upper : Bound) (inner : σ) :
    (noteEnd ⟨inner, upper, false⟩).reachedEnd = true ↔ IsBehind upper inner := by
  cases here : showing? inner with
  | none =>
    have invalid := valid_of_showing?_eq_none here
    simp [noteEnd, invalid, IsBehind, here]
  | some entry =>
    have shown := View.eq_ofEntry here
    simp [noteEnd, shown, View.ofEntry, IsBehind, here]

/-- What a bounded cursor notes is so. -/
theorem notes_noteEnd (upper : Bound) (inner : σ) : Notes upper (noteEnd ⟨inner, upper, false⟩) where
  upper_eq := by
    unfold noteEnd
    dsimp only
    split <;> rfl
  isBehind ended := by
    rw [inner_noteEnd]
    exact (reachedEnd_noteEnd_iff upper inner).mp ended

/-- A bounded cursor that has noted the end stays as it is. -/
theorem run_of_reachedEnd {bounded : Bounded σ} (ended : bounded.reachedEnd = true)
    {request : Request} (noClose : request ≠ .close) : request.run bounded = .done bounded := by
  cases request with
  | next disk => simp [Request.run, Cursor.next, Bounded.next, Bounded.view, ended]
  | seek disk key => simp [Request.run, Cursor.seek, Bounded.seek, ended]
  | close => exact absurd rfl noClose

/-- Otherwise it stays as it is, or takes a move of the inner one and notes whether this one is behind the
end, or the move fails. -/
theorem run_of_not_reachedEnd (inner : σ) (upper : Bound) {request : Request}
    (noClose : request ≠ .close) :
    request.run (⟨inner, upper, false⟩ : Bounded σ) = .done ⟨inner, upper, false⟩ ∨
      (∃ after : σ, request.run (⟨inner, upper, false⟩ : Bounded σ) =
        .done (noteEnd ⟨after, upper, false⟩)) ∨
      ∃ (after : σ) (fault : Fault), request.run (⟨inner, upper, false⟩ : Bounded σ) =
        .failed ⟨after, upper, false⟩ fault := by
  have adopts (step : Step σ Fault) :
      (∃ after : σ, adopt ⟨inner, upper, false⟩ step = .done (noteEnd ⟨after, upper, false⟩)) ∨
        ∃ (after : σ) (fault : Fault), adopt ⟨inner, upper, false⟩ step =
          .failed ⟨after, upper, false⟩ fault := by
    obtain ⟨after, fault | fault⟩ := step
    · exact Or.inl ⟨after, rfl⟩
    · exact Or.inr ⟨after, fault, rfl⟩
  cases request with
  | next disk =>
    by_cases standing : (Bounded.view (⟨inner, upper, false⟩ : Bounded σ)).valid = true
    · have moves : (Request.next disk).run (⟨inner, upper, false⟩ : Bounded σ) = _ :=
        if_pos standing
      rw [moves]
      exact Or.inr (adopts _)
    · exact Or.inl (if_neg standing)
  | seek disk key => exact Or.inr (adopts (Cursor.seek disk key inner))
  | close => exact absurd rfl noClose

/-- What is noted stays true under a request, whether this fails or not. -/
theorem Notes.run {bounded : Bounded σ} (notes : Notes upper bounded) {request : Request}
    (noClose : request ≠ .close) : Notes upper (request.run bounded).state := by
  obtain ⟨inner, end?, reachedEnd⟩ := bounded
  cases reachedEnd with
  | true => rwa [run_of_reachedEnd rfl noClose]
  | false =>
    obtain rfl : end? = upper := notes.upper_eq
    rcases run_of_not_reachedEnd inner end? noClose with stays | ⟨after, moves⟩ | ⟨after, _, fails⟩
    · rwa [stays]
    · rw [moves, Step.state_done]
      exact notes_noteEnd end? after
    · rw [fails, Step.state_failed]
      exact ⟨rfl, fun ended => Bool.noConfusion ended⟩

/-- Behind requests that do not fail, it was noted if the end was reached. -/
theorem Notes.informed_run {bounded : Bounded σ} (notes : Notes upper bounded) {request : Request}
    (noClose : request ≠ .close) (fine : (request.run bounded).fault = none)
    (informed : IsBehind upper bounded.inner → bounded.reachedEnd = true) :
    IsBehind upper (request.run bounded).state.inner →
      (request.run bounded).state.reachedEnd = true := by
  obtain ⟨inner, end?, reachedEnd⟩ := bounded
  cases reachedEnd with
  | true => rwa [run_of_reachedEnd rfl noClose]
  | false =>
    obtain rfl : end? = upper := notes.upper_eq
    rcases run_of_not_reachedEnd inner end? noClose with stays | ⟨after, moves⟩ | ⟨after, _, fails⟩
    · rwa [stays]
    · rw [moves, Step.state_done, inner_noteEnd]
      exact (reachedEnd_noteEnd_iff end? after).mpr
    · rw [fails] at fine
      cases fine

/-- Once it has noted the end, a bounded cursor stays as it is under all requests, and none fails. -/
theorem replay_of_reachedEnd {bounded : Bounded σ} (ended : bounded.reachedEnd = true)
    (later : List Request) (noClose : .close ∉ later) :
    Request.replay bounded later = bounded ∧
      ∀ outcome ∈ Request.outcomes bounded later, outcome.2 = none := by
  induction later with
  | nil => exact ⟨rfl, List.forall_mem_nil _⟩
  | cons request later ih =>
    rw [List.mem_cons, not_or] at noClose
    obtain ⟨first, rest⟩ := noClose
    have stays := run_of_reachedEnd ended (Ne.symm first)
    rw [Request.replay, Request.outcomes, stays, Step.state_done]
    obtain ⟨same, fine⟩ := ih rest
    exact ⟨same, List.forall_mem_cons.mpr ⟨rfl, fine⟩⟩

/-- What is noted stays true under all requests. -/
theorem Notes.replay {bounded : Bounded σ} (notes : Notes upper bounded) (requests : List Request)
    (noClose : .close ∉ requests) : Notes upper (Request.replay bounded requests) := by
  induction requests generalizing bounded with
  | nil => exact notes
  | cons request later ih =>
    rw [List.mem_cons, not_or] at noClose
    obtain ⟨first, rest⟩ := noClose
    exact ih (notes.run (Ne.symm first)) rest

/-- If no request fails, it was noted behind them if the end was reached. -/
theorem Notes.informed_replay {bounded : Bounded σ} (notes : Notes upper bounded)
    (informed : IsBehind upper bounded.inner → bounded.reachedEnd = true) (requests : List Request)
    (noClose : .close ∉ requests)
    (fine : ∀ outcome ∈ Request.outcomes bounded requests, outcome.2 = none) :
    IsBehind upper (Request.replay bounded requests).inner →
      (Request.replay bounded requests).reachedEnd = true := by
  induction requests generalizing bounded with
  | nil => exact informed
  | cons request later ih =>
    rw [List.mem_cons, not_or] at noClose
    obtain ⟨first, rest⟩ := noClose
    obtain ⟨moved, fine⟩ := List.forall_mem_cons.mp fine
    exact ih (notes.run (Ne.symm first))
      (notes.informed_run (Ne.symm first) moved informed) rest fine

/-- Behind some requests a bounded cursor is behind its end for good. -/
structure StaysBehind (upper : Bound) (bounded : Bounded σ) (earlier : List Request) : Prop where
  /-- The inner cursor stands at an entry behind the end. -/
  isBehind : IsBehind upper (Request.replay bounded earlier).inner
  /-- This is where it stood when it first was behind the end, and it was asked nothing since then. -/
  isFirst : ∀ sooner, sooner <+: earlier →
    (∀ outcome ∈ Request.outcomes bounded sooner, outcome.2 = none) →
    IsBehind upper (Request.replay bounded sooner).inner →
      Request.replay bounded sooner = Request.replay bounded earlier
  /-- Whatever is requested later, the inner cursor is asked nothing, and no request fails. -/
  stays : ∀ later, .close ∉ later →
    Request.replay (Request.replay bounded earlier) later = Request.replay bounded earlier ∧
      ∀ outcome ∈ Request.outcomes (Request.replay bounded earlier) later, outcome.2 = none

/-- A bounded cursor that has stopped stays so. -/
theorem staysBehind_of_stopped {inner : σ} {earlier : List Request} (noClose : .close ∉ earlier)
    (stopped : IsStopped (Request.replay (noteEnd ⟨inner, upper, false⟩) earlier)) :
    StaysBehind upper (noteEnd ⟨inner, upper, false⟩) earlier := by
  have notes := notes_noteEnd upper inner
  have informed : IsBehind upper (noteEnd ⟨inner, upper, false⟩).inner →
      (noteEnd ⟨inner, upper, false⟩).reachedEnd = true := by
    rw [inner_noteEnd]
    exact (reachedEnd_noteEnd_iff upper inner).mpr
  have ended : (Request.replay (noteEnd ⟨inner, upper, false⟩) earlier).reachedEnd = true := by
    obtain ⟨shut, standing⟩ := stopped
    have valid : (!(Request.replay (noteEnd ⟨inner, upper, false⟩) earlier).reachedEnd &&
        isValid (Request.replay (noteEnd ⟨inner, upper, false⟩) earlier).inner) = false := shut
    rwa [standing, Bool.and_true, Bool.not_eq_false'] at valid
  refine ⟨(notes.replay earlier noClose).isBehind ended, ?_, replay_of_reachedEnd ended⟩
  rintro sooner ⟨rest, rfl⟩ fine behind
  rw [List.mem_append, not_or] at noClose
  have noted := notes.informed_replay informed sooner noClose.1 fine behind
  rw [Request.replay_append, (replay_of_reachedEnd noted rest noClose.2).1]

/-- Let a cursor stand at any place of ascending entries. Restricted to the range between two ends, in
whatever relation to each other and to the place, and then drained, it shows those of the entries left that
both ends admit, in their order. The cursor under it is left at the first entry that the lower end admits
but not the upper one.

If at any time, by whatever requests, it has stopped because of the upper end, the cursor under it stands
where it first was behind the end, and is asked nothing any more, whatever is requested. -/
theorem create_selects {cursor : σ} (placed : Placed disk cursor left) (lower upper : Bound) :
    ∃ bounded last, create disk (Watched.ofCursor cursor) lower upper = .done bounded ∧
      Drains disk showing? bounded (left.filter fun entry =>
        lower.admitsAbove entry.key && upper.admitsBelow entry.key) last ∧
      (∃ count, last = Request.replay bounded (List.replicate count (.next disk))) ∧
      (showing? last.inner = left.find? fun entry =>
        lower.admitsAbove entry.key && !upper.admitsBelow entry.key) ∧
      ∀ earlier, .close ∉ earlier → IsStopped (Request.replay bounded earlier) →
        StaysBehind upper bounded earlier := by
  have watched : Placed disk (Watched.ofCursor cursor) left := .of_conveyed Watched.conveys placed
  obtain ⟨settled, isSettled, walks⟩ := exists_skipTo watched lower
  obtain ⟨last, drains, shows⟩ := exists_drains_noteEnd upper walks
  have inherited : (left.filter fun entry => lower.admitsAbove entry.key).Pairwise fun low high =>
      upper.admitsBelow high.key = true → upper.admitsBelow low.key = true :=
    (placed.ascends.filter _).imp fun below => Bound.admitsBelow_of_le (le_of_lt below)
  rw [← filter_eq_takeWhile inherited, List.filter_filter] at drains
  refine ⟨noteEnd ⟨settled, upper, false⟩, last, ?_, ?_, ⟨_, drains.eq_replay⟩, ?_, ?_⟩
  · simp only [create, isSettled, Step.fault_done, Step.state_done]
  · simpa only [Bool.and_comm] using drains
  · rw [shows, List.find?_filter]
    simp only [Bool.decide_and, Bool.decide_eq_true]
  · intro earlier noClose stopped
    exact staysBehind_of_stopped noClose stopped

/-- A cursor over five entries that stands at the second one. -/
def halfway : Scripted :=
  { Scripted.ofEntries "s" ([97, 98, 99, 100, 101].map fun byte => ⟨⟨[byte]⟩, 1, .put, []⟩) none false
      false with index := 1 }

/-- The cursor stands at the lower end, which is not part of the range. One entry is shown, and the
cursor stays at the next one. -/
theorem create_selects_halfway :
    ∃ bounded last, create .empty (Watched.ofCursor halfway) (.excluded ⟨[98]⟩) (.excluded ⟨[100]⟩) =
        .done bounded ∧
      Drains .empty showing? bounded [⟨⟨[99]⟩, 1, .put, []⟩] last ∧
      showing? last.inner = some ⟨⟨[100]⟩, 1, .put, []⟩ ∧
      ∀ later, .close ∉ later → Request.replay last later = last := by
  have placed : Placed .empty halfway
      ([98, 99, 100, 101].map fun byte => ⟨⟨[byte]⟩, 1, .put, []⟩) :=
    Scripted.placed .empty (by unfold Ascending; decide) rfl rfl
  obtain ⟨bounded, last, created, drains, ⟨count, isLast⟩, shows, stays⟩ :=
    create_selects placed (.excluded ⟨[98]⟩) (.excluded ⟨[100]⟩)
  have stands : showing? last.inner = some ⟨⟨[100]⟩, 1, .put, []⟩ := shows
  have stopped : IsStopped last :=
    ⟨valid_of_showing?_eq_none drains.look_last, by
      rw [isValid, ← View.isSome_showing?]
      exact congrArg Option.isSome stands⟩
  rw [isLast] at stopped
  have noClose : Request.close ∉ List.replicate count (.next .empty) := by
    simp [List.mem_replicate]
  refine ⟨bounded, last, created, drains, stands, fun later others => ?_⟩
  rw [isLast]
  exact ((stays _ noClose stopped).stays later others).1

end Bounded

end SortedTables
