import Mathlib.Algebra.BigOperators.Group.List.Basic
import Mathlib.Algebra.GroupWithZero.Nat
import Mathlib.Data.List.TakeWhile
import SortedTables.Proofs.Cursor.Conveying

/-!
# How a merge releases its sources

A merge keeps its sources in use until they are exhausted or cannot be sought, and releases them then;
the rest is released with the merge. The invariant is `Merge.Accounts`: the sources in use and the
released ones are those that were listed, each once; the ones in use were not released; and the others
were released as the last thing that was asked of them. As long as no request failed and the merge was
not released, it also says that the sources in use stand at an entry and the others are exhausted; a
fault loses that, since a source that does not move is kept and one that cannot be sought is not.

Each operation has one lemma (`Accounts.next`, `Accounts.seek`, `Accounts.close`), and
`Merge.releases_once` says what follows for any list of requests.
-/

namespace SortedTables

/-! ## Sources in use and released ones -/

namespace Watched

section Places

variable {σ : Type} [Forward σ]

/-- Whether the cursor shows no entry, or showed none when it was released. -/
def isExhausted (watched : Watched σ) : Bool :=
  !Cursor.isValid (Request.replay watched.origin (watched.requests.takeWhile (!·.isClose)))

/-- A source in use was not released. If all went well it stands at an entry. -/
structure Held (well : Prop) (watched : Watched σ) : Prop where
  /-- It was not released. -/
  unreleased : watched.isClosed = false
  /-- It stands at an entry. -/
  standing : well → Cursor.isValid watched = true

/-- A source out of use was released and asked nothing after that. If all went well it was exhausted. -/
structure Released (well : Prop) (watched : Watched σ) : Prop where
  /-- Its release is the last request, and the only one of its kind. -/
  last : ∃ before, watched.requests = before ++ [.close] ∧ .close ∉ before
  /-- It was exhausted. -/
  spent : well → watched.isExhausted = true

variable {well weaker : Prop} {watched : Watched σ}

/-- What holds if all went well holds if more than that did. -/
theorem Held.mono (held : Held well watched) (less : weaker → well) : Held weaker watched :=
  ⟨held.unreleased, fun holds => held.standing (less holds)⟩

/-- What holds if all went well holds if more than that did. -/
theorem Released.mono (released : Released well watched) (less : weaker → well) :
    Released weaker watched :=
  ⟨released.last, fun holds => released.spent (less holds)⟩

/-- Among requests without a release, none is one. -/
theorem isClose_eq_false {requests : List Request} (none : .close ∉ requests) :
    ∀ request ∈ requests, request.isClose = false := fun _ member =>
  Bool.eq_false_iff.mpr fun isClose => none (Request.isClose_iff.mp isClose ▸ member)

omit [Forward σ] in
/-- A cursor that was not released was not asked to. -/
theorem isClosed_eq_false_iff : watched.isClosed = false ↔ .close ∉ watched.requests := by
  rw [isClosed, List.any_eq_false]
  constructor
  · intro none member
    exact none .close member rfl
  · intro none request member
    simp [isClose_eq_false none request member]

/-- A released source was released. -/
theorem Released.isClosed (released : Released well watched) : watched.isClosed = true := by
  obtain ⟨before, requests, _⟩ := released.last
  simp [Watched.isClosed, requests, Request.isClose]

/-- A released source was released once. -/
theorem Released.countP (released : Released well watched) :
    watched.requests.countP Request.isClose = 1 := by
  obtain ⟨before, requests, none⟩ := released.last
  have never : before.countP Request.isClose = 0 :=
    List.countP_eq_zero.mpr fun request member => by simp [isClose_eq_false none request member]
  simp [requests, never, Request.isClose]

/-- Moving and seeking does not release. -/
theorem unreleased_note {request : Request} (unreleased : watched.isClosed = false)
    (other : request.isClose = false) : (watched.note request).state.isClosed = false := by
  simp [unreleased, other]

/-- A source that is not released is exhausted as long as it shows no entry. -/
theorem isExhausted_of_unreleased (unreleased : watched.isClosed = false) :
    watched.isExhausted = !Cursor.isValid watched := by
  have moves := isClose_eq_false (isClosed_eq_false_iff.mp unreleased)
  have all : watched.requests.takeWhile (!·.isClose) = watched.requests :=
    List.takeWhile_eq_self_iff.mpr fun request member => by simp [moves request member]
  rw [isExhausted, all]
  rfl

/-- A source that is released is exhausted from then on if it showed no entry before. -/
theorem isExhausted_close (unreleased : watched.isClosed = false) :
    (watched.note .close).state.isExhausted = !Cursor.isValid watched := by
  have moves := isClose_eq_false (isClosed_eq_false_iff.mp unreleased)
  have all : (watched.requests ++ [Request.close]).takeWhile (!·.isClose) = watched.requests := by
    rw [List.takeWhile_append_of_pos fun request member => by simp [moves request member]]
    simp [Request.isClose]
  rw [isExhausted, requests_note, all]
  rfl

/-- Releasing a source that was not released before puts it out of use. -/
theorem released_close (unreleased : watched.isClosed = false)
    (spent : well → Cursor.isValid watched = false) :
    Released well (watched.note .close).state where
  last := ⟨watched.requests, rfl, isClosed_eq_false_iff.mp unreleased⟩
  spent holds := by rw [isExhausted_close unreleased, spent holds]; rfl

end Places

end Watched

/-! ## Every source in its place -/

/-- A source as it was listed. -/
def Ranked.listed {σ : Type} (source : Ranked (Watched σ)) : σ × Nat :=
  (source.source.origin, source.rank)

namespace Merge

/-- Sources that are in use or released account for those of a listing. -/
structure Accounts {σ : Type} [Cursor σ] (listing : List (σ × Nat)) (well : Prop)
    (inUse released : List (Ranked (Watched σ))) : Prop where
  /-- They are the listed ones, each once. -/
  all : ((inUse ++ released).map Ranked.listed).Perm listing
  /-- Those in use were not released. -/
  held : ∀ source ∈ inUse, source.source.Held well
  /-- The others were released, once. -/
  released : ∀ source ∈ released, source.source.Released well

section Places

open Ranked

variable {σ : Type} [Cursor σ] {well weaker : Prop} {listing : List (σ × Nat)}
  {inUse released : List (Ranked (Watched σ))} {disk : Disk}

/-- No source accounts for nothing. -/
theorem accounts_nil : Accounts ([] : List (σ × Nat)) well [] [] := ⟨.nil, by simp, by simp⟩

/-- What holds if all went well holds if more than that did. -/
theorem Accounts.mono (accounts : Accounts listing well inUse released) (less : weaker → well) :
    Accounts listing weaker inUse released where
  all := accounts.all
  held source member := (accounts.held source member).mono less
  released source member := (accounts.released source member).mono less

/-- The order of the sources in use, and of the listing, makes no difference. -/
theorem Accounts.perm {listing' : List (σ × Nat)} {inUse' : List (Ranked (Watched σ))}
    (accounts : Accounts listing well inUse released) (same : listing.Perm listing')
    (same' : inUse'.Perm inUse) : Accounts listing' well inUse' released where
  all := (((same'.append_right released).map _).trans accounts.all).trans same
  held source member := accounts.held source (same'.mem_iff.mp member)
  released := accounts.released

/-- One more source is in use. -/
theorem Accounts.hold (accounts : Accounts listing well inUse released)
    {source : Ranked (Watched σ)} (held : source.source.Held well) :
    Accounts (source.listed :: listing) well (source :: inUse) released where
  all := accounts.all.cons _
  held := List.forall_mem_cons.mpr ⟨held, accounts.held⟩
  released := accounts.released

/-- One more source is released. -/
theorem Accounts.putAway (accounts : Accounts listing well inUse released)
    {source : Ranked (Watched σ)} (away : source.source.Released well) :
    Accounts (source.listed :: listing) well inUse (source :: released) where
  all := (List.perm_middle.map _).trans (accounts.all.cons _)
  held := accounts.held
  released := List.forall_mem_cons.mpr ⟨away, accounts.released⟩

/-- A source in use is taken out to be moved. -/
theorem Accounts.take {source : Ranked (Watched σ)}
    (accounts : Accounts listing well (source :: inUse) released) :
    source.source.Held well ∧ ∃ others, (source.listed :: others).Perm listing ∧
      Accounts others well inUse released :=
  ⟨accounts.held source List.mem_cons_self, _, accounts.all, .refl _,
    fun other member => accounts.held other (List.mem_cons_of_mem _ member), accounts.released⟩

/-- A source that was not released enters, in use if it stands at an entry and else released. -/
theorem Accounts.enter {merge : Merge (Watched σ)}
    (accounts : Accounts listing well merge.waiting merge.released) {source : Ranked (Watched σ)}
    (unreleased : source.source.isClosed = false) :
    Accounts (source.listed :: listing) well (merge.enter source).waiting
      (merge.enter source).released := by
  unfold Merge.enter
  split
  · next standing => exact accounts.hold ⟨unreleased, fun _ => standing⟩
  · next spent =>
    have away : source.release.source.Released well :=
      Watched.released_close unreleased fun _ => by simpa using spent
    exact accounts.putAway away

/-- The current source is one of those in use. -/
theorem Accounts.select {merge : Merge (Watched σ)}
    (accounts : Accounts listing well merge.waiting merge.released) :
    Accounts listing well merge.select.inUse merge.select.released := by
  rw [released_select]
  exact accounts.perm (.refl _) (inUse_select_perm merge)

/-- A merge that was just made accounts for its sources. -/
theorem accounts_create (policy : DuplicatePolicy) (sources : List σ) :
    Accounts sources.zipIdx well (create policy (sources.map Watched.ofCursor)).inUse
      (create policy (sources.map Watched.ofCursor)).released := by
  have enters (entering : List (Ranked (Watched σ))) : ∀ merge : Merge (Watched σ),
      ∀ listing : List (σ × Nat), Accounts listing well merge.waiting merge.released →
      (∀ source ∈ entering, source.source.isClosed = false) →
      Accounts (entering.map listed ++ listing) well
        (entering.foldl (fun merge source => Merge.enter source merge) merge).waiting
        (entering.foldl (fun merge source => Merge.enter source merge) merge).released := by
    induction entering with
    | nil => exact fun _ _ accounts _ => accounts
    | cons source later ih =>
      intro merge listing accounts unreleased
      obtain ⟨here, there⟩ := List.forall_mem_cons.mp unreleased
      exact (ih _ _ (accounts.enter here) there).perm List.perm_middle (.refl _)
  let ranked := (sources.map Watched.ofCursor).zipIdx.map fun listed =>
    (⟨listed.2, listed.1⟩ : Ranked (Watched σ))
  have relist : ranked.map listed ++ [] = sources.zipIdx := by
    simp only [ranked, List.zipIdx_map, List.map_map, List.append_nil]
    exact List.map_id _
  rw [← relist]
  refine Accounts.select (enters ranked ⟨policy, [], none, []⟩ [] accounts_nil ?_)
  intro source member
  obtain ⟨⟨watched, rank⟩, isListed, rfl⟩ := List.mem_map.mp member
  obtain ⟨origin, _, rfl⟩ := List.mem_map.mp (List.fst_mem_of_mem_zipIdx isListed)
  rfl

/-- Passing over duplicates accounts for the sources, those included that do not take part. -/
theorem Accounts.passDuplicates {waiting rest : List (Ranked (Watched σ))}
    (accounts : Accounts listing well (waiting ++ rest) released) (disk : Disk)
    (policy : DuplicatePolicy) (key : Key) :
    let passed := Merge.passDuplicates disk policy key waiting released
    Accounts listing (well ∧ passed.fault = none) (passed.state.1 ++ rest) passed.state.2 := by
  fun_induction Merge.passDuplicates disk policy key waiting released with
  | case1 waiting released none => exact accounts.mono And.left
  | case2 waiting released first others taken same step moved fault failed =>
    have split := accounts.perm (.refl _) ((perm_of_takeFirst taken).append_right rest)
    obtain ⟨held, unmoved, relist, accounts'⟩ := split.take
    have moved' : moved.source.Held False :=
      ⟨Watched.unreleased_note held.unreleased rfl, False.elim⟩
    refine (((accounts'.mono False.elim).hold moved').perm relist (.refl _)).mono ?_
    rintro ⟨-, impossible⟩
    cases impossible
  | case3 waiting released first others taken same step moved fine standing ih =>
    have split := accounts.perm (.refl _) ((perm_of_takeFirst taken).append_right rest)
    obtain ⟨held, unmoved, relist, accounts'⟩ := split.take
    have moved' : moved.source.Held well :=
      ⟨Watched.unreleased_note held.unreleased rfl, fun _ => standing⟩
    exact ih ((accounts'.hold moved').perm relist (.refl _))
  | case4 waiting released first others taken same step moved fine spent ih =>
    have split := accounts.perm (.refl _) ((perm_of_takeFirst taken).append_right rest)
    obtain ⟨held, unmoved, relist, accounts'⟩ := split.take
    have away : moved.release.source.Released well :=
      Watched.released_close (Watched.unreleased_note held.unreleased rfl)
        fun _ => by simpa using spent
    exact ih ((accounts'.putAway away).perm relist (.refl _))
  | case5 => exact accounts.mono And.left

/-- Going on accounts for the sources. -/
theorem Accounts.next {merge : Merge (Watched σ)}
    (accounts : Accounts listing well merge.inUse merge.released) :
    let step := Cursor.next disk merge
    Accounts listing (well ∧ step.fault = none) step.state.inUse step.state.released := by
  have goes := goes_next disk merge
  generalize Cursor.next disk merge = step at goes ⊢
  have passing {current : Ranked (Watched σ)} (standing : merge.current = some current) :
      let passed := Merge.passDuplicates disk merge.policy (Cursor.key current.source) merge.waiting
        merge.released
      Accounts listing (well ∧ passed.fault = none) (current :: passed.state.1) passed.state.2 := by
    have whole : Accounts listing well (merge.waiting ++ [current]) merge.released := by
      refine accounts.perm (.refl _) ?_
      simp [inUse, standing]
    have passed := whole.passDuplicates disk merge.policy (Cursor.key current.source)
    exact passed.perm (.refl _) (List.perm_append_singleton current _).symm
  cases goes with
  | stays => exact accounts.mono And.left
  | @fails current passed fault standing failed =>
    have whole := passing standing
    rw [failed] at whole
    simp only [Step.state_failed, inUse, standing]
    exact whole
  | @failsLast current passed fault standing passes failed =>
    have whole := passing standing
    rw [passes] at whole
    obtain ⟨held, others, relist, accounts'⟩ := whole.take
    let moved : Ranked (Watched σ) := ⟨current.rank, (Cursor.next disk current.source).state⟩
    have held' : moved.source.Held False :=
      ⟨Watched.unreleased_note held.unreleased rfl, False.elim⟩
    refine (((accounts'.mono False.elim).hold held').perm relist (.refl _)).mono ?_
    rintro ⟨-, impossible⟩
    cases impossible
  | @moves current passed standing passes fine =>
    have whole := passing standing
    rw [passes] at whole
    obtain ⟨held, others, relist, accounts'⟩ := whole.take
    let moved : Ranked (Watched σ) := ⟨current.rank, (Cursor.next disk current.source).state⟩
    let left : Merge (Watched σ) := { merge with waiting := passed.1, released := passed.2 }
    have entered : Accounts (moved.listed :: others) _ (left.enter moved).waiting _ :=
      accounts'.enter (Watched.unreleased_note held.unreleased rfl)
    exact (entered.select.perm relist (.refl _)).mono fun well => ⟨well.1, rfl⟩

/-- A source that was sought is accounted for. If that failed, it is released and not all went well. -/
theorem Accounts.seekSource {key : Key} {step : Step (Merge (Watched σ)) Fault}
    (accounts : Accounts listing (well ∧ step.fault = none) step.state.waiting step.state.released)
    {source : Ranked (Watched σ)} (unreleased : source.source.isClosed = false) :
    let sought := Merge.seekSource disk key step source
    Accounts (source.listed :: listing) (well ∧ sought.fault = none) sought.state.waiting
      sought.state.released := by
  let moved : Ranked (Watched σ) := ⟨source.rank, (Cursor.seek disk key source.source).state⟩
  have unreleased' : moved.source.isClosed = false := Watched.unreleased_note unreleased rfl
  unfold Merge.seekSource
  dsimp only
  cases failed : (Cursor.seek disk key source.source).fault with
  | none =>
    have entered : Accounts (moved.listed :: listing) _ _ _ := accounts.enter unreleased'
    exact entered
  | some fault =>
    have away : moved.release.source.Released False :=
      Watched.released_close unreleased' False.elim
    refine ((accounts.mono False.elim).putAway away).mono ?_
    rintro ⟨-, impossible⟩
    cases earlier : step.fault <;> simp [earlier] at impossible

/-- Seeking accounts for the sources. -/
theorem Accounts.seek {key : Key} {merge : Merge (Watched σ)}
    (accounts : Accounts listing well merge.inUse merge.released) :
    let step := Merge.seek disk key merge
    Accounts listing (well ∧ step.fault = none) step.state.inUse step.state.released := by
  have seeks (sources : List (Ranked (Watched σ))) : ∀ step : Step (Merge (Watched σ)) Fault,
      ∀ listing : List (σ × Nat),
      Accounts listing (well ∧ step.fault = none) step.state.waiting step.state.released →
      (∀ source ∈ sources, source.source.isClosed = false) →
      let sought := sources.foldl (Merge.seekSource disk key) step
      Accounts (sources.map listed ++ listing) (well ∧ sought.fault = none) sought.state.waiting
        sought.state.released := by
    induction sources with
    | nil => exact fun _ _ accounts _ => accounts
    | cons source later ih =>
      intro step listing accounts unreleased
      obtain ⟨here, there⟩ := List.forall_mem_cons.mp unreleased
      exact (ih _ _ (accounts.seekSource here) there).perm List.perm_middle (.refl _)
  have order : (merge.waiting ++ merge.current.toList).Perm merge.inUse := List.perm_append_comm
  have away : Accounts (merge.released.map listed) (well ∧ (none : Option Fault) = none) []
      merge.released :=
    ⟨.refl _, by simp, fun source member => (accounts.released source member).mono And.left⟩
  refine ((seeks _ (.done { merge with waiting := [], current := none }) _ away ?_).perm ?_
    (.refl _)).select
  · exact fun source member => (accounts.held source (order.mem_iff.mp member)).unreleased
  · rw [← List.map_append]
    exact ((order.append_right _).map _).trans accounts.all

/-- A released merge uses no source. -/
theorem inUse_close (merge : Merge σ) : merge.close.state.inUse = [] := by
  have closes (sources : List (Ranked σ)) (step : Step (Merge σ) Fault) :
      (sources.foldl closeSource step).state.inUse = step.state.inUse := by
    induction sources generalizing step with
    | nil => rfl
    | cons source later ih => exact ih (closeSource step source)
  exact closes _ _

/-- Releasing a merge accounts for the sources, which are out of use then. -/
theorem Accounts.close {merge : Merge (Watched σ)}
    (accounts : Accounts listing well merge.inUse merge.released) :
    Accounts listing False (Merge.close merge).state.inUse (Merge.close merge).state.released := by
  have closes (sources : List (Ranked (Watched σ))) : ∀ step : Step (Merge (Watched σ)) Fault,
      ∀ listing : List (σ × Nat), Accounts listing False [] step.state.released →
      (∀ source ∈ sources, source.source.isClosed = false) →
      Accounts (sources.map listed ++ listing) False []
        (sources.foldl closeSource step).state.released := by
    induction sources with
    | nil => exact fun _ _ accounts _ => accounts
    | cons source later ih =>
      intro step listing accounts unreleased
      obtain ⟨here, there⟩ := List.forall_mem_cons.mp unreleased
      have away : source.release.source.Released False := Watched.released_close here False.elim
      have accounts' := ih (closeSource step source) _ (accounts.putAway away) there
      exact accounts'.perm List.perm_middle (.refl _)
  have away : Accounts (merge.released.map listed) False [] merge.released :=
    ⟨.refl _, by simp, fun source member => (accounts.released source member).mono False.elim⟩
  have accounts' := closes merge.inUse (.done { merge with waiting := [], current := none }) _ away
    fun source member => (accounts.held source member).unreleased
  rw [inUse_close]
  refine accounts'.perm ?_ (.refl _)
  rw [← List.map_append]
  exact accounts.all

/-- Releasing a merge fails exactly if releasing a source in use fails. -/
theorem isSome_fault_close {merge : Merge σ} : (Merge.close merge).fault.isSome = true ↔
    ∃ source ∈ merge.inUse, (Cursor.close source.source).fault.isSome = true := by
  have closes (sources : List (Ranked σ)) : ∀ step : Step (Merge σ) Fault,
      (sources.foldl closeSource step).fault.isSome = true ↔
        step.fault.isSome = true ∨
          ∃ source ∈ sources, (Cursor.close source.source).fault.isSome = true := by
    induction sources with
    | nil => simp
    | cons source later ih =>
      intro step
      rw [List.foldl_cons, ih]
      cases failed : step.fault <;> simp [closeSource, failed]
  refine (closes merge.inUse (.done { merge with waiting := [], current := none })).trans ?_
  simp

/-! ## All requests -/

/-- Each request accounts for the sources. Whether all went well is lost with a release and with a
fault. -/
theorem Accounts.run {merge : Merge (Watched σ)}
    (accounts : Accounts listing well merge.inUse merge.released) (request : Request) :
    let step := request.run merge
    Accounts listing (well ∧ request.isClose = false ∧ step.fault = none) step.state.inUse
      step.state.released := by
  cases request with
  | next disk => exact accounts.next.mono fun well => ⟨well.1, well.2.2⟩
  | seek disk key => exact accounts.seek.mono fun well => ⟨well.1, well.2.2⟩
  | close => exact accounts.close.mono fun well => by cases well.2.1

/-- All requests account for the sources. -/
theorem Accounts.replay {merge : Merge (Watched σ)}
    (accounts : Accounts listing well merge.inUse merge.released) (requests : List Request) :
    Accounts listing
      (well ∧ .close ∉ requests ∧ ∀ outcome ∈ Request.outcomes merge requests, outcome.2 = none)
      (Request.replay merge requests).inUse (Request.replay merge requests).released := by
  induction requests generalizing merge well with
  | nil => exact accounts.mono And.left
  | cons request later ih =>
    refine (ih (accounts.run request)).mono ?_
    rintro ⟨well, none, fine⟩
    obtain ⟨here, there⟩ := List.forall_mem_cons.mp fine
    obtain ⟨moves, none'⟩ := not_or.mp (mt List.mem_cons.mpr none)
    refine ⟨⟨well, ?_, here⟩, none', there⟩
    exact Bool.eq_false_iff.mpr fun isClose => moves (Request.isClose_iff.mp isClose).symm

/-- A merge that uses no source goes on without. -/
theorem inUse_run {merge : Merge σ} (request : Request) (ended : merge.inUse = []) :
    (request.run merge).state.inUse = [] := by
  obtain ⟨noCurrent, noWaiting⟩ := List.append_eq_nil_iff.mp ended
  rw [Option.toList_eq_nil_iff] at noCurrent
  cases request with
  | next disk =>
    change (Cursor.next disk merge).state.inUse = []
    rw [next_of_spent noCurrent]
    exact ended
  | seek disk key =>
    change (Merge.seek disk key merge).state.inUse = []
    rw [Merge.seek, noCurrent, noWaiting]
    rfl
  | close => exact inUse_close merge

/-- No source is in use behind requests with a release. -/
theorem inUse_replay {merge : Merge σ} {requests : List Request} (closing : .close ∈ requests) :
    (Request.replay merge requests).inUse = [] := by
  have stays (requests : List Request) (merge : Merge σ) (ended : merge.inUse = []) :
      (Request.replay merge requests).inUse = [] := by
    induction requests generalizing merge with
    | nil => exact ended
    | cons request later ih => exact ih _ (inUse_run request ended)
  obtain ⟨before, behind, rfl⟩ := List.append_of_mem closing
  induction before generalizing merge with
  | nil => exact stays behind _ (inUse_close merge)
  | cons request later ih => exact ih (by simp)

omit [Cursor σ] in
/-- The sources in listing order are those in use and the released ones. -/
theorem sources_perm (merge : Merge σ) :
    merge.sources.Perm ((merge.inUse ++ merge.released).map Ranked.source) :=
  (List.mergeSort_perm _ _).map _

/-- The sources that are accounted for are the listed ones, in their order. -/
theorem Accounts.origins {sources : List σ} {merge : Merge (Watched σ)}
    (accounts : Accounts sources.zipIdx well merge.inUse merge.released) :
    merge.sources.map Watched.origin = sources := by
  let sorted := (merge.inUse ++ merge.released).mergeSort
    fun left right => left.rank ≤ right.rank
  have same : (sorted.map listed).Perm sources.zipIdx :=
    ((List.mergeSort_perm _ _).map _).trans accounts.all
  have ascends : (sorted.map listed).Pairwise fun left right => left.2 ≤ right.2 := by
    refine List.pairwise_map.mpr ((List.pairwise_mergeSort ?_ ?_ _).imp ?_)
    · simpa using fun _ _ _ => Nat.le_trans
    · simpa using fun _ _ => Nat.le_total _ _
    · simp [Ranked.listed]
  have ascends' : sources.zipIdx.Pairwise fun left right => left.2 ≤ right.2 := by
    have ranks : (sources.zipIdx.map Prod.snd).Pairwise (· < ·) := by
      rw [List.zipIdx_map_snd]
      exact List.pairwise_lt_range'
    exact (List.pairwise_map.mp ranks).imp Nat.le_of_lt
  have order : sorted.map listed = sources.zipIdx := by
    refine same.eq_of_pairwise ?_ ascends ascends'
    rintro ⟨left, rank⟩ ⟨right, rank'⟩ isLeft isRight le ge
    cases Nat.le_antisymm le ge
    have here : sources[rank]? = some left :=
      List.mem_zipIdx_iff_getElem?.mp (same.mem_iff.mp isLeft)
    have there : sources[rank]? = some right := List.mem_zipIdx_iff_getElem?.mp isRight
    rw [Option.some.inj (here.symm.trans there)]
  calc merge.sources.map Watched.origin = (sorted.map listed).map Prod.fst := by
        simp only [Merge.sources, List.map_map, sorted]
        rfl
    _ = sources := by rw [order, List.zipIdx_map_fst]

omit [Cursor σ] in
/-- Each source is in use or released. -/
theorem mem_sources {merge : Merge (Watched σ)} {watched : Watched σ} :
    watched ∈ merge.sources ↔
      (∃ source ∈ merge.inUse, source.source = watched) ∨
        ∃ source ∈ merge.released, source.source = watched := by
  rw [(sources_perm merge).mem_iff, List.map_append, List.mem_append, List.mem_map, List.mem_map]

/-- A source is in use exactly if it was not released. -/
theorem Accounts.mem_inUse_iff {merge : Merge (Watched σ)}
    (accounts : Accounts listing well merge.inUse merge.released) {watched : Watched σ} :
    (∃ source ∈ merge.inUse, source.source = watched) ↔
      watched ∈ merge.sources ∧ watched.isClosed = false := by
  rw [mem_sources]
  constructor
  · rintro ⟨source, member, rfl⟩
    exact ⟨.inl ⟨source, member, rfl⟩, (accounts.held source member).unreleased⟩
  · rintro ⟨inUse | ⟨source, member, rfl⟩, unreleased⟩
    · exact inUse
    · rw [(accounts.released source member).isClosed] at unreleased
      cases unreleased

/-- A source that was not released is not released twice, nor asked anything behind its release. -/
theorem Accounts.close_notMem {merge : Merge (Watched σ)}
    (accounts : Accounts listing well merge.inUse merge.released) {watched : Watched σ}
    (isSource : watched ∈ merge.sources) : .close ∉ watched.requests.dropLast := by
  obtain ⟨source, member, rfl⟩ | ⟨source, member, rfl⟩ := mem_sources.mp isSource
  · have none := Watched.isClosed_eq_false_iff.mp (accounts.held source member).unreleased
    exact fun earlier => none (List.dropLast_subset _ earlier)
  · obtain ⟨before, requests, none⟩ := (accounts.released source member).last
    rwa [requests, List.dropLast_concat]

/-- As long as all goes well, a source is released exactly if it is exhausted. -/
theorem Accounts.isClosed_eq {merge : Merge (Watched σ)}
    (accounts : Accounts listing well merge.inUse merge.released) (holds : well)
    {watched : Watched σ} (isSource : watched ∈ merge.sources) :
    watched.isClosed = watched.isExhausted := by
  obtain ⟨source, member, rfl⟩ | ⟨source, member, rfl⟩ := mem_sources.mp isSource
  · have held := accounts.held source member
    rw [Watched.isExhausted_of_unreleased held.unreleased, held.standing holds, held.unreleased]
    rfl
  · have away := accounts.released source member
    rw [away.isClosed, away.spent holds]

/-- The cursors that work for a merge are those of the sources that were not released. -/
theorem Accounts.active_eq {merge : Merge (Watched σ)}
    (accounts : Accounts listing well merge.inUse merge.released) :
    Cursor.active merge = ((merge.sources.filter (!·.isClosed)).map Cursor.active).sum := by
  have inUse : merge.sources.filter (!·.isClosed) |>.Perm (merge.inUse.map Ranked.source) := by
    refine ((sources_perm merge).filter _).trans (.of_eq ?_)
    rw [List.map_append, List.filter_append, List.filter_eq_self.mpr, List.filter_eq_nil_iff.mpr,
      List.append_nil]
    · intro watched member
      obtain ⟨source, isReleased, rfl⟩ := List.mem_map.mp member
      simp [(accounts.released source isReleased).isClosed]
    · intro watched member
      obtain ⟨source, isHeld, rfl⟩ := List.mem_map.mp member
      simp [(accounts.held source isHeld).unreleased]
  calc Cursor.active merge = ((merge.inUse.map Ranked.source).map Cursor.active).sum := by
        rw [List.map_map, List.sum_eq_foldl, List.foldl_map]
        rfl
    _ = _ := (inUse.map _).sum_eq.symm

/-- Each source that was not released counts as one if it has no cursors under it. -/
theorem Accounts.active_eq_countP {merge : Merge (Watched σ)}
    (accounts : Accounts listing well merge.inUse merge.released)
    (single : ∀ watched ∈ merge.sources, Cursor.active watched = 1) :
    Cursor.active merge = merge.sources.countP (!·.isClosed) := by
  rw [accounts.active_eq, List.countP_eq_length_filter]
  rw [List.map_congr_left fun watched member => single watched (List.mem_of_mem_filter member)]
  simp

end Places

section Releasing

variable {σ : Type} [Cursor σ]

/-- A merge releases each of its sources once, however they fail, whatever the merge is asked, and in
whatever state the files are then.

Watching the sources changes nothing. Each source stays part of the merge, and is asked nothing behind
its release. Behind a release of the merge all of them were released, once. Releasing the merge fails
exactly if releasing a source does that was not released before. And as long as the merge was not
released and no request failed, the released sources are the exhausted ones, and the others are those
that work for the merge. -/
theorem releases_once (policy : DuplicatePolicy) (sources : List σ) (requests : List Request) :
    let start := create policy (sources.map Watched.ofCursor)
    let merge := Request.replay start requests
    Request.outcomes start requests = Request.outcomes (create policy sources) requests ∧
    merge.map Watched.cursor = Request.replay (create policy sources) requests ∧
    merge.sources.map Watched.origin = sources ∧
    (∀ watched ∈ merge.sources, .close ∉ watched.requests.dropLast) ∧
    (.close ∈ requests →
      (∀ watched ∈ merge.sources, watched.requests.countP Request.isClose = 1) ∧
        Cursor.active merge = 0) ∧
    ((Cursor.close merge).fault.isSome = true ↔ ∃ watched ∈ merge.sources,
      watched.isClosed = false ∧ (Cursor.close watched).fault.isSome = true) ∧
    (.close ∉ requests → (∀ outcome ∈ Request.outcomes start requests, outcome.2 = none) →
      (∀ watched ∈ merge.sources, watched.isClosed = watched.isExhausted) ∧
      ((∀ watched ∈ merge.sources, Cursor.active watched = 1) →
        Cursor.active merge = merge.sources.countP (!·.isExhausted))) := by
  intro start merge
  have begins : Accounts sources.zipIdx True start.inUse start.released :=
    accounts_create policy sources
  have accounts := begins.replay requests
  have conveys : Cursor.Conveys (map Watched.cursor : Merge (Watched σ) → Merge σ) :=
    conveys_map Watched.conveys
  have bare : start.map Watched.cursor = create policy sources := by
    rw [← create_map Watched.conveys, List.map_map]
    congr 1
    exact List.map_id _
  refine ⟨?_, ?_, accounts.origins, fun _ => accounts.close_notMem, ?_, ?_, ?_⟩
  · rw [← bare, Request.outcomes_conveyed conveys]
  · rw [← bare, Request.replay_conveyed conveys]
  · intro closing
    have none : merge.inUse = [] := inUse_replay closing
    constructor
    · intro watched isSource
      obtain ⟨source, member, rfl⟩ | ⟨source, member, rfl⟩ := mem_sources.mp isSource
      · rw [none] at member
        cases member
      · exact (accounts.released source member).countP
    · change merge.inUse.foldl _ 0 = 0
      rw [none]
      rfl
  · refine isSome_fault_close.trans ?_
    constructor
    · rintro ⟨source, member, fails⟩
      obtain ⟨isSource, unreleased⟩ := accounts.mem_inUse_iff.mp ⟨source, member, rfl⟩
      exact ⟨source.source, isSource, unreleased, fails⟩
    · rintro ⟨watched, isSource, unreleased, fails⟩
      obtain ⟨source, member, rfl⟩ := accounts.mem_inUse_iff.mpr ⟨isSource, unreleased⟩
      exact ⟨source, member, fails⟩
  · intro noClose fine
    have holds := And.intro trivial (And.intro noClose fine)
    have same : ∀ watched ∈ merge.sources, watched.isClosed = watched.isExhausted :=
      fun watched => accounts.isClosed_eq holds
    refine ⟨same, fun single => ?_⟩
    rw [accounts.active_eq_countP single]
    exact List.countP_congr fun watched member => by rw [same watched member]

end Releasing

end Merge

end SortedTables
