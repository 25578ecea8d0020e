import SortedTables.Proofs.Dump.Text
import SortedTables.Proofs.Dump.Unaffected

/-!
# Reading a dump in portions

However a dump is read, up to any number of bytes each time, it hands out one text from its start on and
then ends in one way (`DumpStream.InPortions`). The text is the one that is read at once. What is left of
it, `DumpStream.drain`, is the measure here: a reading takes a front of what is left, and nothing else
(`DumpStream.portion_read`). It takes nothing only if there was no room, or if nothing was left.

That a reading with room for some bytes gives some is due to the pieces: none of those that are rendered
is empty (`DumpStream.NoneEmpty`), although a block may be rendered to no piece at all.
-/

namespace SortedTables

namespace Table

variable {table : Table} {disk : Disk} {range : KeyRange} {first index : Nat} {entries : List Entry}
  {ending : Option BlockReadFault} {fault : BlockReadFault}

/-- Rendering from a first block on comes to a block that cannot be read: all blocks up to this one are
wanted, and those before it can be read and have no entry behind the range. -/
structure IsObstructed (table : Table) (disk : Disk) (range : KeyRange) (first index : Nat)
    (fault : BlockReadFault) : Prop where
  /-- The block is not before the first one. -/
  behind : first ≤ index
  /-- The blocks do not start behind the range. -/
  wanted : ∀ place, first ≤ place → place ≤ index →
    ∃ block, table.blocks[place]? = some block ∧ range.beforeEnd block.firstKey = true
  /-- The blocks before can be read, and more are rendered behind them. -/
  goesOn : ∀ place, first ≤ place → place < index → ∃ group, table.readBlock disk place = .ok group ∧
    ∀ entry ∈ table.candidates range place group, range.beforeEnd entry.key = true
  /-- The block cannot be read. -/
  fails : table.readBlock disk index = .error fault

/-- The entries of which lines are rendered in the blocks from a first one on, before another one. -/
def renderedBefore (table : Table) (disk : Disk) (range : KeyRange) (first index : Nat) : List Entry :=
  (List.range' first (index - first)).flatMap fun place =>
    table.rendered range place ((table.readBlock disk place).toOption.getD [])

/-- Behind the first block the same block is in the way. -/
theorem IsObstructed.tail (obstructed : table.IsObstructed disk range first index fault)
    (later : first < index) : table.IsObstructed disk range (first + 1) index fault where
  behind := later
  wanted place behind := obstructed.wanted place (Nat.le_of_succ_le behind)
  goesOn place behind := obstructed.goesOn place (Nat.le_of_succ_le behind)
  fails := obstructed.fails

/-- In front of a block in the way, the first block is rendered before the others. -/
theorem renderedBefore_eq {group : List Entry} (later : first < index)
    (read : table.readBlock disk first = .ok group) :
    table.renderedBefore disk range first index =
      table.rendered range first group ++ table.renderedBefore disk range (first + 1) index := by
  have more : index - first = index - (first + 1) + 1 := by omega
  rw [renderedBefore, more, List.range'_succ, List.flatMap_cons, read, renderedBefore]
  rfl

/-- If rendering ends with a fault, a block was in the way. -/
theorem Renders.exists_obstructed
    (renders : table.Renders disk range first entries (some fault)) :
    ∃ index, table.IsObstructed disk range first index fault := by
  generalize isFault : some fault = ending at renders
  induction renders with
  | atEnd => cases isFault
  | @fails first block _ inside isWanted failed =>
    cases isFault
    refine ⟨first, Nat.le_refl _, fun place behind before => ?_, fun place behind before => ?_, failed⟩
    · exact ⟨block, Nat.le_antisymm behind before ▸ inside, isWanted⟩
    · omega
  | stops => cases isFault
  | @goesOn first block group _ _ inside isWanted read before _ ih =>
    obtain ⟨index, obstructed⟩ := ih isFault
    have later : first + 1 ≤ index := obstructed.behind
    refine ⟨index, Nat.le_of_succ_le later, fun place behind upTo => ?_,
      fun place behind upTo => ?_, obstructed.fails⟩
    · rcases Nat.eq_or_lt_of_le behind with rfl | above
      · exact ⟨block, inside, isWanted⟩
      · exact obstructed.wanted place above upTo
    · rcases Nat.eq_or_lt_of_le behind with rfl | above
      · exact ⟨group, read, before⟩
      · exact obstructed.goesOn place above upTo

/-- If a block is in the way, rendering ends with its fault, behind the blocks before. -/
theorem Renders.of_obstructed (renders : table.Renders disk range first entries ending)
    (obstructed : table.IsObstructed disk range first index fault) :
    ending = some fault ∧ entries = table.renderedBefore disk range first index := by
  have here {place : Nat} (obstructed : table.IsObstructed disk range place index fault)
      (group : List Entry) (read : table.readBlock disk place = .ok group) : place < index := by
    refine Nat.lt_of_le_of_ne obstructed.behind ?_
    rintro rfl
    cases read.symm.trans obstructed.fails
  induction renders with
  | atEnd unwanted =>
    obtain ⟨block, inside, isWanted⟩ := obstructed.wanted _ (Nat.le_refl _) obstructed.behind
    cases isWanted.symm.trans (unwanted block inside)
  | fails inside isWanted failed =>
    rcases Nat.eq_or_lt_of_le obstructed.behind with rfl | later
    · cases failed.symm.trans obstructed.fails
      simp [renderedBefore]
    · obtain ⟨group, read, -⟩ := obstructed.goesOn _ (Nat.le_refl _) later
      cases failed.symm.trans read
  | stops inside isWanted read behind =>
    obtain ⟨other, same, before⟩ := obstructed.goesOn _ (Nat.le_refl _) (here obstructed _ read)
    cases read.symm.trans same
    obtain ⟨entry, member, behind⟩ := behind
    cases (before entry member).symm.trans behind
  | goesOn inside isWanted read before _ ih =>
    have later := here obstructed _ read
    obtain ⟨isFault, isRest⟩ := ih (obstructed.tail later)
    exact ⟨isFault, by rw [renderedBefore_eq later read, isRest]⟩

end Table

namespace DumpStream

variable {disk : Disk} {stream after : DumpStream} {count : Nat}

/-- No piece that is left to read is empty. -/
def NoneEmpty (stream : DumpStream) : Prop :=
  ∀ piece ∈ stream.pending, piece ≠ []

/-- Pieces that are lines are not empty. -/
theorem noneEmpty_of_lines (areLines : ∀ piece ∈ stream.pending, ∃ line : DumpLine, line.bytes = piece) :
    stream.NoneEmpty := by
  intro piece member
  obtain ⟨line, rfl⟩ := areLines piece member
  exact line.bytes_ne_nil

/-- The next piece is rendered to pieces that are not empty. -/
theorem NoneEmpty.fill (noneEmpty : stream.NoneEmpty) (disk : Disk) :
    (stream.fill disk).state.NoneEmpty := by
  have single (line : DumpLine) : ∀ piece ∈ [line.bytes], ∃ line : DumpLine, line.bytes = piece :=
    fun piece member => ⟨line, (List.mem_singleton.mp member).symm⟩
  unfold DumpStream.fill
  split
  · exact noneEmpty_of_lines (single _)
  · split
    · split
      · exact noneEmpty
      · refine noneEmpty_of_lines fun piece member => ?_
        obtain ⟨entry, -, isPiece⟩ := List.mem_map.mp member
        exact ⟨_, isPiece⟩
    · exact noneEmpty_of_lines (single _)
  · exact noneEmpty

/-- Rendering pieces makes no empty ones. -/
theorem NoneEmpty.settle (noneEmpty : stream.NoneEmpty) (disk : Disk) :
    (stream.settle disk).state.NoneEmpty := by
  fun_induction DumpStream.settle disk stream with
  | case1 stream read step filled ih => exact ih (noneEmpty.fill disk)
  | case2 stream read step failed => exact noneEmpty.fill disk
  | case3 => exact noneEmpty

/-- The first bytes of some pieces, and what is left of them. -/
theorem takeBytes_eq {pieces : List Bytes} (noneEmpty : ∀ piece ∈ pieces, piece ≠ [])
    (count : Nat) :
    ∃ rest, takeBytes count pieces = (pieces.flatten.take count, rest) ∧
      rest.flatten = pieces.flatten.drop count ∧ ∀ piece ∈ rest, piece ≠ [] := by
  induction pieces generalizing count with
  | nil => exact ⟨[], by simp [takeBytes]⟩
  | cons piece later ih =>
    rw [takeBytes]
    by_cases part : count < piece.length
    · refine ⟨piece.drop count :: later, ?_, ?_, ?_⟩
      · rw [if_pos part, List.flatten_cons, List.take_append_of_le_length (Nat.le_of_lt part)]
      · rw [List.flatten_cons, List.flatten_cons, List.drop_append_of_le_length (Nat.le_of_lt part)]
      · refine List.forall_mem_cons.mpr ⟨?_, fun other member => ?_⟩
        · exact List.drop_eq_nil_iff.not.mpr (Nat.not_le_of_lt part)
        · exact noneEmpty other (List.mem_cons_of_mem _ member)
    · have whole : piece.length ≤ count := Nat.le_of_not_lt part
      obtain ⟨rest, takes, isRest, noneEmptyRest⟩ :=
        ih (fun other member => noneEmpty other (List.mem_cons_of_mem _ member))
          (count - piece.length)
      refine ⟨rest, ?_, ?_, noneEmptyRest⟩
      · rw [if_neg part, takes, List.flatten_cons, List.take_append, List.take_of_length_le whole]
      · rw [isRest, List.flatten_cons, List.drop_append, List.drop_eq_nil_of_le whole,
          List.nil_append]

/-! ## What is left -/

/-- Where a piece cannot be rendered, nothing has changed. -/
theorem fill_of_fault {fault : BlockReadFault} (failed : (stream.fill disk).fault = some fault) :
    stream.fill disk = .failed stream fault := by
  unfold fill at failed ⊢
  split at failed
  · cases failed
  · split at failed
    · split at failed
      · cases failed
        simp only [*, if_true]
      · cases failed
    · cases failed
  · cases failed

/-- Rendering pieces again, there is nothing more to render, or the same piece fails again. -/
theorem settle_settle (disk : Disk) (stream : DumpStream) :
    (stream.settle disk).state.settle disk = stream.settle disk := by
  fun_induction settle disk stream with
  | case1 stream read step filled ih => exact ih
  | case2 stream read step failed =>
    obtain ⟨fault, isFault⟩ := Option.ne_none_iff_exists'.mp failed
    have same : step = .failed stream fault := fill_of_fault isFault
    rw [same]
    exact settle_of_failed read.1 read.2 same
  | case3 stream read => rw [Step.state_done, settle, dif_neg read]

/-- Where rendering comes to an end, something is left to read or the trailer was rendered. -/
theorem done_of_settled (settled : (stream.settle disk).fault = none)
    (nothing : (stream.settle disk).state.pending = []) :
    (stream.settle disk).state.stage = .done := by
  fun_induction settle disk stream with
  | case1 stream read step filled ih => exact ih settled nothing
  | case2 stream read step failed => exact absurd settled failed
  | case3 stream read =>
    by_contra unfinished
    exact read ⟨nothing, unfinished⟩

/-- Rendering pieces leaves the same. -/
theorem drain_settle (disk : Disk) (stream : DumpStream) :
    (stream.settle disk).state.drain disk = stream.drain disk :=
  drain_congr (by rw [readLine, settle_settle, readLine])

/-- What one reading, up to a number of bytes, does to what is left of a dump. -/
inductive Portion (disk : Disk) (count : Nat) (stream : DumpStream) :
    Except BlockReadFault Bytes → DumpStream → Prop where
  /-- Nothing is left in front of a block that cannot be read, and so it stays. -/
  | fails {after : DumpStream} {fault : BlockReadFault}
      (spent : stream.drain disk = ([], .error fault))
      (still : after.drain disk = ([], .error fault)) : Portion disk count stream (.error fault) after
  /-- Nothing is left at all, and so it stays. -/
  | ends {after : DumpStream} {listed : Nat} (spent : stream.drain disk = ([], .ok listed))
      (still : after.drain disk = ([], .ok listed)) : Portion disk count stream (.ok []) after
  /-- A front of what is left is taken, which is not empty if there is room. -/
  | gives {after : DumpStream} {chunk rest : Bytes} {result : Except BlockReadFault Nat}
      (left : stream.drain disk = (chunk ++ rest, result)) (still : after.drain disk = (rest, result))
      (unread : chunk ++ rest ≠ []) (fits : chunk.length ≤ count) (moves : 0 < count → chunk ≠ []) :
      Portion disk count stream (.ok chunk) after

/-- Only what is left counts. -/
theorem Portion.congr {other : DumpStream} {answer : Except BlockReadFault Bytes}
    (same : other.drain disk = stream.drain disk) (portion : Portion disk count stream answer after) :
    Portion disk count other answer after := by
  cases portion with
  | fails spent still => exact .fails (same.trans spent) still
  | ends spent still => exact .ends (same.trans spent) still
  | gives left still unread fits moves => exact .gives (same.trans left) still unread fits moves

/-- Where something is left to read, or the trailer was rendered, a front of the pieces is a portion. -/
theorem portion_of_ready (noneEmpty : stream.NoneEmpty)
    (ready : stream.pending = [] → stream.stage = .done) (disk : Disk) (count : Nat) :
    ∃ chunk rest, takeBytes count stream.pending = (chunk, rest) ∧
      Portion disk count stream (.ok chunk) { stream with pending := rest } ∧
      NoneEmpty { stream with pending := rest } := by
  by_cases nothing : stream.pending = []
  · refine ⟨[], [], by rw [nothing, takeBytes], ?_, List.forall_mem_nil _⟩
    exact .ends (drain_of_done nothing (ready nothing)) (drain_of_done rfl (ready nothing))
  · obtain ⟨rest, takes, isRest, noneEmptyRest⟩ := takeBytes_eq noneEmpty count
    obtain ⟨piece, later, isPending⟩ := List.exists_cons_of_ne_nil nothing
    have filled : stream.pending.flatten ≠ [] := by
      rw [isPending, List.flatten_cons]
      exact List.append_ne_nil_of_left_ne_nil (noneEmpty piece (isPending ▸ List.mem_cons_self)) _
    obtain ⟨⟨text, result⟩, behind⟩ :
      ∃ behind, { stream with pending := [] }.drain disk = behind := ⟨_, rfl⟩
    have left : stream.drain disk = (stream.pending.flatten ++ text, result) :=
      drain_pending stream stream.pending behind
    have still := drain_pending stream rest behind
    have whole : stream.pending.flatten.take count ++ (rest.flatten ++ text) =
        stream.pending.flatten ++ text := by
      rw [isRest, ← List.append_assoc, List.take_append_drop]
    refine ⟨_, rest, takes, .gives (left.trans ?_) still ?_ (List.length_take_le _ _) ?_,
      noneEmptyRest⟩
    · rw [whole]
    · rw [whole]
      exact List.append_ne_nil_of_left_ne_nil filled _
    · intro room none
      rcases List.take_eq_nil_iff.mp none with rfl | isNil
      · exact absurd room (Nat.lt_irrefl 0)
      · exact filled isNil

/-- A reading takes a portion. -/
theorem portion_read (noneEmpty : stream.NoneEmpty) (disk : Disk) (count : Nat) :
    Portion disk count stream (stream.read disk count).1 (stream.read disk count).2 ∧
      (stream.read disk count).2.NoneEmpty := by
  have same := drain_settle disk stream
  have again := settle_settle disk stream
  have noneEmpty := noneEmpty.settle disk
  have ready : (stream.settle disk).fault = none → _ → _ := done_of_settled
  cases outcome : stream.settle disk with
  | mk settled fault? =>
    rw [outcome] at same again noneEmpty ready
    cases fault? with
    | some fault =>
      have spent : settled.drain disk = ([], .error fault) :=
        drainAfter_of_error (by rw [readLine, again])
      rw [read_of_failed outcome]
      exact ⟨.fails (same.symm.trans spent) spent, noneEmpty⟩
    | none =>
      obtain ⟨chunk, rest, takes, portion, noneEmptyRest⟩ :=
        portion_of_ready noneEmpty (ready rfl) disk count
      rw [read_of_settled outcome, takes]
      exact ⟨portion.congr same.symm, noneEmptyRest⟩

/-- What is taken stands in front of what is left behind it. -/
theorem Portion.drain_eq {answer : Except BlockReadFault Bytes}
    (portion : Portion disk count stream answer after) :
    stream.drain disk =
      (answer.toOption.getD [] ++ (after.drain disk).1, (after.drain disk).2) := by
  cases portion with
  | fails spent still => rw [spent, still]; rfl
  | ends spent still => rw [spent, still]; rfl
  | gives left still => rw [left, still]; rfl

/-- Where nothing is left, a reading tells how the dump ends, and nothing is left behind it. -/
theorem Portion.of_spent {answer : Except BlockReadFault Bytes} {result : Except BlockReadFault Nat}
    (portion : Portion disk count stream answer after) (spent : stream.drain disk = ([], result)) :
    answer = result.map (fun _ => []) ∧ after.drain disk = ([], result) := by
  cases portion with
  | fails same still =>
    cases spent.symm.trans same
    exact ⟨rfl, still⟩
  | ends same still =>
    cases spent.symm.trans same
    exact ⟨rfl, still⟩
  | gives left still unread => exact absurd (congrArg Prod.fst (left.symm.trans spent)) unread

/-! ## Readings one after the other -/

/-- A dump of which portions were read, up to a number of bytes each time. -/
def behind (disk : Disk) (stream : DumpStream) : List Nat → DumpStream
  | [] => stream
  | count :: later => behind disk (stream.read disk count).2 later

/-- The bytes that readings have handed out. -/
def delivered (answers : List (Except BlockReadFault Bytes)) : Bytes :=
  answers.flatMap fun answer => answer.toOption.getD []

/-- What was handed out stands in front of what is left. -/
theorem drain_behind (noneEmpty : stream.NoneEmpty) (disk : Disk) (counts : List Nat) :
    stream.drain disk =
        (delivered (stream.reads disk counts) ++ ((stream.behind disk counts).drain disk).1,
          ((stream.behind disk counts).drain disk).2) ∧
      (stream.behind disk counts).NoneEmpty := by
  induction counts generalizing stream with
  | nil => exact ⟨rfl, noneEmpty⟩
  | cons count later ih =>
    obtain ⟨portion, noneEmptyAfter⟩ := portion_read noneEmpty disk count
    obtain ⟨left, noneEmptyBehind⟩ := ih noneEmptyAfter
    refine ⟨?_, noneEmptyBehind⟩
    rw [portion.drain_eq, left]
    simp only [reads, behind, delivered, List.flatMap_cons, List.append_assoc]

/-- Where nothing is left, all readings tell how the dump ends. -/
theorem reads_of_spent {result : Except BlockReadFault Nat} (noneEmpty : stream.NoneEmpty)
    (spent : stream.drain disk = ([], result)) (counts : List Nat) :
    ∀ answer ∈ stream.reads disk counts, answer = result.map fun _ => [] := by
  induction counts generalizing stream with
  | nil => exact List.forall_mem_nil _
  | cons count later ih =>
    obtain ⟨portion, noneEmptyAfter⟩ := portion_read noneEmpty disk count
    obtain ⟨isResult, still⟩ := portion.of_spent spent
    exact List.forall_mem_cons.mpr ⟨isResult, ih noneEmptyAfter still⟩

/-- Nothing is left exactly when everything was handed out. -/
theorem spent_behind_iff {text : Bytes} {result : Except BlockReadFault Nat}
    (noneEmpty : stream.NoneEmpty) (drains : stream.drain disk = (text, result))
    (counts : List Nat) :
    (stream.behind disk counts).drain disk = ([], result) ↔
      delivered (stream.reads disk counts) = text := by
  have left := (drain_behind noneEmpty disk counts).1
  rw [drains, Prod.mk.injEq] at left
  rw [Prod.ext_iff, ← left.2, left.1]
  simp

/-- However it is read, a dump hands out one text and then ends in one way. The readings before are given
by the numbers of bytes that there was room for, which may be zero. -/
structure InPortions (disk : Disk) (stream : DumpStream) (text : Bytes)
    (ending : Option BlockReadFault) : Prop where
  /-- What was handed out is a front of the text. -/
  isPrefix (counts : List Nat) : delivered (stream.reads disk counts) <+: text
  /-- No reading gives more bytes than there is room for. -/
  fits (counts : List Nat) {count : Nat} {chunk : Bytes}
    (given : ((stream.behind disk counts).read disk count).1 = .ok chunk) : chunk.length ≤ count
  /-- If there is room and nothing is given, all of the text was handed out, no block was in the way,
  and nothing is given any more. -/
  ends (counts : List Nat) {count : Nat} (room : 0 < count)
    (given : ((stream.behind disk counts).read disk count).1 = .ok []) :
    ending = none ∧ delivered (stream.reads disk counts) = text ∧
      ∀ later, ∀ answer ∈ (stream.behind disk counts).reads disk later, answer = .ok []
  /-- If a reading fails, all of the text in front of the block was handed out that cannot be read. -/
  fails (counts : List Nat) {count : Nat} {fault : BlockReadFault}
    (given : ((stream.behind disk counts).read disk count).1 = .error fault) :
    ending = some fault ∧ delivered (stream.reads disk counts) = text
  /-- If all of the text in front of such a block was handed out, all readings fail. -/
  failed (counts : List Nat) {fault : BlockReadFault} (isFault : ending = some fault)
    (whole : delivered (stream.reads disk counts) = text) :
    ∀ later, ∀ answer ∈ (stream.behind disk counts).reads disk later, answer = .error fault

/-- A dump hands out what is read of it at once. -/
theorem inPortions_of_drain {text : Bytes} {listed : Nat} {ending : Option BlockReadFault}
    (noneEmpty : stream.NoneEmpty) (drains : stream.drain disk = (text, resultOf listed ending)) :
    InPortions disk stream text ending where
  isPrefix counts := by
    have left := (drain_behind noneEmpty disk counts).1
    exact ⟨_, congrArg Prod.fst (left.symm.trans drains)⟩
  fits counts count chunk given := by
    have portion := (portion_read (drain_behind noneEmpty disk counts).2 disk count).1
    rw [given] at portion
    cases portion with
    | ends => exact Nat.zero_le _
    | gives _ _ _ fits => exact fits
  ends counts count room given := by
    obtain ⟨left, noneEmptyBehind⟩ := drain_behind noneEmpty disk counts
    have portion := (portion_read noneEmptyBehind disk count).1
    rw [given] at portion
    cases portion with
    | @ends _ number spent =>
      have isResult : .ok number = resultOf listed ending := by
        rw [left, spent] at drains
        exact congrArg Prod.snd drains
      refine ⟨?_, ?_, fun later => reads_of_spent noneEmptyBehind spent later⟩
      · cases ending with
        | none => rfl
        | some fault => cases isResult
      · exact (spent_behind_iff noneEmpty drains counts).mp (isResult ▸ spent)
    | gives _ _ _ _ moves => exact absurd rfl (moves room)
  fails counts count fault given := by
    obtain ⟨left, noneEmptyBehind⟩ := drain_behind noneEmpty disk counts
    have portion := (portion_read noneEmptyBehind disk count).1
    rw [given] at portion
    cases portion with
    | fails spent =>
      have isResult : .error fault = resultOf listed ending := by
        rw [left, spent] at drains
        exact congrArg Prod.snd drains
      refine ⟨?_, (spent_behind_iff noneEmpty drains counts).mp (isResult ▸ spent)⟩
      cases ending with
      | none => cases isResult
      | some other => exact congrArg some (Except.error.inj isResult).symm
  failed counts fault isFault whole later := by
    subst isFault
    have spent := (spent_behind_iff noneEmpty drains counts).mpr whole
    exact reads_of_spent (drain_behind noneEmpty disk counts).2 spent later

/-- However the dump of a table is read, it hands out the same text, which is also the text that is read at
once: the header, a line for each entry that is rendered, and the trailer. If a block is in the way that
cannot be read, the entries are those of the blocks before it, and there is no trailer. -/
theorem reads_inPortions (disk : Disk) (table : Table) (range : KeyRange) :
    ∃ entries ending, table.Renders disk range (firstBlock table range) entries ending ∧
      (∀ fault, ending = some fault →
        ∃ index, table.IsObstructed disk range (firstBlock table range) index fault) ∧
      (∀ index fault, table.IsObstructed disk range (firstBlock table range) index fault →
        ending = some fault ∧
          entries = table.renderedBefore disk range (firstBlock table range) index) ∧
      (ofTable table range).drain disk =
        ((DumpLine.header range :: linesBehind 0 entries ending).flatMap DumpLine.bytes,
          resultOf entries.length ending) ∧
      InPortions disk (ofTable table range)
        ((DumpLine.header range :: linesBehind 0 entries ending).flatMap DumpLine.bytes) ending := by
  obtain ⟨entries, ending, renders⟩ := table.exists_renders disk range (firstBlock table range)
  have drains := drain_ofTable renders
  refine ⟨entries, ending, renders, ?_, fun index fault obstructed => ?_, drains, ?_⟩
  · rintro fault rfl
    exact renders.exists_obstructed
  · exact renders.of_obstructed obstructed
  · exact inPortions_of_drain (List.forall_mem_nil _) drains

end DumpStream

end SortedTables
