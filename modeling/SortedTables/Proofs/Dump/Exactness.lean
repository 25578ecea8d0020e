import SortedTables.Proofs.Cursor.Calls
import SortedTables.Proofs.Dump.Grammar
import SortedTables.Proofs.Dump.Lossless

/-!
# A scan accepts dumps and nothing else

A scan of a text is drained without a fault exactly if the text is a dump, and then it shows the
entries of the dump and is finished. Of any other text it shows the entries on the lines before the
place where the text stops being a dump, and there it fails. Behind the failure it shows nothing, and
no call finishes it.

`RawScan.Listing` is the invariant: what the scan has counted and kept is that of the lines it has read,
which are a header and entries, and its source has the other lines of the text. From such a place each
kind of next line leads to its own outcome.
-/

namespace SortedTables

namespace RawScan

open Cursor LineSource DumpText

variable {disk : Disk} {scan : RawScan} {path : String} {text : Bytes} {tool : Option Nat}
  {range : KeyRange} {entries seen : List Entry} {line : Bytes} {rest : List Bytes}

/-! ## What a scan makes of a text -/

/-- A scan of a text is started and drained without a fault: the text states a range, and shows
entries. -/
def Accepts (disk : Disk) (path : String) (text : Bytes) (tool : Option Nat) (range : KeyRange)
    (entries : List Entry) : Prop :=
  ∃ scan last, start disk path (.text text) tool = .ok scan ∧ scan.range = range ∧
    Drains disk showing? scan entries last

/-- A scan of a text shows entries and then complains about a line. If it was started, no entry is shown
any more behind all calls that follow, and no such call finishes it. -/
inductive Refuses (disk : Disk) (path : String) (text : Bytes) (tool : Option Nat) :
    List Entry → Nat → Prop where
  | atStart {number : Nat} (failed : ∃ complaint,
        start disk path (.text text) tool = .error (.malformed path number complaint)) :
      Refuses disk path text tool [] number
  | later {scan middle : RawScan} {before : List Entry} {shown : Entry} {number : Nat}
      (started : start disk path (.text text) tool = .ok scan)
      (passes : Passes disk showing? scan before middle) (here : showing? middle = some shown)
      (failed : ∃ complaint,
        (Cursor.next disk middle).fault = some (.malformed path number complaint))
      (spent : ∀ calls, ∀ step ∈ steps disk (Cursor.next disk middle) calls,
        isValid step.state = false ∧ step.state.finished = false) :
      Refuses disk path text tool (before ++ [shown]) number

/-- A text that is refused is not accepted. -/
theorem Refuses.not_accepts {number : Nat} (refuses : Refuses disk path text tool entries number) :
    ¬ Accepts disk path text tool range seen := by
  rintro ⟨scan, last, started, _, drains⟩
  cases refuses with
  | atStart failed =>
    obtain ⟨_, failed⟩ := failed
    cases started.symm.trans failed
  | later isStarted passes here failed _ =>
    obtain ⟨_, failed⟩ := failed
    cases started.symm.trans isStarted
    exact passes.not_drains here failed drains

/-- A text is accepted as one dump only. -/
theorem Accepts.unique {other : KeyRange} (accepts : Accepts disk path text tool range entries)
    (acceptsOther : Accepts disk path text tool other seen) : range = other ∧ entries = seen := by
  obtain ⟨scan, last, started, rfl, drains⟩ := accepts
  obtain ⟨_, _, isStarted, rfl, drainsOther⟩ := acceptsOther
  cases started.symm.trans isStarted
  exact ⟨rfl, drains.unique drainsOther⟩

/-- Where a scan shows nothing, moving on does nothing. -/
theorem next_of_spent (disk : Disk) (spent : scan.current = none) :
    Cursor.next disk scan = .done scan :=
  if_neg (by simp [spent])

/-- Where a scan shows nothing, seeking does nothing. -/
theorem seek_of_spent (disk : Disk) (key : Key) (spent : scan.current = none) :
    Cursor.seek disk key scan = .done scan := by
  change RawScan.seek disk key scan = _
  rw [RawScan.seek, spent]
  rfl

/-- A scan is closed, whether or not that fails. -/
theorem state_close (scan : RawScan) :
    (Cursor.close scan).state =
      { scan with current := none, source := .text [], tool := none } := by
  change (RawScan.close scan).state = _
  unfold RawScan.close
  cases scan.tool with
  | none => rfl
  | some status =>
    dsimp only
    split <;> rfl

/-- A scan that shows nothing and is not finished stays so. -/
theorem spent_of_call (scan : RawScan) (spent : scan.current = none ∧ scan.finished = false)
    (call : Call) : (call.run disk scan).state.current = none ∧
      (call.run disk scan).state.finished = false := by
  cases call with
  | next =>
    rw [Call.run, next_of_spent disk spent.1]
    exact spent
  | seek key =>
    rw [Call.run, seek_of_spent disk key spent.1]
    exact spent
  | close =>
    rw [Call.run, state_close]
    exact ⟨rfl, spent.2⟩

/-! ## Reading lines -/

/-- Behind the end of a line of a text, or in front of it, there is no other end in it. -/
theorem newline_not_mem_dropLast (member : line ∈ linesOf text) : newline ∉ line.dropLast := by
  induction text generalizing line with
  | nil => cases member
  | cons byte later ih =>
    rw [linesOf] at member
    split at member
    · rcases List.mem_cons.mp member with rfl | member
      · simp
      · exact ih member
    · next other =>
      cases lines : linesOf later with
      | nil =>
        rw [lines] at member
        cases List.mem_singleton.mp member
        simp
      | cons first behind =>
        rw [lines] at member ih
        rcases List.mem_cons.mp member with rfl | member
        · cases first with
          | nil => simp
          | cons next bytes =>
            have inside := ih List.mem_cons_self
            rw [List.dropLast_cons_of_ne_nil (List.cons_ne_nil _ _), List.mem_cons, not_or]
            exact ⟨Ne.symm other, inside⟩
        · exact ih (List.mem_cons_of_mem _ member)

/-- A line of a text is decoded as what it stands for, and refused if it stands for nothing. -/
theorem decodeLine_eq_ok_iff {decoded : DumpLine} (member : line ∈ linesOf text) :
    decodeLine line = .ok decoded ↔ IsLine line decoded := by
  constructor
  · intro accepted
    unfold decodeLine at accepted
    split at accepted
    · cases accepted
    · next whole isText =>
      split at accepted
      · next ends =>
        obtain ⟨front, rfl⟩ := List.getLast?_eq_some_iff.mp ends
        have written := Utf8.decode?_eq_some_iff.mp isText
        refine ⟨front, ?_, written, ?_⟩
        · intro inside
          apply newline_not_mem_dropLast member
          rw [written, Utf8.encode_append, show Utf8.encode ['\n'] = [newline] from rfl,
            List.dropLast_concat]
          exact List.mem_flatMap.mpr ⟨'\n', inside, List.mem_singleton.mpr rfl⟩
        · cases parsed : DumpLine.parse (front ++ ['\n']) with
          | error fault => simp [parsed, Except.mapError] at accepted
          | ok found =>
            rw [parsed] at accepted
            cases accepted
            rfl
      · cases accepted
  · rintro ⟨front, _, written, parsed⟩
    have isText := Utf8.decode?_eq_some_iff.mpr written
    simp only [decodeLine, isText, List.getLast?_append, List.getLast?_singleton, Option.some_or,
      if_true, parsed]
    rfl

/-- Reading a text that has lines takes the first one. -/
theorem readLine_of_linesOf (disk : Disk) (scan : RawScan) (source : scan.source = .text text)
    (lines : linesOf text = line :: rest) :
    ∃ after, linesOf after = rest ∧
      scan.readLine disk =
        match decodeLine line with
        | .error reason => (.error (.malformed scan.path (scan.lineNumber + 1) reason),
            { scan with source := .text after, lineNumber := scan.lineNumber + 1 })
        | .ok decoded => (.ok (some decoded),
            { scan with source := .text after, lineNumber := scan.lineNumber + 1 }) := by
  cases text with
  | nil => cases lines
  | cons byte later =>
    rw [linesOf_eq_cons] at lines
    injection lines with isLine isRest
    refine ⟨(takeLine (byte :: later)).2, isRest, ?_⟩
    unfold readLine
    rw [source]
    simp only [LineSource.readLine, isLine]
    cases decodeLine line <;> rfl

/-- Reading an empty text gives no line. -/
theorem readLine_of_nil (source : scan.source = .text []) : scan.readLine disk = (.ok none, scan) := by
  obtain ⟨path, source, tool, range, number, current, lastKey, listed, finished⟩ := scan
  cases source
  rfl

/-! ## Behind a header and entries -/

/-- A scan has read the header of a range and entries that may be listed, and there are lines behind
them. -/
structure Listing (scan : RawScan) (path : String) (range : KeyRange) (seen : List Entry)
    (rest : List Bytes) : Prop where
  /-- The path is that of the table. -/
  path : scan.path = path
  /-- The source has the other lines. -/
  source : ∃ text, scan.source = .text text ∧ linesOf text = rest
  /-- The range is that of the header. -/
  range : scan.range = range
  /-- The lines were counted. -/
  lineNumber : scan.lineNumber = seen.length + 1
  /-- The last key is that of the last entry. -/
  lastKey : scan.lastKey = seen.getLast?.map Entry.key
  /-- The entries were counted. -/
  listed : scan.listed = seen.length
  /-- The trailer was not read. -/
  unfinished : scan.finished = false

/-- A step complains about a line, and leaves a scan that shows nothing and is not finished. -/
def Complains (step : Step RawScan Fault) (path : String) (number : Nat) : Prop :=
  ∃ complaint, step.fault = some (.malformed path number complaint) ∧ step.state.current = none ∧
    step.state.finished = false

/-- One more entry may be listed exactly if its key is above the last one and belongs to the range. -/
theorem listable_concat_iff (listable : Listable range seen) (entry : Entry) :
    Listable range (seen ++ [entry]) ↔
      (seen.getLast?.map Entry.key).any (entry.key ≤ ·) = false ∧
        range.contains entry.key = true := by
  have above : (seen.getLast?.map Entry.key).any (entry.key ≤ ·) = false ↔
      ∀ last, seen.getLast? = some last → last.key < entry.key := by
    cases seen.getLast? <;> simp
  rw [above]
  constructor
  · rintro ⟨ascends, inside⟩
    exact ⟨(Ascending.concat_iff.mp ascends).2, inside entry (by simp)⟩
  · rintro ⟨behind, contained⟩
    refine ⟨Ascending.concat_iff.mpr ⟨listable.ascends, behind⟩, fun other member => ?_⟩
    rcases List.mem_append.mp member with member | member
    · exact listable.inside other member
    · cases List.mem_singleton.mp member
      exact contained

namespace Listing

/-- Advancing reads the next line. What it stands for decides about the rest of the step. -/
theorem readLine (disk : Disk) (here : Listing scan path range seen (line :: rest)) :
    ∃ after, linesOf after = rest ∧
      RawScan.readLine disk { scan with current := none } =
        match decodeLine line with
        | .error reason => (.error (.malformed path (seen.length + 2) reason),
            { scan with current := none, source := .text after, lineNumber := seen.length + 2 })
        | .ok decoded => (.ok (some decoded),
            { scan with current := none, source := .text after, lineNumber := seen.length + 2 }) := by
  obtain ⟨text, source, lines⟩ := here.source
  obtain ⟨after, isRest, reads⟩ :=
    readLine_of_linesOf disk { scan with current := none } source lines
  refine ⟨after, isRest, ?_⟩
  rw [reads]
  simp only [here.path, here.lineNumber]

/-- An entry that may be listed is accepted. -/
theorem advance_entry (disk : Disk) (here : Listing scan path range seen (line :: rest)) {entry : Entry}
    (isEntry : IsLine line (.entry entry)) (listable : Listable range (seen ++ [entry])) :
    ∃ after, scan.advance disk = .done after ∧ after.current = some entry ∧
      Listing after path range (seen ++ [entry]) rest := by
  obtain ⟨text, _, lines⟩ := here.source
  have decoded := (decodeLine_eq_ok_iff (lines ▸ List.mem_cons_self)).mpr isEntry
  obtain ⟨source, isRest, reads⟩ := here.readLine disk
  rw [decoded] at reads
  have before : Listable range seen :=
    ⟨(Ascending.concat_iff.mp listable.ascends).1,
      fun other member => listable.inside other (List.mem_append_left _ member)⟩
  obtain ⟨above, contained⟩ := (listable_concat_iff before entry).mp listable
  rw [← here.lastKey] at above
  rw [← here.range] at contained
  let after : RawScan := { scan with
    current := some entry, lastKey := some entry.key, listed := scan.listed + 1,
    source := .text source, lineNumber := seen.length + 2 }
  have advances : scan.advance disk = .done after := by
    simp only [advance, reads, acceptEntry, above, Bool.false_eq_true, if_false, contained, if_true,
      after]
  refine ⟨after, advances, rfl, here.path, ⟨source, rfl, isRest⟩, here.range, ?_, ?_, ?_,
    here.unfinished⟩
  · simp [after]
  · simp [after]
  · simp [after, here.listed]

/-- A line that stands for no entry that may be listed, and not for the trailer of the entries so far,
is complained about. -/
theorem complains_of_line (here : Listing scan path range seen (line :: rest))
    (listable : Listable range seen)
    (noEntry : ∀ entry, IsLine line (.entry entry) → ¬ Listable range (seen ++ [entry]))
    (noTrailer : ¬ IsLine line (.trailer seen.length)) :
    Complains (scan.advance disk) path (seen.length + 2) := by
  obtain ⟨text, _, lines⟩ := here.source
  have isLine {decoded : DumpLine} (accepted : decodeLine line = .ok decoded) : IsLine line decoded :=
    (decodeLine_eq_ok_iff (lines ▸ List.mem_cons_self)).mp accepted
  obtain ⟨after, _, reads⟩ := here.readLine disk
  cases found : decodeLine line with
  | error reason =>
    rw [found] at reads
    refine ⟨reason, ?_⟩
    simp only [advance, reads]
    exact ⟨rfl, rfl, here.unfinished⟩
  | ok decoded =>
    rw [found] at reads
    cases decoded with
    | header other =>
      refine ⟨.unexpectedHeader, ?_⟩
      simp only [advance, reads]
      exact ⟨by simp only [complaint, here.path]; rfl, rfl, here.unfinished⟩
    | entry entry =>
      have refused := noEntry entry (isLine found)
      rw [listable_concat_iff listable, ← here.lastKey, ← here.range, not_and] at refused
      simp only [advance, reads, acceptEntry]
      split
      · exact ⟨.notAscending, by simp only [complaint, here.path]; rfl, rfl, here.unfinished⟩
      · next ahead =>
        rw [if_neg (refused (Bool.eq_false_iff.mpr ahead))]
        exact ⟨.outsideRange, by simp only [complaint, here.path]; rfl, rfl, here.unfinished⟩
    | trailer stated =>
      have other : stated ≠ scan.listed := by
        rw [here.listed]
        rintro rfl
        exact noTrailer (isLine found)
      simp only [advance, reads, acceptTrailer, other, if_false]
      exact ⟨.countMismatch stated scan.listed, by simp only [complaint, here.path]; rfl, rfl,
        here.unfinished⟩

/-- The end of a text without a trailer is complained about. -/
theorem complains_of_end (here : Listing scan path range seen []) :
    Complains (scan.advance disk) path (seen.length + 1) := by
  obtain ⟨text, source, lines⟩ := here.source
  obtain rfl := linesOf_eq_nil_iff.mp lines
  have reads : RawScan.readLine disk { scan with current := none } =
      (.ok none, { scan with current := none }) := readLine_of_nil source
  simp only [advance, reads]
  exact ⟨.missingTrailer, by simp only [complaint, here.path, here.lineNumber]; rfl, rfl,
    here.unfinished⟩

/-- The trailer of the entries so far is accepted if nothing follows it, and otherwise what follows is
complained about. -/
theorem advance_trailer (disk : Disk) (here : Listing scan path range seen (line :: rest))
    (isTrailer : IsLine line (.trailer seen.length)) :
    if rest = [] then
      (scan.advance disk).fault = none ∧ (scan.advance disk).state.current = none ∧
        (scan.advance disk).state.range = range
    else Complains (scan.advance disk) path (seen.length + 3) := by
  obtain ⟨text, _, lines⟩ := here.source
  have decoded := (decodeLine_eq_ok_iff (lines ▸ List.mem_cons_self)).mpr isTrailer
  obtain ⟨after, isRest, reads⟩ := here.readLine disk
  rw [decoded] at reads
  simp only [advance, reads, acceptTrailer]
  rw [if_pos here.listed.symm]
  cases rest with
  | nil =>
    obtain rfl := linesOf_eq_nil_iff.mp isRest
    rw [if_pos rfl, readLine_of_nil rfl]
    exact ⟨rfl, rfl, here.range⟩
  | cons next later =>
    rw [if_neg (List.cons_ne_nil _ _)]
    obtain ⟨_, _, follows⟩ := readLine_of_linesOf disk { scan with
      current := none, source := .text after, lineNumber := seen.length + 2 } rfl isRest
    cases found : decodeLine next with
    | error reason =>
      rw [found] at follows
      simp only [follows]
      exact ⟨reason, by simp only [here.path]; rfl, rfl, here.unfinished⟩
    | ok decoded =>
      rw [found] at follows
      simp only [follows]
      exact ⟨.outputContinues, by simp only [complaint, here.path]; rfl, rfl, here.unfinished⟩

/-- A scan that stands at an entry passes over the entries that may be listed behind it. -/
theorem exists_passes (disk : Disk) {current : Entry} {front : List Bytes} {more : List Entry}
    (here : Listing scan path range seen (front ++ rest)) (isCurrent : scan.current = some current)
    (stands : List.Forall₂ IsLine front (more.map .entry))
    (listable : Listable range (seen ++ more)) :
    ∃ middle before shown, current :: more = before ++ [shown] ∧
      Passes disk showing? scan before middle ∧ middle.current = some shown ∧
      Listing middle path range (seen ++ more) rest := by
  induction more generalizing scan seen current front with
  | nil =>
    cases stands
    exact ⟨scan, [], current, rfl, .stays, isCurrent, by simpa using here⟩
  | cons entry later ih =>
    obtain ⟨line, lines, isEntry, isLater, rfl⟩ := List.forall₂_cons_right_iff.mp stands
    have upTo : Listable range (seen ++ [entry]) := by
      have sub : (seen ++ [entry]).Sublist (seen ++ entry :: later) :=
        (List.Sublist.refl seen).append (by simp)
      exact ⟨listable.ascends.sublist sub,
        fun other member => listable.inside other (sub.subset member)⟩
    obtain ⟨after, advances, atEntry, behind⟩ := here.advance_entry disk isEntry upTo
    have moves : Cursor.next disk scan = .done after := by
      rw [next_of_current disk isCurrent, advances]
    have whole : seen ++ entry :: later = (seen ++ [entry]) ++ later := by simp
    rw [whole] at listable ⊢
    obtain ⟨middle, before, shown, split, passes, atShown, onward⟩ :=
      ih behind atEntry isLater listable
    refine ⟨middle, current :: before, shown, by rw [split, List.cons_append], ?_, atShown, onward⟩
    refine .moves ((showing?_eq_current scan).trans isCurrent) (by rw [moves]; rfl) ?_
    rw [moves]
    exact passes

end Listing

/-! ## From the start of a text on -/

/-- A scan of a text comes to a place and is advanced from there: it is started by that, or it was
started before and was moved to the place. -/
inductive Comes (disk : Disk) (path : String) (text : Bytes) (tool : Option Nat) (range : KeyRange)
    (middle : RawScan) : List Entry → Prop where
  | starting (starts : start disk path (.text text) tool =
      match (middle.advance disk).fault with
      | some fault => .error (.ofFault none fault)
      | none => .ok (middle.advance disk).state) : Comes disk path text tool range middle []
  | moving {scan : RawScan} {before : List Entry} {shown : Entry}
      (started : start disk path (.text text) tool = .ok scan) (sameRange : scan.range = range)
      (passes : Passes disk showing? scan before middle) (current : middle.current = some shown) :
      Comes disk path text tool range middle (before ++ [shown])

/-- Where the step from the place complains, the text is refused. -/
theorem Comes.refuses {middle : RawScan} {number : Nat}
    (comes : Comes disk path text tool range middle entries)
    (complains : Complains (middle.advance disk) path number) :
    Refuses disk path text tool entries number := by
  obtain ⟨complaint, failed, spent⟩ := complains
  cases comes with
  | starting starts =>
    rw [failed] at starts
    exact .atStart ⟨complaint, starts⟩
  | moving started _ passes current =>
    have moves := next_of_current disk current
    refine .later started passes ((showing?_eq_current _).trans current)
      ⟨complaint, by rw [moves]; exact failed⟩ ?_
    intro calls step member
    obtain ⟨nothing, unfinished⟩ := forall_steps
      (fun scan : RawScan => scan.current = none ∧ scan.finished = false)
      spent_of_call (by rw [moves]; exact spent) calls step member
    exact ⟨valid_of_showing?_eq_none ((showing?_eq_current _).trans nothing), unfinished⟩

/-- Where the step from the place succeeds and comes to no entry, the text is accepted. -/
theorem Comes.accepts {middle : RawScan} (comes : Comes disk path text tool range middle entries)
    (moved : (middle.advance disk).fault = none)
    (spent : (middle.advance disk).state.current = none)
    (sameRange : (middle.advance disk).state.range = range) :
    Accepts disk path text tool range entries := by
  cases comes with
  | starting starts =>
    rw [moved] at starts
    exact ⟨_, _, starts, sameRange, .atEnd ((showing?_eq_current _).trans spent)⟩
  | @moving scan before shown started isRange passes current =>
    have moves := next_of_current disk current
    refine ⟨scan, (middle.advance disk).state, started, isRange, passes.drains ?_⟩
    rw [← moves] at moved spent ⊢
    exact .goesOn ((showing?_eq_current _).trans current) moved
      (.atEnd ((showing?_eq_current _).trans spent))

/-- A scan of a text that begins with a header is started by advancing from behind it. -/
theorem start_of_header (disk : Disk) (path : String) (tool : Option Nat)
    (lines : linesOf text = line :: rest) (isHeader : IsLine line (.header range)) :
    ∃ headed, Listing headed path range [] rest ∧ headed.tool = tool ∧
      start disk path (.text text) tool =
        match (headed.advance disk).fault with
        | some fault => .error (.ofFault none fault)
        | none => .ok (headed.advance disk).state := by
  have member : line ∈ linesOf text := by
    rw [lines]
    exact List.mem_cons_self
  have decoded := (decodeLine_eq_ok_iff member).mpr isHeader
  obtain ⟨after, isRest, reads⟩ := readLine_of_linesOf disk
    (ofSource path (.text text) tool) rfl lines
  rw [decoded] at reads
  let headed : RawScan := { ofSource path (.text text) tool with
    source := .text after, lineNumber := 1, range }
  have isHeaded : (ofSource path (.text text) tool).readHeader disk = .done headed := by
    rw [readHeader, reads]
    rfl
  refine ⟨headed, ⟨rfl, ⟨after, rfl, isRest⟩, rfl, rfl, rfl, rfl, rfl⟩, rfl, ?_⟩
  rw [start, isHeaded]
  rfl

/-- A scan passes over the lines of a header and of entries that may be listed. -/
theorem exists_comes (disk : Disk) (path : String) (tool : Option Nat) {front : List Bytes}
    (lines : linesOf text = front ++ rest)
    (listable : Listable range entries)
    (stands : List.Forall₂ IsLine front (listing range entries)) :
    ∃ middle, Listing middle path range entries rest ∧
      Comes disk path text tool range middle entries := by
  obtain ⟨line, later, isHeader, isLater, rfl⟩ := List.forall₂_cons_right_iff.mp stands
  rw [List.cons_append] at lines
  obtain ⟨headed, here, _, starts⟩ := start_of_header disk path tool lines isHeader
  cases entries with
  | nil =>
    cases isLater
    exact ⟨headed, here, .starting starts⟩
  | cons entry more =>
    obtain ⟨first, behind, isFirst, isBehind, rfl⟩ := List.forall₂_cons_right_iff.mp isLater
    have single : Listable range [entry] :=
      ⟨List.pairwise_singleton _ _, fun other member => listable.inside other
        (List.mem_singleton.mp member ▸ List.mem_cons_self)⟩
    obtain ⟨scan, advances, current, onward⟩ := here.advance_entry disk isFirst single
    rw [advances] at starts
    obtain ⟨middle, before, shown, split, passes, atShown, there⟩ :=
      onward.exists_passes disk current isBehind listable
    rw [split]
    rw [List.nil_append, List.singleton_append, split] at there
    exact ⟨middle, there, .moving starts onward.range passes atShown⟩

/-- A dump is accepted. -/
theorem accepts_of_wellFormed (wellFormed : WellFormed text range entries) :
    Accepts disk path text tool range entries := by
  have isFront := List.forall₂_take_append _ _ _ wellFormed.stands
  have isLast := List.forall₂_drop_append _ _ _ wellFormed.stands
  obtain ⟨trailer, none, isTrailer, isNone, split⟩ := List.forall₂_cons_right_iff.mp isLast
  cases isNone
  have lines := (List.take_append_drop (listing range entries).length (linesOf text)).symm
  rw [split] at lines
  obtain ⟨middle, here, comes⟩ :=
    exists_comes disk path tool lines wellFormed.listable isFront
  have advances := here.advance_trailer disk isTrailer
  rw [if_pos rfl] at advances
  obtain ⟨moved, spent, sameRange⟩ := advances
  exact comes.accepts moved spent sameRange

/-- A scan of a text that does not begin with a header is not started. -/
theorem start_of_noHeader (disk : Disk) (path : String) (tool : Option Nat)
    (lines : linesOf text = line :: rest) (noHeader : ∀ range, ¬ IsLine line (.header range)) :
    ∃ complaint, start disk path (.text text) tool = .error (.malformed path 1 complaint) := by
  have member : line ∈ linesOf text := by
    rw [lines]
    exact List.mem_cons_self
  obtain ⟨after, _, reads⟩ := readLine_of_linesOf disk
    (ofSource path (.text text) tool) rfl lines
  have failed : ∃ complaint, ((ofSource path (.text text) tool).readHeader disk).fault =
      some (.malformed path 1 complaint) := by
    cases found : decodeLine line with
    | error reason =>
      rw [found] at reads
      exact ⟨reason, by rw [readHeader, reads]; rfl⟩
    | ok decoded =>
      rw [found] at reads
      cases decoded with
      | header range => exact absurd ((decodeLine_eq_ok_iff member).mp found) (noHeader range)
      | entry _ => exact ⟨.missingHeader, by rw [readHeader, reads]; rfl⟩
      | trailer _ => exact ⟨.missingHeader, by rw [readHeader, reads]; rfl⟩
  obtain ⟨complaint, failed⟩ := failed
  exact ⟨complaint, by simp only [start, Step.andThen, failed]; rfl⟩

/-- An empty text is refused. -/
theorem refuses_nil : Refuses disk path [] tool [] 0 :=
  .atStart ⟨.emptyOutput, rfl⟩

/-- A text with a line that may not stand behind the lines before it is refused there. -/
theorem refuses_of_offends {place : Nat} (inside : place < (linesOf text).length)
    (fine : IsFront ((linesOf text).take place) entries)
    (offends : ∀ more, ¬ IsFront ((linesOf text).take (place + 1)) more) :
    Refuses disk path text tool entries (place + 1) := by
  rw [← List.take_concat_get inside, List.concat_eq_append] at offends
  have lines : linesOf text =
      (linesOf text).take place ++ (linesOf text)[place] :: (linesOf text).drop (place + 1) := by
    rw [← List.drop_eq_getElem_cons inside, List.take_append_drop]
  generalize (linesOf text)[place] = line at lines offends
  have length := List.length_take_of_le inside.le
  generalize (linesOf text).take place = front at fine offends lines length
  cases fine with
  | nothing none =>
    subst none length
    refine .atStart (start_of_noHeader disk path tool lines fun range isHeader => offends [] ?_)
    exact .listing ⟨List.Pairwise.nil, by simp⟩ (.cons isHeader .nil)
  | @listing range _ listable stands =>
    obtain ⟨middle, here, comes⟩ :=
      exists_comes disk path tool lines listable stands
    have asMany : place = entries.length + 1 := by
      rw [← length, stands.length_eq]
      simp [DumpText.listing]
    subst asMany
    refine comes.refuses (here.complains_of_line listable ?_ ?_)
    · intro entry isEntry more
      refine offends _ (.listing more ?_)
      rw [DumpText.listing, List.map_append, ← List.cons_append]
      exact List.rel_append stands (.cons isEntry .nil)
    · intro isTrailer
      exact offends entries (.whole listable (List.rel_append stands (.cons isTrailer .nil)))
  | @whole range _ listable stands =>
    have asMany : place = entries.length + 2 := by
      rw [← length, stands.length_eq, length_whole]
    subst asMany
    have isFront := List.forall₂_take_append _ _ _ stands
    have isLast := List.forall₂_drop_append _ _ _ stands
    obtain ⟨trailer, none, isTrailer, isNone, split⟩ := List.forall₂_cons_right_iff.mp isLast
    cases isNone
    rw [← List.take_append_drop (DumpText.listing range entries).length front, split,
      List.append_assoc, List.singleton_append] at lines
    obtain ⟨middle, here, comes⟩ :=
      exists_comes disk path tool lines listable isFront
    have advances := here.advance_trailer disk isTrailer
    rw [if_neg (List.cons_ne_nil _ _)] at advances
    exact comes.refuses advances

/-- A text that ends where more of a dump is due is refused at its end. -/
theorem refuses_of_tooShort (fine : IsFront (linesOf text) entries)
    (unfinished : ∀ range more, ¬ WellFormed text range more) :
    Refuses disk path text tool entries (linesOf text).length := by
  cases fine with
  | nothing none =>
    obtain rfl := linesOf_eq_nil_iff.mp none
    exact refuses_nil
  | @listing range _ listable stands =>
    obtain ⟨middle, here, comes⟩ := exists_comes disk path tool
      (List.append_nil (linesOf text)).symm listable stands
    have asMany : (linesOf text).length = entries.length + 1 := by
      rw [stands.length_eq]
      simp [DumpText.listing]
    rw [asMany]
    exact comes.refuses here.complains_of_end
  | @whole range _ listable stands => exact absurd ⟨listable, stands⟩ (unfinished range entries)

/-- A text is refused where it stops being a dump. -/
theorem refuses_of_breaks {number : Nat} (breaks : Breaks text entries number) :
    Refuses disk path text tool entries number := by
  cases breaks with
  | offends inside fine offends => exact refuses_of_offends inside fine offends
  | tooShort fine unfinished => exact refuses_of_tooShort fine unfinished

/-- A scan of a text is started and drained without a fault exactly if the text is a dump, and then it
shows the entries of the dump and is finished. Any other text is refused: the scan shows the entries on
the lines before the place where the text stops being a dump, complains about that line, and is never
finished. No proper beginning of a dump is accepted. -/
theorem accepts_exactly (disk : Disk) (path : String) (text : Bytes) (tool : Option Nat) :
    (∀ range entries, Accepts disk path text tool range entries ↔ WellFormed text range entries) ∧
    (∀ scan entries last, start disk path (.text text) tool = .ok scan →
      Drains disk showing? scan entries last → last.finished = true) ∧
    ((∀ range entries, ¬ WellFormed text range entries) →
      ∃ entries number, Breaks text entries number) ∧
    (∀ entries number, Breaks text entries number → Refuses disk path text tool entries number) ∧
    (∀ front, front <+: text → front ≠ text → (∃ range entries, WellFormed text range entries) →
      ∀ range entries, ¬ Accepts disk path front tool range entries) := by
  have exact (text : Bytes) (range : KeyRange) (entries : List Entry) :
      Accepts disk path text tool range entries ↔ WellFormed text range entries := by
    constructor
    · intro accepts
      by_cases isDump : ∃ range entries, WellFormed text range entries
      · obtain ⟨other, more, wellFormed⟩ := isDump
        obtain ⟨rfl, rfl⟩ := accepts.unique (accepts_of_wellFormed wellFormed)
        exact wellFormed
      · obtain ⟨before, number, breaks⟩ := exists_breaks fun range entries wellFormed =>
          isDump ⟨range, entries, wellFormed⟩
        exact absurd accepts (refuses_of_breaks breaks).not_accepts
    · exact accepts_of_wellFormed
  refine ⟨exact text, fun _ _ _ => finished_of_drains_start, exists_breaks,
    fun _ _ => refuses_of_breaks, ?_⟩
  rintro front isFront other ⟨range, entries, wellFormed⟩ frontRange seen accepts
  exact other (wellFormed.eq_of_isPrefix ((exact front frontRange seen).mp accepts) isFront)

/-- The dump of a single entry. -/
def single : Bytes := Utf8.encode "from [] to []\n'61' seq:7, type:1 => 62\n# entries: 1\n".toList

/-- The lines of the dump of a single entry. -/
theorem wellFormed_single : WellFormed single .all [⟨⟨[97]⟩, 7, .put, [98]⟩] where
  listable := ⟨List.pairwise_singleton _ _, by decide⟩
  stands := by
    have lines : linesOf single = [Utf8.encode "from [] to []\n".toList,
        Utf8.encode "'61' seq:7, type:1 => 62\n".toList,
        Utf8.encode "# entries: 1\n".toList] := by decide +kernel
    have isLine {line : Bytes} {decoded : DumpLine} (member : line ∈ linesOf single)
        (found : decodeLine line = .ok decoded) : IsLine line decoded :=
      (decodeLine_eq_ok_iff member).mp found
    rw [lines]
    refine .cons ?_ (.cons ?_ (.cons ?_ .nil))
    all_goals exact isLine (by simp [lines]) (by decide +kernel)

/-- A dump is accepted, and no longer is without the end of its last line. -/
theorem accepts_exactly_single :
    Accepts .empty "t" single none .all [⟨⟨[97]⟩, 7, .put, [98]⟩] ∧
      ∀ range entries, ¬ Accepts .empty "t" single.dropLast none range entries := by
  obtain ⟨accepts, _, _, _, noFront⟩ := accepts_exactly .empty "t" single none
  refine ⟨(accepts _ _).mpr wellFormed_single, ?_⟩
  exact noFront _ (List.dropLast_prefix _) (by decide +kernel) ⟨_, _, wellFormed_single⟩

end RawScan

end SortedTables
