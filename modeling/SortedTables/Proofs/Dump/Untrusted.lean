import SortedTables.Proofs.Dump.Exactness

/-!
# What a tool can make a scan show

A tool may write any text and end with any status. Of the scan of its output, if that is opened at all,
`RawScan.openPath_untrusted` says what holds whatever is done with it: it shows nothing but entries of
the text, with ascending keys within the range that was asked for, it is finished only by a text that is
a dump as a whole, and closing it fails exactly if it is finished and the tool has not reported success.

`RawScan.Taken` says how far a scan has come: the lines that it has taken from the text are a header and
entries. There are three ways to advance from such a place (`RawScan.Taken.advance`), and all that a
scan does is to advance from its entries.
-/

namespace SortedTables

namespace RawScan

open Cursor LineSource DumpText

variable {disk : Disk} {scan earlier middle later : RawScan} {step : Step RawScan Fault}
  {host : Host} {path : String} {text : Bytes} {tool : Option Nat} {range : KeyRange}
  {entry : Entry} {seen : List Entry}

/-! ## What a scan has taken from a text -/

/-- A scan has taken the header and the lines of entries from a text, and the other lines are to come. -/
structure Taken (text : Bytes) (range : KeyRange) (scan : RawScan) (seen : List Entry) : Prop where
  /-- The entries may be listed. -/
  listable : Listable range seen
  /-- Their lines are the first ones of the text. -/
  lines : ∃ front rest, linesOf text = front ++ rest ∧
    List.Forall₂ IsLine front (listing range seen) ∧ Listing scan scan.path range seen rest

/-- What advancing leads to behind entries: the next entry of the text, the end of a dump, or a
complaint. -/
inductive Advanced (text : Bytes) (range : KeyRange) (seen : List Entry) :
    Step RawScan Fault → Prop where
  | entry {after : RawScan} {entry : Entry} (current : after.current = some entry)
      (taken : Taken text range after (seen ++ [entry])) : Advanced text range seen (.done after)
  | whole {step : Step RawScan Fault} (spent : step.state.current = none)
      (sameRange : step.state.range = range) (wellFormed : WellFormed text range seen) :
      Advanced text range seen step
  | failed {step : Step RawScan Fault} {fault : Fault} (failed : step.fault = some fault)
      (spent : step.state.current = none) (unfinished : step.state.finished = false) :
      Advanced text range seen step

/-- A complaint is one of the outcomes. -/
theorem Complains.advanced {number : Nat} (complains : Complains step path number) :
    Advanced text range seen step := by
  obtain ⟨_, failed, spent, unfinished⟩ := complains
  exact .failed failed spent unfinished

/-- An entry that was taken stands on a line of the text. -/
theorem Taken.exists_line (taken : Taken text range scan (seen ++ [entry])) :
    ∃ line ∈ linesOf text, IsLine line (.entry entry) := by
  obtain ⟨front, rest, split, stands, _⟩ := taken.lines
  rw [listing, List.map_append, ← List.cons_append] at stands
  have last := List.forall₂_drop_append _ _ _ stands
  obtain ⟨line, none, isEntry, isNone, dropped⟩ := List.forall₂_cons_right_iff.mp last
  have member : line ∈ front := List.mem_of_mem_drop (dropped ▸ List.mem_cons_self)
  exact ⟨line, split ▸ List.mem_append_left rest member, isEntry⟩

/-- The next line of the text decides about what advancing leads to. -/
theorem Taken.advance (disk : Disk) (taken : Taken text range scan seen) :
    Advanced text range seen (scan.advance disk) := by
  obtain ⟨listable, front, rest, split, stands, here⟩ := taken
  cases rest with
  | nil => exact here.complains_of_end.advanced
  | cons line rest =>
    have onward {decoded : DumpLine} (isLine : IsLine line decoded) :
        List.Forall₂ IsLine (front ++ [line]) (listing range seen ++ [decoded]) :=
      List.rel_append stands (.cons isLine .nil)
    -- Behind the header only two kinds of lines are due, and everything else is complained about.
    by_cases isNext : ∃ entry, IsLine line (.entry entry) ∧ Listable range (seen ++ [entry])
    · obtain ⟨entry, isEntry, more⟩ := isNext
      obtain ⟨after, advances, current, behind⟩ := here.advance_entry disk isEntry more
      have samePath : after.path = scan.path := behind.path
      rw [advances]
      refine .entry current ⟨more, front ++ [line], rest, by simp [split], ?_, samePath ▸ behind⟩
      rw [listing, List.map_append, ← List.cons_append]
      exact onward isEntry
    · by_cases isTrailer : IsLine line (.trailer seen.length)
      · have advances := here.advance_trailer disk isTrailer
        split at advances
        · next none =>
          obtain ⟨_, spent, sameRange⟩ := advances
          subst none
          exact .whole spent sameRange ⟨listable, split ▸ onward isTrailer⟩
        · exact advances.advanced
      · refine (here.complains_of_line listable ?_ isTrailer).advanced
        exact fun next isEntry more => isNext ⟨next, isEntry, more⟩

/-! ## What is borne out by a text -/

/-- What a scan shows and states is borne out by a text: its entry is the last one that it has taken,
and if it is finished, then the text is a dump. -/
structure BorneOut (text : Bytes) (range : KeyRange) (scan : RawScan) : Prop where
  /-- The entry was taken from the text. -/
  taken : ∀ entry, scan.current = some entry → ∃ before, Taken text range scan (before ++ [entry])
  /-- The text is a dump. -/
  whole : scan.finished = true → ∃ entries, WellFormed text range entries

namespace Advanced

/-- What advancing leads to is borne out. -/
theorem borneOut (advanced : Advanced text range seen step) : BorneOut text range step.state := by
  cases advanced with
  | @entry after found current taken =>
    obtain ⟨_, _, _, _, here⟩ := taken.lines
    refine ⟨fun entry isEntry => ?_, fun finished => ?_⟩
    · cases current.symm.trans isEntry
      exact ⟨seen, taken⟩
    · cases here.unfinished.symm.trans finished
  | whole spent _ wellFormed => exact ⟨by simp [spent], fun _ => ⟨seen, wellFormed⟩⟩
  | failed _ spent unfinished => exact ⟨by simp [spent], by simp [unfinished]⟩

/-- An entry that advancing leads to stands above the one before. -/
theorem above (advanced : Advanced text range (seen ++ [entry]) step) {next : Entry}
    (current : step.state.current = some next) : entry.key < next.key := by
  cases advanced with
  | @entry after found isFound taken =>
    cases isFound.symm.trans current
    exact (Ascending.concat_iff.mp taken.listable.ascends).2 entry (by simp)
  | whole spent => cases spent.symm.trans current
  | failed _ spent => cases spent.symm.trans current

/-- Without a complaint the range is still that of the header. -/
theorem range_eq (advanced : Advanced text range seen step) (moved : step.fault = none) :
    step.state.range = range := by
  cases advanced with
  | entry _ taken =>
    obtain ⟨_, _, _, _, here⟩ := taken.lines
    exact here.range
  | whole _ sameRange => exact sameRange
  | failed failed => cases moved.symm.trans failed

end Advanced

/-- A scan that was started has read a header, and is borne out by its text. -/
theorem borneOut_of_start (started : start disk path (.text text) tool = .ok scan) :
    (∃ line rest, linesOf text = line :: rest ∧ IsLine line (.header scan.range)) ∧
      BorneOut text scan.range scan := by
  cases lines : linesOf text with
  | nil =>
    obtain rfl := linesOf_eq_nil_iff.mp lines
    cases started
  | cons line rest =>
    by_cases headed : ∃ range, IsLine line (.header range)
    · obtain ⟨range, isHeader⟩ := headed
      obtain ⟨middle, here, _, starts⟩ := start_of_header disk path tool lines isHeader
      have taken : Taken text range middle [] :=
        ⟨⟨List.Pairwise.nil, by simp⟩, [line], rest, lines, .cons isHeader .nil, here.path ▸ here⟩
      have advanced := taken.advance disk
      rw [started] at starts
      split at starts
      · cases starts
      · next moved =>
        cases starts
        rw [advanced.range_eq moved]
        exact ⟨⟨line, rest, rfl, isHeader⟩, advanced.borneOut⟩
    · obtain ⟨_, refused⟩ := start_of_noHeader disk path tool lines
        fun range isHeader => headed ⟨range, isHeader⟩
      cases started.symm.trans refused

/-! ## Calls -/

/-- What holds of a scan and is kept by advancing it from its entries is kept by seeking. -/
theorem seek_keeps (Kept : RawScan → Prop) {key : Key}
    (advances : ∀ scan entry, scan.current = some entry → Kept scan → Kept (scan.advance disk).state)
    (kept : Kept scan) : Kept (RawScan.seek disk key scan).state := by
  have standing {scan : RawScan} (below : (scan.current.any fun entry => entry.key < key) = true) :
      ∃ entry, scan.current = some entry := by
    obtain ⟨entry, current, _⟩ := (Option.any_eq_true _ _).mp below
    exact ⟨entry, current⟩
  fun_induction RawScan.seek disk key scan with
  | case1 scan below step moved ih =>
    obtain ⟨entry, current⟩ := standing below
    exact ih (advances scan entry current kept)
  | case2 scan below step stays =>
    obtain ⟨entry, current⟩ := standing below
    exact advances scan entry current kept
  | case3 scan reached => exact kept

/-- A scan has come from one place to another: it is still there, or it was at an entry, and if it is at
one now, then at one above. -/
def Onward (earlier later : RawScan) : Prop :=
  later = earlier ∨
    ∀ entry, showing? later = some entry →
      ∃ before, showing? earlier = some before ∧ before.key < entry.key

/-- A scan that has come further twice has come further. -/
theorem Onward.trans (first : Onward earlier middle) (second : Onward middle later) :
    Onward earlier later := by
  rcases first with rfl | first
  · exact second
  · rcases second with rfl | second
    · exact Or.inr first
    · refine Or.inr fun entry current => ?_
      obtain ⟨before, here, below⟩ := second entry current
      obtain ⟨start, atStart, lower⟩ := first before here
      exact ⟨start, atStart, lt_trans lower below⟩

namespace BorneOut

/-- What advancing leads to is borne out too, and if it is an entry, then one above. -/
theorem advance (disk : Disk) (borneOut : BorneOut text range scan)
    (current : scan.current = some entry) :
    BorneOut text range (scan.advance disk).state ∧
      ∀ next, showing? (scan.advance disk).state = some next →
        ∃ before, showing? scan = some before ∧ before.key < next.key := by
  obtain ⟨before, taken⟩ := borneOut.taken entry current
  have advanced := taken.advance disk
  refine ⟨advanced.borneOut, fun next isNext => ⟨entry, ?_, ?_⟩⟩
  · rw [showing?_eq_current, current]
  · exact advanced.above ((showing?_eq_current _).symm.trans isNext)

/-- The next entry stands above the current one. -/
theorem next (disk : Disk) (borneOut : BorneOut text range scan) :
    BorneOut text range (Cursor.next disk scan).state ∧
      ∀ next, showing? (Cursor.next disk scan).state = some next →
        ∃ before, showing? scan = some before ∧ before.key < next.key := by
  cases current : scan.current with
  | none =>
    rw [next_of_spent disk current]
    refine ⟨borneOut, fun next isNext => ?_⟩
    cases ((showing?_eq_current scan).trans current).symm.trans isNext
  | some entry =>
    rw [next_of_current disk current]
    exact borneOut.advance disk current

/-- Under every call a scan goes on, and stays borne out. -/
theorem run (disk : Disk) (borneOut : BorneOut text range scan) (call : Call) :
    BorneOut text range (call.run disk scan).state ∧ Onward scan (call.run disk scan).state := by
  cases call with
  | next =>
    obtain ⟨still, above⟩ := borneOut.next disk
    exact ⟨still, Or.inr above⟩
  | seek key =>
    -- The entries that are passed over lie on the way, each above the one before.
    refine seek_keeps (fun later => BorneOut text range later ∧ Onward scan later) ?_
      ⟨borneOut, Or.inl rfl⟩
    rintro middle entry current ⟨borneOut, onward⟩
    obtain ⟨still, above⟩ := borneOut.advance disk current
    exact ⟨still, onward.trans (Or.inr above)⟩
  | close =>
    rw [Call.run, state_close]
    refine ⟨⟨by simp, borneOut.whole⟩, Or.inr fun entry shown => ?_⟩
    cases (showing?_eq_current _).symm.trans shown

end BorneOut

/-! ## The tool -/

/-- A scan is one of the table at a path, and has a tool if there was one at first. -/
structure Attached (path : String) (tool : Option Nat) (scan : RawScan) : Prop where
  /-- The path is that of the table. -/
  path : scan.path = path
  /-- The tool was not released. -/
  tool : scan.tool = tool

/-- Reading a line releases no tool. -/
theorem attached_readLine (disk : Disk) (attached : Attached path tool scan) :
    Attached path tool (scan.readLine disk).2 := by
  obtain ⟨samePath, sameTool⟩ := attached
  unfold readLine
  split
  · exact ⟨samePath, sameTool⟩
  · exact ⟨samePath, sameTool⟩
  · dsimp only
    split <;> exact ⟨samePath, sameTool⟩

/-- A trailer releases no tool. -/
theorem attached_acceptTrailer (disk : Disk) (stated : Nat) (attached : Attached path tool scan) :
    Attached path tool (scan.acceptTrailer disk stated).state := by
  have behind := attached_readLine disk attached
  unfold acceptTrailer
  split
  · split <;> next read =>
      rw [read] at behind
      exact ⟨behind.path, behind.tool⟩
  · exact attached

/-- An entry releases no tool. -/
theorem attached_acceptEntry (entry : Entry) (attached : Attached path tool scan) :
    Attached path tool (scan.acceptEntry entry).state := by
  obtain ⟨samePath, sameTool⟩ := attached
  unfold acceptEntry
  split
  · exact ⟨samePath, sameTool⟩
  · split <;> exact ⟨samePath, sameTool⟩

/-- Advancing releases no tool. -/
theorem attached_advance (disk : Disk) (attached : Attached path tool scan) :
    Attached path tool (scan.advance disk).state := by
  have cleared : Attached path tool { scan with current := none } := ⟨attached.path, attached.tool⟩
  have behind := attached_readLine disk cleared
  unfold advance
  split <;> rename_i read <;> rw [read] at behind
  · exact behind
  · exact attached_acceptEntry _ behind
  · exact attached_acceptTrailer disk _ behind
  · exact behind
  · exact behind

/-- A scan that was started has its tool. -/
theorem attached_of_start (started : start disk path (.text text) tool = .ok scan) :
    Attached path tool scan := by
  obtain ⟨⟨line, rest, lines, isHeader⟩, _⟩ := borneOut_of_start started
  obtain ⟨headed, here, sameTool, starts⟩ := start_of_header disk path tool lines isHeader
  have attached : Attached path tool (headed.advance disk).state :=
    attached_advance disk ⟨here.path, sameTool⟩
  rw [started] at starts
  split at starts
  · cases starts
  · cases starts
    exact attached

/-- Only closing releases the tool. -/
theorem attached_run {call : Call} (noClose : call ≠ .close) (attached : Attached path tool scan) :
    Attached path tool (call.run disk scan).state := by
  cases call with
  | next =>
    cases current : scan.current with
    | none =>
      rw [Call.run, next_of_spent disk current]
      exact attached
    | some entry =>
      rw [Call.run, next_of_current disk current]
      exact attached_advance disk attached
  | seek key =>
    apply seek_keeps (Attached path tool) ?_ attached
    exact fun scan _ _ attached => attached_advance disk attached
  | close => exact absurd rfl noClose

/-- What closing gives is told by the tool, and by whether the scan is finished. -/
theorem fault_close {status : Nat} (attached : Attached path (some status) scan) :
    (Cursor.close scan).fault =
      if scan.finished ∧ status ≠ 0 then some (.toolExit path status) else none := by
  obtain ⟨rfl, hasTool⟩ := attached
  change (RawScan.close scan).fault = _
  simp only [RawScan.close, hasTool]
  split <;> rfl

/-- A scan was closed: nothing is left to be read, or to be released. -/
structure Closed (scan : RawScan) : Prop where
  /-- There is no current entry. -/
  current : scan.current = none
  /-- There is no line any more. -/
  source : scan.source = .text []
  /-- There is no tool any more. -/
  tool : scan.tool = none

/-- Closing leaves a scan that is closed. -/
theorem closed_close (scan : RawScan) : Closed (Cursor.close scan).state := by
  rw [state_close]
  exact ⟨rfl, rfl, rfl⟩

/-- A scan that was closed does nothing any more. -/
theorem Closed.run (disk : Disk) (call : Call) (closed : Closed scan) :
    call.run disk scan = .done scan := by
  cases call with
  | next => exact next_of_spent disk closed.current
  | seek key => exact seek_of_spent disk key closed.current
  | close =>
    obtain ⟨path, source, tool, range, number, current, lastKey, listed, finished⟩ := scan
    obtain ⟨rfl, rfl, rfl⟩ := closed
    rfl

/-- A scan through a tool is a scan of its output, which states the range that was asked for. -/
theorem start_of_openPath_external {tool : String}
    (accepted : openPath host (.external tool) path range = .ok scan) :
    ∃ run, runTool host path tool range = .ok run ∧ scan.range = range ∧
      start host.disk path (.text run.output) (some run.status) = .ok scan := by
  unfold openPath openAny at accepted
  cases asked : runTool host path tool range with
  | error fault => simp [asked] at accepted
  | ok run =>
    simp only [asked] at accepted
    cases started : start host.disk path (.text run.output) (some run.status) with
    | error fault => simp [started] at accepted
    | ok found =>
      simp only [started] at accepted
      split at accepted
      · next sameRange =>
        cases accepted
        exact ⟨run, rfl, sameRange, started⟩
      · cases accepted

/-- A scan through a tool, whatever the tool has written and whatever status it ends with.

The scan is opened only if the text of the tool begins with the header of the range that was asked for.
Then, whatever was called before, also behind failed calls: the scan shows only entries of the text that
belong to the range; it leads on only to entries above, and moving on never stays at an entry; it is
finished only if the whole text is a dump of the range. Until it is closed, closing fails exactly if it
is finished and the status is not success. Closed, it shows nothing, and no call fails or changes
anything. -/
theorem openPath_untrusted {tool : String}
    (accepted : openPath host (.external tool) path range = .ok scan) :
    ∃ run, runTool host path tool range = .ok run ∧
      (∃ line rest, linesOf run.output = line :: rest ∧ IsLine line (.header range)) ∧
      ∀ (disk : Disk) (calls : List Call),
        (∀ step ∈ steps disk (.done scan) calls,
          (∀ entry, showing? step.state = some entry → range.contains entry.key = true ∧
            ∃ line ∈ linesOf run.output, IsLine line (.entry entry)) ∧
          (∀ next, showing? (Cursor.next disk step.state).state = some next →
            ∃ before, showing? step.state = some before ∧ before.key < next.key) ∧
          (step.state.finished = true → ∃ entries, WellFormed run.output range entries)) ∧
        ((steps disk (.done scan) calls).Pairwise fun earlier later =>
          Onward earlier.state later.state) ∧
        (.close ∉ calls → ∀ step ∈ steps disk (.done scan) calls,
          (Cursor.close step.state).fault =
            (if step.state.finished ∧ run.status ≠ 0 then some (.toolExit path run.status)
              else none) ∧
          ∀ more, ∀ closed ∈ steps disk (Cursor.close step.state) more,
            isValid closed.state = false ∧ closed.state.finished = step.state.finished ∧
            ∀ call : Call, call.run disk closed.state = .done closed.state) := by
  obtain ⟨run, asked, rfl, started⟩ := start_of_openPath_external accepted
  obtain ⟨header, borneOut⟩ := borneOut_of_start started
  refine ⟨run, asked, header, fun disk calls => ⟨?_, ?_, ?_⟩⟩
  · intro step member
    have still : BorneOut run.output scan.range step.state :=
      forall_steps (BorneOut run.output scan.range)
        (fun _ borneOut call => (borneOut.run disk call).1) borneOut calls step member
    refine ⟨fun entry shown => ?_, (still.next disk).2, still.whole⟩
    obtain ⟨before, taken⟩ := still.taken entry ((showing?_eq_current _).symm.trans shown)
    exact ⟨taken.listable.inside entry (by simp), taken.exists_line⟩
  · refine pairwise_steps (BorneOut run.output scan.range) Onward (fun _ _ _ => Onward.trans)
      (fun _ borneOut call => borneOut.run disk call) ?_ calls
    exact borneOut
  · intro unreleased step member
    have attached : Attached path (some run.status) step.state :=
      forall_steps_of_mem (Attached path (some run.status))
        (fun call called _ => attached_run fun isClose => unreleased (isClose ▸ called))
        (attached_of_start started) step member
    refine ⟨fault_close attached, fun more closed isLater => ?_⟩
    obtain ⟨isClosed, same⟩ :=
      forall_steps (fun later : RawScan => Closed later ∧ later.finished = step.state.finished)
        (fun later closed call => by rwa [closed.1.run disk call])
        ⟨closed_close step.state, by rw [state_close]⟩ more closed isLater
    refine ⟨?_, same, fun call => isClosed.run disk call⟩
    exact valid_of_showing?_eq_none ((showing?_eq_current _).trans isClosed.current)

/-- A host whose tool writes the dump of a single entry, whatever it is asked, and reports a failure. -/
def failingTool : Host where
  disk := .ofTables 40 [("t", halved)]
  tool? _ := some fun _ _ => some ⟨single, 3⟩
  detected := .unavailable

/-- A scan of its output can be closed at the entry. Behind the entry the scan is finished, and the
failure of the tool is reported. -/
theorem openPath_untrusted_failingTool :
    ∃ scan, openPath failingTool (.external "sst-dump") "t" .all = .ok scan ∧
      (Cursor.close scan).fault = none ∧
      (Cursor.close (Cursor.next failingTool.disk scan).state).fault = some (.toolExit "t" 3) := by
  have isRun : runTool failingTool "t" "sst-dump" .all = .ok ⟨single, 3⟩ := by decide +kernel
  have finished : (openPath failingTool (.external "sst-dump") "t" .all).toOption.map (fun scan =>
      (scan.finished, (Cursor.next failingTool.disk scan).state.finished)) = some (false, true) := by
    decide +kernel
  cases accepted : openPath failingTool (.external "sst-dump") "t" .all with
  | error fault => simp [accepted, Except.toOption] at finished
  | ok scan =>
    obtain ⟨run, asked, _, holds⟩ := openPath_untrusted accepted
    obtain ⟨_, _, closes⟩ := holds failingTool.disk [.next]
    cases isRun.symm.trans asked
    rw [accepted] at finished
    obtain ⟨early, late⟩ := Prod.mk.inj (Option.some.inj finished)
    refine ⟨scan, rfl, ?_, ?_⟩
    · have closed := (closes (by simp) (.done scan) (by simp [steps])).1
      simpa [early] using closed
    · have closed := (closes (by simp) (Cursor.next failingTool.disk scan) (by simp [steps, Call.run])).1
      simpa [late] using closed

end RawScan

end SortedTables
