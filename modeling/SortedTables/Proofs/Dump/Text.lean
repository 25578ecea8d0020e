import SortedTables.Proofs.Dump.Lines
import SortedTables.Proofs.Dump.Rendering

/-!
# The text of a dump

Read at once, the dump of any table is a text of lines (`DumpStream.drain_ofTable`): the header, a line
for each entry that is rendered, and the trailer unless a block cannot be read.

Written to a text, the lines are read back from it as they are (`LineSource.readLine_text`), since each
of them has the byte that ends a line at its end only. But the text has no fault. Where a block could
not be read, it is over.
-/

namespace SortedTables

namespace Utf8

/-- A byte of a character is the number of the character, or else it is no number of a character with
one byte. -/
theorem eq_or_le_of_mem_encodeChar {c : Char} {byte : UInt8}
    (member : byte ∈ String.utf8EncodeChar c) :
    (byte = UInt8.ofNat c.toNat ∧ c.toNat ≤ 127) ∨ 128 ≤ byte.toNat := by
  have high (n mark : Nat) (low : 128 ≤ mark) (small : mark + n < 256) :
      128 ≤ (UInt8.ofNat (n + mark)).toNat := by
    rw [UInt8.toNat_ofNat', Nat.mod_eq_of_lt (by omega)]
    omega
  unfold String.utf8EncodeChar at member
  dsimp only at member
  split at member
  · next single => exact Or.inl ⟨List.mem_singleton.mp member, single⟩
  · right
    split at member
    · simp only [List.mem_cons, List.not_mem_nil, or_false] at member
      rcases member with rfl | rfl <;> exact high _ _ (by decide) (by omega)
    · split at member
      · simp only [List.mem_cons, List.not_mem_nil, or_false] at member
        rcases member with rfl | rfl | rfl <;> exact high _ _ (by decide) (by omega)
      · simp only [List.mem_cons, List.not_mem_nil, or_false] at member
        rcases member with rfl | rfl | rfl | rfl <;> exact high _ _ (by decide) (by omega)

/-- The byte that ends a line occurs only for the character that does. -/
theorem newline_not_mem_encode {text : List Char} (absent : '\n' ∉ text) :
    LineSource.newline ∉ encode text := by
  intro member
  obtain ⟨c, inText, isByte⟩ := List.mem_flatMap.mp member
  rcases eq_or_le_of_mem_encodeChar isByte with ⟨isNumber, single⟩ | high
  · have number : 10 = c.toNat % 256 := congrArg UInt8.toNat isNumber
    have same : c.toNat = '\n'.toNat := by
      change c.toNat = 10
      omega
    rw [Char.toNat_inj.mp same] at inText
    exact absent inText
  · exact absurd high (by decide)

end Utf8

namespace DumpLine

/-- A bound of a header has no end of a line in it. -/
theorem newline_not_mem_boundText (bound : Option Key) : '\n' ∉ KeyRange.boundText bound := by
  cases bound with
  | none => exact List.not_mem_nil
  | some key =>
    have noDigit := Hex.not_mem_encode (c := '\n') (by decide) key.bytes
    simp [KeyRange.boundText, noDigit]

/-- A line has no end of a line in it. -/
theorem newline_not_mem_render (line : DumpLine) : '\n' ∉ line.render := by
  have hex := Hex.not_mem_encode (c := '\n') (by decide)
  have decimal := not_mem_encode (c := '\n') rfl
  cases line with
  | header range =>
    have start : '\n' ∉ KeyRange.headerStart := by decide
    have middle : '\n' ∉ KeyRange.headerMiddle := by decide
    simp [render, KeyRange.header, start, middle, newline_not_mem_boundText]
  | entry entry =>
    have seq : '\n' ∉ seqMark := by decide
    have type : '\n' ∉ typeMark := by decide
    have value : '\n' ∉ valueMark := by decide
    simp [render, renderEntry, hex, decimal, seq, type, value]
  | trailer count =>
    have start : '\n' ∉ trailerStart := by decide
    simp [render, start, decimal]

/-- The bytes of a line are those of its text and the one that ends it. -/
theorem bytes_eq (line : DumpLine) :
    line.bytes = Utf8.encode line.render ++ [LineSource.newline] :=
  Utf8.encode_append line.render ['\n']

/-- A line is never empty. -/
theorem bytes_ne_nil (line : DumpLine) : line.bytes ≠ [] := by
  rw [bytes_eq]
  exact List.append_ne_nil_of_right_ne_nil _ (List.cons_ne_nil _ _)

/-- What is written is what is read. The bytes of the line of an entry are those of a text, from which the
entry is read unless it is a tombstone with a value, and the only end of a line among them is the
last of them. From a header, with or without the end of its line, exactly its range is read. -/
theorem reads_back :
    (∀ entry : Entry,
      (∃ text, Utf8.decode? (DumpLine.entry entry).bytes = some text ∧
        parse text =
          if entry.kind = .put ∨ entry.value = [] then .ok (.entry entry)
          else .error .tombstoneWithValue) ∧
      (∃ front, (DumpLine.entry entry).bytes = front ++ [LineSource.newline] ∧
        LineSource.newline ∉ front)) ∧
    (∀ range : KeyRange,
      parse range.header = .ok (.header range) ∧
        parse (range.header ++ ['\n']) = .ok (.header range)) ∧
    Function.Injective KeyRange.header := by
  refine ⟨fun entry => ⟨?_, ?_⟩, fun range => ⟨parse_bareHeader range, parse_header range⟩,
    KeyRange.header_injective⟩
  · refine ⟨_, Utf8.decode?_eq_some_iff.mpr rfl, ?_⟩
    rw [parse_entry]
    -- A kind is one of two, so what is not refused is what is written here as accepted.
    cases entry.kind <;> by_cases valueless : entry.value = [] <;> simp [valueless]
  · refine ⟨Utf8.encode (render (.entry entry)), bytes_eq _, ?_⟩
    exact Utf8.newline_not_mem_encode (newline_not_mem_render _)

end DumpLine

namespace LineSource

/-- The first line of a text that starts with a line of a dump is this line. -/
theorem takeLine_append (line : DumpLine) (rest : Bytes) :
    takeLine (line.bytes ++ rest) = (line.bytes, rest) := by
  have absent := Utf8.newline_not_mem_encode line.newline_not_mem_render
  have inside : ∀ byte ∈ Utf8.encode line.render, (byte != newline) = true := by
    intro byte member
    rw [bne_iff_ne]
    rintro rfl
    exact absent member
  rw [DumpLine.bytes_eq, List.append_assoc, takeLine, List.dropWhile_append_of_pos inside,
    List.takeWhile_append_of_pos inside]
  simp

/-- Reading a text that starts with a line of a dump gives this line. -/
theorem readLine_text (disk : Disk) (line : DumpLine) (rest : Bytes) :
    (text (line.bytes ++ rest)).readLine disk = (.ok (some line.bytes), text rest) := by
  have taken := takeLine_append line rest
  cases whole : line.bytes ++ rest with
  | nil => simp [DumpLine.bytes_eq] at whole
  | cons byte behind =>
    rw [whole] at taken
    simp [readLine, taken]

end LineSource

namespace DumpStream

variable {disk : Disk} {stream : DumpStream} {table : Table} {range : KeyRange} {index : Nat}
  {entries : List Entry} {ending : Option BlockReadFault}

/-- Only what the next reading gives counts for the rest. -/
theorem drain_congr {other : DumpStream} (same : other.readLine disk = stream.readLine disk) :
    other.drain disk = stream.drain disk := by
  unfold drain
  rcases read : stream.readLine disk with ⟨fault | line?, after⟩
  · rw [drainAfter_of_error read, drainAfter_of_error (same.trans read)]
  · cases line? with
    | none => rw [drainAfter_of_none read, drainAfter_of_none (same.trans read)]
    | some line => rw [drainAfter_of_line read, drainAfter_of_line (same.trans read)]

/-- Lines that were read before stand in front of the rest. -/
theorem drainAfter_append (later early : List Bytes) (stream : DumpStream) :
    drainAfter disk (later ++ early) stream =
      (early.reverse.flatten ++ (drainAfter disk later stream).1,
        (drainAfter disk later stream).2) := by
  fun_induction drainAfter disk later stream with
  | case1 later stream line after found ih => rwa [drainAfter_of_line found]
  | case2 later stream after found => simp [drainAfter_of_none found]
  | case3 later stream fault after found => simp [drainAfter_of_error found]

/-- A line that is read stands in front of the rest behind it. -/
theorem drain_of_line {line : Bytes} {after : DumpStream}
    (found : stream.readLine disk = (.ok (some line), after)) :
    stream.drain disk = (line ++ (after.drain disk).1, (after.drain disk).2) := by
  rw [drain, drainAfter_of_line found]
  exact (drainAfter_append [] [line] after).trans (by simp [drain])

/-- What was rendered stands in front of what is rendered later. -/
theorem drain_pending {text : Bytes} {result : Except BlockReadFault Nat} (stream : DumpStream)
    (pieces : List Bytes) (left : { stream with pending := [] }.drain disk = (text, result)) :
    { stream with pending := pieces }.drain disk = (pieces.flatten ++ text, result) := by
  induction pieces with
  | nil => exact left
  | cons piece later ih =>
    rw [drain_of_line (readLine_of_pending rfl), ih, List.flatten_cons, List.append_assoc]

/-- Nothing is left behind the trailer. -/
theorem drain_of_done (nothing : stream.pending = []) (finished : stream.stage = .done) :
    stream.drain disk = ([], .ok stream.listed) :=
  drainAfter_of_none (readLine_of_done nothing finished)

/-- Nothing is left in front of a piece that cannot be rendered. -/
theorem drain_of_failed {fault : BlockReadFault} (nothing : stream.pending = [])
    (unfinished : stream.stage ≠ .done) (failed : stream.fill disk = .failed stream fault) :
    stream.drain disk = ([], .error fault) :=
  drainAfter_of_error (readLine_of_failed nothing unfinished failed)

/-- Rendering the next piece leaves the same. -/
theorem drain_of_fill {after : DumpStream} (nothing : stream.pending = [])
    (unfinished : stream.stage ≠ .done) (filled : stream.fill disk = .done after) :
    stream.drain disk = after.drain disk :=
  drain_congr (readLine_of_fill nothing unfinished filled)

/-- How reading a dump at once ends: with a number of entries unless a block cannot be read. -/
def resultOf (listed : Nat) : Option BlockReadFault → Except BlockReadFault Nat
  | none => .ok listed
  | some fault => .error fault

/-- Where no block is wanted any more, the trailer is left. -/
theorem drain_trailer (unwanted : ∀ block, table.blocks[index]? = some block →
      range.beforeEnd block.firstKey = false) (listed : Nat) :
    (atBlock table range index listed).drain disk =
      ((DumpLine.trailer listed).bytes, .ok listed) := by
  rw [drain_of_fill rfl (by simp [atBlock]) (fill_of_unwanted unwanted listed),
    drain_pending ⟨table, range, index, listed, [], .done⟩ _ (drain_of_done rfl rfl)]
  simp

/-- Lines of entries that were rendered stand in front of what follows them. -/
theorem drain_behindLines {listed : Nat} {later : List Entry}
    (left : (atBlock table range index (listed + entries.length)).drain disk =
      ((linesBehind (listed + entries.length) later ending).flatMap DumpLine.bytes,
        resultOf (listed + entries.length + later.length) ending)) :
    (behindLines table range index listed entries).drain disk =
      ((linesBehind listed (entries ++ later) ending).flatMap DumpLine.bytes,
        resultOf (listed + (entries ++ later).length) ending) := by
  rw [linesBehind_append, List.flatMap_append, List.flatMap_def, List.length_append,
    ← Nat.add_assoc]
  exact drain_pending (atBlock table range index (listed + entries.length)) _ left

/-- Of a dump that goes on with a block, the lines are left of the entries that are rendered from that
block on. -/
theorem drain_of_renders (renders : table.Renders disk range index entries ending) (listed : Nat) :
    (atBlock table range index listed).drain disk =
      ((linesBehind listed entries ending).flatMap DumpLine.bytes,
        resultOf (listed + entries.length) ending) := by
  have unfinished {index listed : Nat} : (atBlock table range index listed).stage ≠ .done := by
    simp [atBlock]
  have trailer {index : Nat} (unwanted : ∀ block, table.blocks[index]? = some block →
      range.beforeEnd block.firstKey = false) (listed : Nat) :
      (atBlock table range index listed).drain disk =
        ((linesBehind listed [] none).flatMap DumpLine.bytes,
          resultOf (listed + ([] : List Entry).length) none) := by
    rw [drain_trailer unwanted]
    simp [linesBehind, resultOf]
  induction renders generalizing listed with
  | atEnd unwanted => exact trailer unwanted listed
  | fails inside isWanted failed =>
    exact drain_of_failed rfl unfinished (fill_of_unreadable inside isWanted failed listed)
  | @stops index block group inside isWanted read behind =>
    have left := drain_behindLines (trailer (table.unwanted_blockCount range)
      (listed + (table.rendered range index group).length))
    rw [List.append_nil] at left
    exact (drain_of_fill rfl unfinished (fill_of_behind inside isWanted read behind listed)).trans left
  | goesOn inside isWanted read before _ ih =>
    rw [drain_of_fill rfl unfinished (fill_of_before inside isWanted read before listed)]
    exact drain_behindLines (ih _)

/-- The dump of a table is the header, a line for each entry that is rendered, and the trailer with their
number unless a block could not be read. -/
theorem drain_ofTable
    (renders : table.Renders disk range (firstBlock table range) entries ending) :
    (ofTable table range).drain disk =
      ((DumpLine.header range :: linesBehind 0 entries ending).flatMap DumpLine.bytes,
        resultOf entries.length ending) := by
  have left := drain_of_renders renders 0
  rw [Nat.zero_add] at left
  have whole := drain_pending (atBlock table range (firstBlock table range) 0)
    [(DumpLine.header range).bytes] left
  rw [List.flatten_singleton] at whole
  exact (drain_of_fill rfl (by simp [ofTable]) rfl).trans whole

end DumpStream

end SortedTables
