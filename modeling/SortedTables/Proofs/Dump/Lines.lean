import SortedTables.RawScan

/-!
# The lines of a dump read back

A scan reads back every line that a dump writes, with one exception: the line of a tombstone that has
a value is refused (`RawScan.decodeLine_entry`). A table can hold such an entry, so the dump of a
table is readable exactly as far as there is none.

Every field of a line ends where its mark stands for the first time, because no field contains the
character that its mark begins with.
-/

namespace SortedTables

namespace DumpLine

/-- What a line starts with is found there. -/
theorem after?_append (mark rest : List Char) : after? mark (mark ++ rest) = some rest := by
  induction mark with
  | nil => cases rest <;> rfl
  | cons c mark ih => simp [after?, ih]

/-- A line with another first character does not start with the mark. -/
theorem after?_of_ne {c d : Char} (mark rest : List Char) (other : c ≠ d) :
    after? (c :: mark) (d :: rest) = none := by
  simp [after?, other]

/-- A text is split where a mark stands, if it does not contain the first character of the mark. -/
theorem splitAfter_append {c : Char} (mark passed : List Char) {text : List Char} (rest : List Char)
    (absent : c ∉ text) :
    splitAfter (c :: mark) passed (text ++ (c :: mark ++ rest)) =
      some (passed.reverse ++ text, rest) := by
  induction text generalizing passed with
  | nil =>
    have found := after?_append (c :: mark) rest
    rw [List.cons_append] at found
    simp only [List.nil_append, List.cons_append, splitAfter, found, List.append_nil]
  | cons d text ih =>
    rw [List.mem_cons, not_or] at absent
    simp only [List.cons_append, splitAfter, after?_of_ne _ _ absent.1]
    have later := ih (d :: passed) absent.2
    rw [List.cons_append] at later
    rw [later, List.reverse_cons, List.append_assoc]
    rfl

/-- A text is split where a mark stands, if it does not contain the first character of the mark. -/
theorem split?_append {c : Char} (mark : List Char) {text : List Char} (rest : List Char)
    (absent : c ∉ text) : split? (c :: mark) (text ++ (c :: mark ++ rest)) = some (text, rest) := by
  rw [split?, splitAfter_append mark [] rest absent]
  rfl

/-- What stands before the last character. -/
theorem before?_append (last : Char) (text : List Char) :
    before? last (text ++ [last]) = some text := by
  simp [before?]

/-- The end of a line is taken off with whatever ends the text in front of it. -/
theorem trimEnd_newline (text : List Char) : trimEnd (text ++ ['\n']) = trimEnd text := by
  have newline : endsLine '\n' = true := rfl
  rw [trimEnd, List.reverse_append, List.reverse_singleton, List.singleton_append,
    List.dropWhile_cons_of_pos newline, trimEnd]

/-- The end of a line is taken off, and nothing else if the line does not end with such an end. -/
theorem trimEnd_append {text : List Char} (last : Char) (isLast : text.getLast? = some last)
    (noEnd : endsLine last = false) : trimEnd (text ++ ['\n']) = text := by
  have reversed : text.reverse.head? = some last := by rw [List.head?_reverse, isLast]
  rw [trimEnd_newline, trimEnd]
  cases whole : text.reverse with
  | nil => simp [whole] at reversed
  | cons first later =>
    rw [whole] at reversed
    cases reversed
    rw [List.dropWhile_cons_of_neg (by simp [noEnd]), ← whole, List.reverse_reverse]

/-- A line reads the same with its end and without it. -/
theorem parse_newline (line : List Char) : parse (line ++ ['\n']) = parse line := by
  rw [parse, trimEnd_newline, parse]

end DumpLine

namespace Hex

/-- Every character of a hexadecimal text is a digit below sixteen. -/
theorem exists_of_mem_encode {bytes : Bytes} {c : Char} (member : c ∈ encode bytes) :
    ∃ n : Fin 16, c = Nat.digitChar n := by
  obtain ⟨byte, _, isDigit⟩ := List.mem_flatMap.mp member
  have bounded := byte.toNat_lt
  simp only [digits, List.mem_cons, List.not_mem_nil, or_false] at isDigit
  rcases isDigit with rfl | rfl
  · exact ⟨⟨byte.toNat / 16, by omega⟩, rfl⟩
  · exact ⟨⟨byte.toNat % 16, by omega⟩, rfl⟩

/-- A character that is no hexadecimal digit does not occur in a hexadecimal text. -/
theorem not_mem_encode {c : Char} (noDigit : ∀ n : Fin 16, c ≠ Nat.digitChar n) (bytes : Bytes) :
    c ∉ encode bytes := by
  intro member
  obtain ⟨n, same⟩ := exists_of_mem_encode member
  exact noDigit n same

end Hex

namespace DumpLine

/-- A character that is no decimal digit does not occur in a numeral. -/
theorem not_mem_encode {c : Char} (noDigit : c.isDigit = false) (n : Nat) :
    c ∉ Decimal.encode n := by
  intro member
  have isDigit := Decimal.isDigit_of_mem_encode member
  rw [noDigit] at isDigit
  cases isDigit

/-- No digit ends a line. -/
theorem endsLine_of_mem_encode {c : Char} {n : Nat} (member : c ∈ Decimal.encode n) :
    endsLine c = false := by
  have isDigit := Decimal.isDigit_of_mem_encode member
  apply Bool.eq_false_iff.mpr
  intro ends
  simp only [endsLine, Bool.or_eq_true, decide_eq_true_eq] at ends
  rcases ends with rfl | rfl <;> cases isDigit

/-- The end of a line is taken off. -/
theorem trimEnd_render (line : DumpLine) : trimEnd (line.render ++ ['\n']) = line.render := by
  cases line with
  | header range => exact trimEnd_append ']' (by simp [render, KeyRange.header]) rfl
  | entry entry =>
    refine trimEnd_append ((' ' :: Hex.encode entry.value).getLast (List.cons_ne_nil _ _)) ?_ ?_
    · rw [render, renderEntry, List.getLast?_append,
        List.getLast?_eq_some_getLast (List.cons_ne_nil _ _)]
      rfl
    · rcases List.mem_cons.mp (List.getLast_mem (List.cons_ne_nil ' ' (Hex.encode entry.value)))
        with blank | digit
      · rw [blank]
        rfl
      · obtain ⟨n, same⟩ := Hex.exists_of_mem_encode digit
        have noEnd : ∀ n : Fin 16, endsLine (Nat.digitChar n) = false := by decide
        rw [same]
        exact noEnd n
  | trailer count =>
    have digits := Decimal.encode_ne_nil count
    refine trimEnd_append ((Decimal.encode count).getLast digits) ?_
      (endsLine_of_mem_encode (List.getLast_mem digits))
    simp [render, List.getLast?_append, List.getLast?_eq_some_getLast digits]

/-- A bound of a header reads back. -/
theorem parseBound_boundText (part : HexPart) (bound : Option Key) :
    parseBound part (KeyRange.boundText bound) = .ok bound := by
  cases bound with
  | none => rfl
  | some key =>
    have opened : after? ['\''] ('\'' :: Hex.encode key.bytes ++ ['\'']) =
        some (Hex.encode key.bytes ++ ['\'']) := after?_append ['\''] _
    simp only [parseBound, KeyRange.boundText, List.cons_append, reduceCtorEq, if_false] at opened ⊢
    simp only [opened, Option.bind_some, before?_append, Hex.decode?_encode]

/-- A header line reads back. -/
theorem parse_header (range : KeyRange) : parse (range.header ++ ['\n']) = .ok (.header range) := by
  have middle : KeyRange.headerMiddle = ']' :: " to [".toList := rfl
  have noBracket : ']' ∉ KeyRange.boundText range.lower := by
    cases range.lower with
    | none => exact List.not_mem_nil
    | some key =>
      have noDigit := Hex.not_mem_encode (c := ']') (by decide) key.bytes
      simp [KeyRange.boundText, noDigit]
  have whole : range.header = KeyRange.headerStart ++ (KeyRange.boundText range.lower ++
      (KeyRange.headerMiddle ++ (KeyRange.boundText range.upper ++ [']']))) := by
    simp [KeyRange.header]
  have trimmed : trimEnd (range.header ++ ['\n']) = range.header := trimEnd_render (.header range)
  have split : split? KeyRange.headerMiddle (KeyRange.boundText range.lower ++
      (KeyRange.headerMiddle ++ (KeyRange.boundText range.upper ++ [']']))) =
        some (KeyRange.boundText range.lower, KeyRange.boundText range.upper ++ [']']) := by
    rw [middle]
    exact split?_append _ _ noBracket
  have same : KeyRange.between range.lower range.upper = range := by
    rw [KeyRange.between, dif_neg range.lower_ne_empty]
  rw [whole] at trimmed ⊢
  simp only [parse, trimmed, after?_append, parseHeader, split, before?_append,
    parseBound_boundText, bind, Except.bind, pure, Except.pure, Except.map, same]

/-- The header of a range reads back without the end of a line. -/
theorem parse_bareHeader (range : KeyRange) : parse range.header = .ok (.header range) := by
  rw [← parse_newline, parse_header]

/-- A trailer line reads back, if the number of entries can be stated. -/
theorem parse_trailer {count : Nat} (small : count < UInt64.size) :
    parse (render (.trailer count) ++ ['\n']) = .ok (.trailer count) := by
  have noHeader : after? KeyRange.headerStart (trailerStart ++ Decimal.encode count) = none := rfl
  rw [parse, trimEnd_render]
  simp only [render, noHeader, after?_append, Decimal.decode?_encode small]

/-- The fields of an entry line are found, if none of them contains the character that the mark behind it
begins with. -/
theorem splitEntry_of_fields {key seq type value text : List Char} (keyEnds : '\'' ∉ key)
    (seqEnds : ',' ∉ seq) (typeEnds : ' ' ∉ type) (isValue : valueText text = .ok value) :
    splitEntry (['\''] ++ (key ++ (['\''] ++ (seqMark ++ (seq ++ (typeMark ++ (type ++
      (valueMark ++ text)))))))) = .ok ⟨key, seq, type, value⟩ := by
  have keySplit := split?_append [] (seqMark ++ (seq ++ (typeMark ++ (type ++ (valueMark ++ text)))))
    keyEnds
  have seqSplit := split?_append " type:".toList (type ++ (valueMark ++ text)) seqEnds
  have typeSplit := split?_append "=>".toList text typeEnds
  have typeMarkIs : typeMark = ',' :: " type:".toList := rfl
  have valueMarkIs : valueMark = ' ' :: "=>".toList := rfl
  rw [← typeMarkIs] at seqSplit
  rw [← valueMarkIs] at typeSplit
  simp only [splitEntry, after?_append, splitEntry.orMissing, keySplit, seqSplit, typeSplit, isValue,
    bind, Except.bind, pure, Except.pure]

/-- The fields of the line of an entry are found. -/
theorem splitEntry_renderEntry (entry : Entry) :
    splitEntry (renderEntry entry) = .ok
      { key := Hex.encode entry.key.bytes
        seq := Decimal.encode entry.seq.toNat
        type := Decimal.encode entry.kind.toByte.toNat
        value := Hex.encode entry.value } := by
  have whole : renderEntry entry = ['\''] ++ (Hex.encode entry.key.bytes ++ (['\''] ++ (seqMark ++
      (Decimal.encode entry.seq.toNat ++ (typeMark ++ (Decimal.encode entry.kind.toByte.toNat ++
        (valueMark ++ ' ' :: Hex.encode entry.value))))))) := by
    simp [renderEntry]
  rw [whole]
  refine splitEntry_of_fields ?_ ?_ ?_ rfl
  · exact Hex.not_mem_encode (by decide) entry.key.bytes
  · exact not_mem_encode rfl entry.seq.toNat
  · exact not_mem_encode rfl entry.kind.toByte.toNat

/-- The type of an entry reads back. -/
theorem parseKind?_encode (kind : EntryKind) :
    parseKind? (Decimal.encode kind.toByte.toNat) = some kind := by
  rw [parseKind?, Decimal.decode?_encode kind.toByte.toNat_lt, Option.bind_some,
    UInt8.ofNat_toNat]
  exact EntryKind.ofByte?_eq_some_iff.mpr rfl

/-- The line of an entry reads back, unless it is that of a tombstone with a value. -/
theorem parse_entry (entry : Entry) :
    parse (render (.entry entry) ++ ['\n']) =
      if entry.kind = .delete ∧ entry.value ≠ [] then .error .tombstoneWithValue
      else .ok (.entry entry) := by
  have trimmed : trimEnd (renderEntry entry ++ ['\n']) = renderEntry entry :=
    trimEnd_render (.entry entry)
  have noHeader : after? KeyRange.headerStart (renderEntry entry) = none := by
    simp only [renderEntry, List.cons_append]
    rfl
  have noTrailer : after? trailerStart (renderEntry entry) = none := by
    simp only [renderEntry, List.cons_append]
    rfl
  have opens : (renderEntry entry).head? = some '\'' := by simp [renderEntry]
  have seq : Decimal.decode? UInt64.size (Decimal.encode entry.seq.toNat) = some entry.seq.toNat :=
    Decimal.decode?_encode entry.seq.toNat_lt
  simp only [parse, render, trimmed, noHeader, noTrailer, opens, if_true, parseEntry,
    splitEntry_renderEntry, EntryFields.parse, Hex.decode?_encode, seq, parseKind?_encode,
    UInt64.ofNat_toNat, bind, Except.bind]
  split <;> rfl

end DumpLine

/-- Different ranges have different headers. -/
theorem KeyRange.header_injective : Function.Injective header := by
  intro range other same
  have reads : DumpLine.parse other.header = .ok (.header range) := by
    rw [← same, DumpLine.parse_bareHeader]
  rw [DumpLine.parse_bareHeader other] at reads
  exact (DumpLine.header.inj (Except.ok.inj reads)).symm

/-- Whether a scan accepts the line of an entry: a tombstone must not have a value. -/
def Entry.isScannable (entry : Entry) : Bool :=
  !entry.isTombstone || entry.value.isEmpty

namespace RawScan

/-- The bytes of a line are decoded by parsing the line. -/
theorem decodeLine_bytes (line : DumpLine) :
    decodeLine line.bytes = (DumpLine.parse (line.render ++ ['\n'])).mapError .line := by
  have text : Utf8.decode? line.bytes = some (line.render ++ ['\n']) :=
    Utf8.decode?_eq_some_iff.mpr rfl
  simp only [decodeLine, text, List.getLast?_append, List.getLast?_singleton]
  rfl

/-- A header is decoded. -/
theorem decodeLine_header (range : KeyRange) :
    decodeLine (DumpLine.header range).bytes = .ok (.header range) := by
  rw [decodeLine_bytes, DumpLine.render, DumpLine.parse_header]
  rfl

/-- A trailer is decoded, if the number of entries can be stated. -/
theorem decodeLine_trailer {count : Nat} (small : count < UInt64.size) :
    decodeLine (DumpLine.trailer count).bytes = .ok (.trailer count) := by
  rw [decodeLine_bytes, DumpLine.parse_trailer small]
  rfl

/-- An entry is decoded, unless it is a tombstone with a value. -/
theorem decodeLine_entry (entry : Entry) :
    decodeLine (DumpLine.entry entry).bytes =
      if entry.isScannable then .ok (.entry entry) else .error (.line .tombstoneWithValue) := by
  have refused : (entry.kind = .delete ∧ entry.value ≠ []) ↔ entry.isScannable = false := by
    simp [Entry.isScannable, Entry.isTombstone]
  rw [decodeLine_bytes, DumpLine.parse_entry]
  cases accepted : entry.isScannable with
  | true =>
    rw [if_neg (by rw [refused, accepted]; decide)]
    rfl
  | false =>
    rw [if_pos (refused.mpr accepted)]
    rfl

end RawScan

end SortedTables
