import SortedTables.Proofs.Dump.Grammar
import SortedTables.Proofs.Dump.Lossless

/-!
# The dump of a range

Rendering a range starts at a block that the index names, seeks in this block only, and stops at a block
or an entry behind the range. Of a table that a builder has written it leaves out nothing else: the dump
of a range lists the entries of the table that belong to the range (`Disk.dump_of_holdsRun`).

Two dumps of the same table can also be compared as texts. Of each line `DumpLine.key?` tells the key
that it states, if it is that of an entry.
-/

namespace SortedTables

namespace DumpLine

/-- The key that the line of an entry states. Other lines state none. -/
def key? (line : Bytes) : Option Key := do
  let text ← Utf8.decode? line
  let fields ← (splitEntry (trimEnd text)).toOption
  let bytes ← Hex.decode? fields.key
  return ⟨bytes⟩

/-- A line whose first character is no quote states no key. -/
theorem key?_bytes_of_head {line : DumpLine} {c : Char} (first : line.render.head? = some c)
    (noQuote : c ≠ '\'') : key? line.bytes = none := by
  have text : Utf8.decode? line.bytes = some (line.render ++ ['\n']) :=
    Utf8.decode?_eq_some_iff.mpr rfl
  obtain ⟨later, isRender⟩ := List.head?_eq_some_iff.mp first
  have noEntry : splitEntry line.render = .error (.missing .openingQuote) := by
    simp [splitEntry, isRender, after?, noQuote.symm, splitEntry.orMissing, bind, Except.bind]
  rw [key?, text, Option.bind_eq_bind, Option.bind_some, trimEnd_render, noEntry]
  rfl

/-- The line of an entry states its key. -/
theorem key?_bytes_entry (stored : Entry) : key? (entry stored).bytes = some stored.key := by
  have text : Utf8.decode? (entry stored).bytes = some ((entry stored).render ++ ['\n']) :=
    Utf8.decode?_eq_some_iff.mpr rfl
  rw [key?, text, Option.bind_eq_bind, Option.bind_some, trimEnd_render, render,
    splitEntry_renderEntry]
  simp [Except.toOption, Hex.decode?_encode]

/-- A header states no key. -/
theorem key?_bytes_header (range : KeyRange) : key? (header range).bytes = none :=
  key?_bytes_of_head (c := 'f') rfl (by decide)

/-- A trailer states no key. -/
theorem key?_bytes_trailer (count : Nat) : key? (trailer count).bytes = none :=
  key?_bytes_of_head (c := '#') rfl (by decide)

end DumpLine

namespace DumpText

open LineSource

/-- The lines of a text of lines are these lines. -/
theorem linesOf_flatMap (lines : List DumpLine) :
    linesOf (lines.flatMap DumpLine.bytes) = lines.map DumpLine.bytes := by
  induction lines with
  | nil => rfl
  | cons line later ih =>
    have taken := takeLine_append line (later.flatMap DumpLine.bytes)
    obtain ⟨byte, rest, isLine⟩ := List.exists_cons_of_ne_nil line.bytes_ne_nil
    rw [List.flatMap_cons, List.map_cons, ← ih]
    rw [isLine, List.cons_append] at taken ⊢
    rw [linesOf_eq_cons, taken]

/-- The lines of a text that state a key of some kind. -/
def linesWith (chosen : Key → Bool) (text : Bytes) : List Bytes :=
  (linesOf text).filter fun line => (DumpLine.key? line).any chosen

/-- In a dump, the lines that state a key of some kind are those of the entries with such a key. -/
theorem linesWith_whole (chosen : Key → Bool) (range : KeyRange) (entries : List Entry) :
    linesWith chosen ((whole range entries).flatMap DumpLine.bytes) =
      (entries.filter fun entry => chosen entry.key).map fun entry =>
        (DumpLine.entry entry).bytes := by
  rw [linesWith, linesOf_flatMap, List.filter_map, whole, listing]
  simp only [List.cons_append, List.filter_cons, List.filter_append, List.filter_map,
    Function.comp_def, DumpLine.key?_bytes_header, DumpLine.key?_bytes_entry,
    DumpLine.key?_bytes_trailer, Option.any_none, Option.any_some, List.filter_nil, List.map_map,
    Bool.false_eq_true, if_false, List.append_nil]

end DumpText

namespace Disk

open DumpText

variable {disk : Disk} {path : String} {entries : List Entry}

/-- The dump of a range of a table that a builder has written succeeds. It is the header of the range, the
lines of the entries of the range in the order of the table, and the trailer with their number, which is
also the result. -/
theorem dump_eq (held : disk.HoldsRun path entries) (range : KeyRange) :
    disk.dump path range =
      ((whole range (entries.filter fun entry => range.contains entry.key)).flatMap DumpLine.bytes,
        .ok (entries.filter fun entry => range.contains entry.key).length) := by
  obtain ⟨table, groups, opened, rfl, holds, readable⟩ := held.opens
  obtain ⟨met, reads, covers⟩ := holds.exists_reads_of_readable readable range
  have renders := DumpStream.renders_of_reads holds reads (Nat.le_refl _)
  rw [← DumpStream.firstBlock_eq, covers] at renders
  simp only [dump, opened, DumpStream.drain_ofTable renders]
  simp [whole, listing, DumpStream.linesBehind, DumpStream.resultOf, Except.mapError]

/-- Let a builder have written a table. The dump of any range of it succeeds. It is the header of the
range, the lines of the entries of the range, tombstones included, in the order of the table, and the
trailer with their number, which is also the result. So the lines of it that state a key are those lines
of the dump of all keys that state a key of the range. -/
theorem dump_of_holdsRun (held : disk.HoldsRun path entries) (lower upper : Option Key) :
    let range := KeyRange.between lower upper
    let inside := entries.filter fun entry => range.contains entry.key
    disk.dump path range =
        ((DumpLine.header range :: inside.map DumpLine.entry ++
          [DumpLine.trailer inside.length]).flatMap DumpLine.bytes, .ok inside.length) ∧
      linesWith (fun _ => true) (disk.dump path range).1 =
        linesWith range.contains (disk.dump path .all).1 := by
  intro range inside
  have dumped := dump_eq held range
  refine ⟨dumped, ?_⟩
  have full : (entries.filter fun entry => KeyRange.all.contains entry.key) = entries :=
    List.filter_eq_self.mpr fun _ _ => rfl
  rw [dumped, dump_eq held .all, full, linesWith_whole, linesWith_whole]
  simp

/-- A range that starts in one block and ends in the next one. Of four entries the dump lists two, the
first of which is a tombstone. -/
theorem dump_of_holdsRun_halved :
    (Disk.ofTables 40 [("t", RawScan.halved)]).dump "t" (.between (some ⟨[1]⟩) (some ⟨[39]⟩)) =
        (([.header (.between (some ⟨[1]⟩) (some ⟨[39]⟩)), .entry ⟨⟨[10]⟩, 0, .delete, []⟩,
          .entry ⟨⟨[10, 0]⟩, 18446744073709551615, .put, []⟩, .trailer 2] : List DumpLine).flatMap
            DumpLine.bytes, .ok 2) ∧
      linesWith (fun _ => true) ((Disk.ofTables 40 [("t", RawScan.halved)]).dump "t"
          (.between (some ⟨[1]⟩) (some ⟨[39]⟩))).1 =
        linesWith (KeyRange.between (some ⟨[1]⟩) (some ⟨[39]⟩)).contains
          ((Disk.ofTables 40 [("t", RawScan.halved)]).dump "t" .all).1 := by
  have held : (Disk.ofTables 40 [("t", RawScan.halved)]).HoldsRun "t" RawScan.halved := by
    refine Disk.holdsRun_of_content 40 0 ?_ ?_ ?_ ?_
    all_goals first | exact ByteStore.bytes_ofBytes _ | decide +kernel
  exact dump_of_holdsRun held (some ⟨[1]⟩) (some ⟨[39]⟩)

end Disk

end SortedTables
