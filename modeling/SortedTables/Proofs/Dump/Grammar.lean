import Mathlib.Data.List.Forall2
import SortedTables.Proofs.Dump.Text

/-!
# What a well-formed dump is

The grammar of dumps, without a scan: a text is cut into lines, each line stands for at most one line
of a dump (`DumpText.IsLine.unique`), and a dump is a header, entries that ascend within its range, and
a trailer with their number. `DumpText.WellFormed` says so of a whole text, and `DumpText.IsFront` of
lines that may be the first ones of a dump.

A text that is no dump has a first place where it stops being one (`DumpText.exists_breaks`): a line
that may not stand behind the lines before it, or the end of the text. No dump is the beginning of
another one (`DumpText.WellFormed.eq_of_isPrefix`), since its last line is the only trailer in it.
-/

namespace SortedTables

namespace DumpText

open LineSource

/-- The lines of a text with their ends. What stands behind the last end is a line too. -/
def linesOf : Bytes → List Bytes
  | [] => []
  | byte :: rest =>
    if byte = newline then
      [byte] :: linesOf rest
    else
      match linesOf rest with
      | [] => [[byte]]
      | line :: later => (byte :: line) :: later

/-- Bytes are a line that stands for a line of a dump: they are valid UTF-8, have the end of a line at
their end and nowhere else, and can be parsed. -/
def IsLine (bytes : Bytes) (line : DumpLine) : Prop :=
  ∃ text : List Char, '\n' ∉ text ∧ bytes = Utf8.encode (text ++ ['\n']) ∧
    DumpLine.parse (text ++ ['\n']) = .ok line

/-- Entries that a dump of a range may list: their keys ascend strictly and belong to the range. -/
structure Listable (range : KeyRange) (entries : List Entry) : Prop where
  /-- The keys ascend. -/
  ascends : Ascending entries
  /-- The keys belong to the range. -/
  inside : ∀ entry ∈ entries, range.contains entry.key = true

/-- The header of a range and the lines of entries. -/
def listing (range : KeyRange) (entries : List Entry) : List DumpLine :=
  .header range :: entries.map .entry

/-- All lines of the dump of a range: the header, those of its entries, and the trailer with their
number. -/
def whole (range : KeyRange) (entries : List Entry) : List DumpLine :=
  listing range entries ++ [.trailer entries.length]

/-- A text is a dump of entries within a range, and nothing follows the trailer. -/
structure WellFormed (text : Bytes) (range : KeyRange) (entries : List Entry) : Prop where
  /-- The entries may be listed. -/
  listable : Listable range entries
  /-- The lines of the text are those of the dump. -/
  stands : List.Forall₂ IsLine (linesOf text) (whole range entries)

/-- Lines that may be the first ones of a dump, and the entries on them. -/
inductive IsFront (lines : List Bytes) : List Entry → Prop where
  | nothing (none : lines = []) : IsFront lines []
  | listing {range : KeyRange} {entries : List Entry} (listable : Listable range entries)
      (stands : List.Forall₂ IsLine lines (listing range entries)) : IsFront lines entries
  | whole {range : KeyRange} {entries : List Entry} (listable : Listable range entries)
      (stands : List.Forall₂ IsLine lines (whole range entries)) : IsFront lines entries

/-- Where a text stops being a dump, and the entries on the lines before: at the first line that may not
stand there, counted from one, or at the end of the text, which is then too short and is given by the
number of its lines. -/
inductive Breaks (text : Bytes) : List Entry → Nat → Prop where
  | offends {entries : List Entry} {place : Nat} (inside : place < (linesOf text).length)
      (fine : IsFront ((linesOf text).take place) entries)
      (offends : ∀ more, ¬ IsFront ((linesOf text).take (place + 1)) more) :
      Breaks text entries (place + 1)
  | tooShort {entries : List Entry} (fine : IsFront (linesOf text) entries)
      (unfinished : ∀ range more, ¬ WellFormed text range more) :
      Breaks text entries (linesOf text).length

/-! ## Lines -/

/-- The lines of a text are all of it. -/
theorem flatten_linesOf (text : Bytes) : (linesOf text).flatten = text := by
  fun_induction linesOf text with
  | case1 => rfl
  | case2 rest ih => simpa using ih
  | case3 byte rest other none ih => simpa [none] using ih
  | case4 byte rest other line later more ih => simpa [more] using ih

/-- A text has no lines exactly if it is empty. -/
theorem linesOf_eq_nil_iff {text : Bytes} : linesOf text = [] ↔ text = [] := by
  constructor
  · intro none
    rw [← flatten_linesOf text, none]
    rfl
  · rintro rfl
    rfl

/-- The first line of a text is the one that is taken from it, and the other lines are those of what is
left. -/
theorem linesOf_eq_cons {byte : UInt8} {rest : Bytes} :
    linesOf (byte :: rest) =
      (takeLine (byte :: rest)).1 :: linesOf (takeLine (byte :: rest)).2 := by
  induction rest generalizing byte with
  | nil => by_cases ends : byte = newline <;> simp [linesOf, takeLine, ends]
  | cons next later ih =>
    by_cases ends : byte = newline
    · simp [linesOf, takeLine, ends]
    · have taken : takeLine (byte :: next :: later) =
          (byte :: (takeLine (next :: later)).1, (takeLine (next :: later)).2) := by
        have goesOn : (byte != newline) = true := by simp [ends]
        simp only [takeLine, List.dropWhile_cons (x := byte), List.takeWhile_cons (a := byte), goesOn,
          if_true]
        cases (next :: later).dropWhile (· != newline) <;> rfl
      rw [linesOf, if_neg ends, ih, taken]

/-- Lines with an end are followed by the lines of what follows them. -/
theorem linesOf_append {text : Bytes} (ended : ∀ line ∈ linesOf text, line.getLast? = some newline)
    (rest : Bytes) : linesOf (text ++ rest) = linesOf text ++ linesOf rest := by
  induction text with
  | nil => rfl
  | cons byte later ih =>
    rw [List.cons_append, linesOf, linesOf]
    by_cases ends : byte = newline
    · rw [linesOf, if_pos ends] at ended
      rw [if_pos ends, if_pos ends, ih fun line member => ended line (List.mem_cons_of_mem _ member),
        List.cons_append]
    · rw [linesOf, if_neg ends] at ended
      rw [if_neg ends, if_neg ends]
      cases lines : linesOf later with
      | nil =>
        rw [lines] at ended
        have last := ended [byte] List.mem_cons_self
        exact absurd (Option.some.inj last) ends
      | cons line behind =>
        rw [lines] at ended ih
        have nonempty : line ≠ [] := by
          rintro rfl
          have last := ended [byte] List.mem_cons_self
          exact ends (Option.some.inj last)
        rw [ih ?_]
        · rfl
        · intro other member
          rcases List.mem_cons.mp member with rfl | member
          · have last := ended (byte :: other) List.mem_cons_self
            rwa [List.getLast?_cons_of_ne_nil nonempty] at last
          · exact ended other (List.mem_cons_of_mem _ member)

/-- A line has an end. -/
theorem IsLine.getLast? {bytes : Bytes} {line : DumpLine} (isLine : IsLine bytes line) :
    bytes.getLast? = some newline := by
  obtain ⟨text, _, rfl, _⟩ := isLine
  rw [Utf8.encode_append, List.getLast?_append]
  rfl

/-- A line stands for one line of a dump only. -/
theorem IsLine.unique {bytes : Bytes} {line other : DumpLine} (isLine : IsLine bytes line)
    (isOther : IsLine bytes other) : line = other := by
  obtain ⟨text, _, written, parsed⟩ := isLine
  obtain ⟨otherText, _, otherWritten, otherParsed⟩ := isOther
  have decoded := Utf8.decode?_eq_some_iff.mpr written
  rw [Utf8.decode?_eq_some_iff.mpr otherWritten, Option.some.injEq] at decoded
  rw [decoded, parsed] at otherParsed
  exact Except.ok.inj otherParsed

/-- Lines stand for one list of lines of a dump only. -/
theorem eq_of_stands {lines : List Bytes} {left right : List DumpLine}
    (isLeft : List.Forall₂ IsLine lines left) (isRight : List.Forall₂ IsLine lines right) :
    left = right :=
  List.right_unique_forall₂' (fun _ _ _ isLine isOther => isLine.unique isOther) isLeft isRight

/-! ## Where a text stops being a dump -/

/-- A text that is no dump stops being one somewhere. -/
theorem exists_breaks {text : Bytes} (none : ∀ range entries, ¬ WellFormed text range entries) :
    ∃ entries number, Breaks text entries number := by
  classical
  by_cases fine : ∃ entries, IsFront (linesOf text) entries
  · obtain ⟨entries, fine⟩ := fine
    exact ⟨entries, _, .tooShort fine none⟩
  · -- The least number of lines that are no front of a dump; it is not zero.
    have wrong : ∃ count, ∀ entries, ¬ IsFront ((linesOf text).take count) entries := by
      refine ⟨(linesOf text).length, fun entries isFront => fine ⟨entries, ?_⟩⟩
      rwa [List.take_length] at isFront
    have least := Nat.find_spec wrong
    cases first : Nat.find wrong with
    | zero =>
      rw [first] at least
      exact absurd (IsFront.nothing (List.take_zero)) (least [])
    | succ place =>
      rw [first] at least
      have before := Nat.find_min wrong (m := place) (by omega)
      simp only [not_forall, not_not] at before
      obtain ⟨entries, before⟩ := before
      refine ⟨entries, _, .offends ?_ before least⟩
      by_contra outside
      rw [List.take_of_length_le (by omega)] at before
      exact fine ⟨entries, before⟩

/-- Every line of a dump has an end. -/
theorem WellFormed.ended {text : Bytes} {range : KeyRange} {entries : List Entry}
    (wellFormed : WellFormed text range entries) :
    ∀ line ∈ linesOf text, line.getLast? = some newline := by
  intro line member
  obtain ⟨place, inside, rfl⟩ := List.getElem_of_mem member
  have same := wellFormed.stands.length_eq
  exact (wellFormed.stands.get inside (same ▸ inside)).getLast?

/-- A dump has a line for each entry and two more. -/
theorem length_whole (range : KeyRange) (entries : List Entry) :
    (whole range entries).length = entries.length + 2 := by
  simp [whole, listing]

/-- The only trailer of a dump is its last line. -/
theorem eq_of_getElem?_whole {range : KeyRange} {entries : List Entry} {place count : Nat}
    (isTrailer : (whole range entries)[place]? = some (.trailer count)) :
    place = entries.length + 1 := by
  rw [whole, List.getElem?_append] at isTrailer
  split at isTrailer
  · have member := List.mem_of_getElem? isTrailer
    simp [listing] at member
  · next behind =>
    have last := (List.getElem?_eq_some_iff.mp isTrailer).1
    simp only [listing, List.length_cons, List.length_map, List.length_nil] at behind last
    omega

/-- No dump is a proper beginning of a dump. -/
theorem WellFormed.eq_of_isPrefix {text front : Bytes} {range frontRange : KeyRange}
    {entries frontEntries : List Entry} (wellFormed : WellFormed text range entries)
    (frontWellFormed : WellFormed front frontRange frontEntries) (isFront : front <+: text) :
    front = text := by
  obtain ⟨rest, rfl⟩ := isFront
  have stands := wellFormed.stands
  rw [linesOf_append frontWellFormed.ended] at stands
  have taken := List.forall₂_take (linesOf front).length stands
  rw [List.take_left, frontWellFormed.stands.length_eq] at taken
  have same := eq_of_stands frontWellFormed.stands taken
  have last : (whole frontRange frontEntries)[frontEntries.length + 1]? =
      some (.trailer frontEntries.length) := by
    simp [whole, listing]
  have inside : frontEntries.length + 1 < (whole frontRange frontEntries).length := by
    simp [length_whole]
  rw [same, List.getElem?_take_of_lt inside] at last
  have asMany := eq_of_getElem?_whole last
  have lengths := stands.length_eq
  rw [List.length_append, frontWellFormed.stands.length_eq, length_whole, length_whole] at lengths
  have none : linesOf rest = [] := List.eq_nil_of_length_eq_zero (by omega)
  rw [linesOf_eq_nil_iff.mp none, List.append_nil]

end DumpText

end SortedTables
