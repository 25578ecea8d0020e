import Mathlib.Data.List.DropRight
import Mathlib.Data.List.Induction
import SortedTables.Proofs.Dump.Lines

/-!
# The lines that can be read

`DumpLine.StandsFor` is the language of dump lines, said without a parser: which texts are lines, and
which header, entry or trailer each of them stands for. It rests on what numerals and hexadecimal texts
stand for (`Decimal.Numeral`, `Hex.Denotes`). `DumpLine.parse_eq_ok_iff` says that parsing accepts
exactly these texts, once the ends of the line are taken off, and gives what they stand for.

A field ends where the mark behind it stands for the first time. That no mark can stand earlier is due to
the fields alone: none of them can contain the character that the mark begins with. In the other
direction nothing about fields is needed, since a text that was split is made of its parts.
-/

namespace SortedTables

/-- Where a step after another one succeeds, both do. -/
theorem exists_of_bind_eq_ok {α β ε : Type} {first : Except ε α} {next : α → Except ε β}
    {result : β} (succeeds : first >>= next = .ok result) :
    ∃ middle, first = .ok middle ∧ next middle = .ok result := by
  cases first with
  | error _ => cases succeeds
  | ok middle => exact ⟨middle, rfl, succeeds⟩

/-- What looks at a result succeeds where there is one. -/
theorem map_eq_ok_iff {α β ε : Type} {f : α → β} {outcome : Except ε α} {result : β} :
    outcome.map f = .ok result ↔ ∃ inner, outcome = .ok inner ∧ f inner = result := by
  cases outcome <;> simp [Except.map]

namespace Decimal

/-- A text of at least one decimal digit, and the number that it stands for. -/
inductive Numeral : List Char → Nat → Prop where
  | digit {d : Nat} (small : d < 10) : Numeral [Nat.digitChar d] d
  | more {text : List Char} {n d : Nat} (front : Numeral text n) (small : d < 10) :
      Numeral (text ++ [Nat.digitChar d]) (10 * n + d)

/-- A digit stands for the number that it is the digit of. -/
theorem exists_digitChar {c : Char} (isDigit : c.isDigit = true) :
    ∃ d < 10, c = Nat.digitChar d := by
  obtain ⟨low, high⟩ := Char.isDigit_iff_toNat.mp isDigit
  change 48 ≤ c.toNat at low
  change c.toNat ≤ 57 at high
  refine ⟨c.toNat - 48, by omega, Char.toNat_inj.mp ?_⟩
  rw [Nat.toNat_digitChar_of_lt_ten (by omega)]
  omega

/-- A digit at the end of a numeral counts as it is, and makes what is in front of it worth ten times as
much. -/
theorem ofDigitChars_concat (text : List Char) {d : Nat} (small : d < 10) :
    Nat.ofDigitChars 10 (text ++ [Nat.digitChar d]) 0 = 10 * Nat.ofDigitChars 10 text 0 + d := by
  have value : (Nat.digitChar d).toNat - '0'.toNat = d := by
    rw [Nat.toNat_digitChar_of_lt_ten small]
    exact Nat.add_sub_cancel_left ..
  rw [Nat.ofDigitChars_append, Nat.ofDigitChars_cons, value]
  rfl

/-- Numerals are the texts of digits, and stand for what these add up to. -/
theorem numeral_iff {text : List Char} {n : Nat} : Numeral text n ↔
    text ≠ [] ∧ (∀ c ∈ text, c.isDigit = true) ∧ Nat.ofDigitChars 10 text 0 = n := by
  have isDigit {d : Nat} (small : d < 10) : (Nat.digitChar d).isDigit = true := by
    simp [Nat.isDigit_digitChar, small]
  constructor
  · intro numeral
    induction numeral with
    | digit small =>
      exact ⟨by simp, by simpa using isDigit small,
        (ofDigitChars_concat [] small).trans (Nat.zero_add _)⟩
    | more _ small ih =>
      refine ⟨by simp, ?_, by rw [ofDigitChars_concat _ small, ih.2.2]⟩
      intro c member
      rcases List.mem_append.mp member with isFront | isLast
      · exact ih.2.1 c isFront
      · cases List.mem_singleton.mp isLast
        exact isDigit small
  · induction text using List.reverseRecOn generalizing n with
    | nil => exact fun empty => absurd rfl empty.1
    | append_singleton front last ih =>
      rintro ⟨_, digits, rfl⟩
      obtain ⟨d, small, rfl⟩ := exists_digitChar (digits last (by simp))
      rw [ofDigitChars_concat front small]
      by_cases empty : front = []
      · subst empty
        simpa [Nat.ofDigitChars] using Numeral.digit small
      · exact .more (ih ⟨empty, fun c member => digits c (by simp [member]), rfl⟩) small

/-- Reading accepts the numerals below the bound. -/
theorem decode?_eq_some_iff {bound n : Nat} {text : List Char} :
    decode? bound text = some n ↔ Numeral text n ∧ n < bound := by
  rw [numeral_iff]
  simp only [decode?, List.all_eq_true]
  constructor
  · intro decoded
    split at decoded
    · next digits =>
      split at decoded
      · next small =>
        cases decoded
        exact ⟨⟨digits.1, digits.2, rfl⟩, small⟩
      · cases decoded
    · cases decoded
  · rintro ⟨⟨nonempty, digits, rfl⟩, small⟩
    rw [if_pos ⟨nonempty, digits⟩, if_pos small]

/-- A character that is no digit does not occur in a numeral. -/
theorem Numeral.not_mem {text : List Char} {n : Nat} (numeral : Numeral text n) {c : Char}
    (noDigit : c.isDigit = false) : c ∉ text := fun member => by
  cases ((numeral_iff.mp numeral).2.1 c member).symm.trans noDigit

end Decimal

namespace Hex

/-- A hexadecimal digit, small or capital, and the number that it stands for. -/
def IsDigit (c : Char) (n : Nat) : Prop :=
  n < 16 ∧ (c = Nat.digitChar n ∨ c = (Nat.digitChar n).toUpper)

/-- A text of hexadecimal digits, two for each byte, and the bytes that it stands for. -/
inductive Denotes : List Char → Bytes → Prop where
  | nil : Denotes [] []
  | cons {high low : Char} {h l : Nat} {text : List Char} {bytes : Bytes} (isHigh : IsDigit high h)
      (isLow : IsDigit low l) (rest : Denotes text bytes) :
      Denotes (high :: low :: text) (UInt8.ofNat (16 * h + l) :: bytes)

instance (c : Char) (n : Nat) : Decidable (IsDigit c n) :=
  inferInstanceAs (Decidable (n < 16 ∧ (c = Nat.digitChar n ∨ c = (Nat.digitChar n).toUpper)))

/-- Reading a digit accepts the digits of both cases. -/
theorem value?_eq_some_iff {c : Char} {n : Nat} : value? c = some n ↔ IsDigit c n := by
  constructor
  · intro read
    have small : c.toNat < 103 := by
      by_contra large
      have above {last : Char} (low : last.toNat < 103) : ¬ c ≤ last := fun bound =>
        large (Nat.lt_of_le_of_lt (UInt32.le_iff_toNat_le.mp bound) low)
      simp only [value?, above (show '9'.toNat < 103 by decide), above (show 'f'.toNat < 103 by decide),
        above (show 'F'.toNat < 103 by decide), and_false, if_false, reduceCtorEq] at read
    have all : ∀ code : Fin 103, ∀ n ∈ value? (Char.ofNat code), IsDigit (Char.ofNat code) n := by
      decide
    have known := all ⟨c.toNat, small⟩ n
    rw [Char.ofNat_toNat] at known
    exact known read
  · rintro ⟨small, isDigit⟩
    have all : ∀ n : Fin 16, value? (Nat.digitChar n) = some n.val ∧
        value? (Nat.digitChar n).toUpper = some n.val := by decide
    rcases isDigit with rfl | rfl
    · exact (all ⟨n, small⟩).1
    · exact (all ⟨n, small⟩).2

/-- Reading accepts the texts that stand for bytes. -/
theorem decode?_eq_some_iff {text : List Char} {bytes : Bytes} :
    decode? text = some bytes ↔ Denotes text bytes := by
  constructor
  · intro read
    induction text using List.twoStepInduction generalizing bytes with
    | nil =>
      cases read
      exact .nil
    | singleton c => cases read
    | cons_cons high low rest ih _ =>
      rw [decode?_cons_cons] at read
      obtain ⟨byte, isByte, isRest⟩ := Option.bind_eq_some_iff.mp read
      obtain ⟨later, isLater, rfl⟩ := Option.map_eq_some_iff.mp isRest
      unfold byte? at isByte
      split at isByte
      · next h l isHigh isLow =>
        cases isByte
        exact .cons (value?_eq_some_iff.mp isHigh) (value?_eq_some_iff.mp isLow) (ih isLater)
      · cases isByte
  · intro denotes
    induction denotes with
    | nil => rfl
    | cons isHigh isLow _ ih =>
      rw [decode?_cons_cons, byte?, value?_eq_some_iff.mpr isHigh, value?_eq_some_iff.mpr isLow, ih]
      rfl

/-- A character that is no digit does not occur in a hexadecimal text. -/
theorem Denotes.not_mem {text : List Char} {bytes : Bytes} (denotes : Denotes text bytes) {c : Char}
    (noDigit : value? c = none) : c ∉ text := by
  induction denotes with
  | nil => exact List.not_mem_nil
  | cons isHigh isLow _ ih =>
    rintro (_ | ⟨_, _ | ⟨_, member⟩⟩)
    · cases noDigit.symm.trans (value?_eq_some_iff.mpr isHigh)
    · cases noDigit.symm.trans (value?_eq_some_iff.mpr isLow)
    · exact ih member

end Hex

namespace DumpLine

open Decimal Hex

/-! ## The language -/

/-- A bound of a header: nothing at an open side, or digits in quotes. -/
inductive BoundText : List Char → Option Key → Prop where
  | opened : BoundText [] none
  | quoted {digits : List Char} {bytes : Bytes} (denotes : Denotes digits bytes) :
      BoundText (['\''] ++ digits ++ ['\'']) (some ⟨bytes⟩)

/-- A lower bound of a header. The one without digits stands for an open side. -/
inductive LowerText : List Char → Option Key → Prop where
  | bound {text : List Char} {bound : Option Key} (isBound : BoundText text bound)
      (nonempty : bound ≠ some .empty) : LowerText text bound
  | noDigits : LowerText ['\'', '\''] none

/-- What stands behind the arrow of an entry line: nothing, or a blank and the digits of the value. -/
inductive ValueText : List Char → Bytes → Prop where
  | nothing : ValueText [] []
  | digits {text : List Char} {bytes : Bytes} (denotes : Denotes text bytes) :
      ValueText (' ' :: text) bytes

/-- The texts that are lines of a dump, without the ends of the lines, and what they stand for. -/
inductive StandsFor : List Char → DumpLine → Prop where
  | header {lower upper : List Char} {range : KeyRange} (isLower : LowerText lower range.lower)
      (isUpper : BoundText upper range.upper) :
      StandsFor ("from [".toList ++ lower ++ "] to [".toList ++ upper ++ "]".toList) (.header range)
  | trailer {digits : List Char} {count : Nat} (numeral : Numeral digits count)
      (small : count < UInt64.size) : StandsFor ("# entries: ".toList ++ digits) (.trailer count)
  | entry {key seq type value : List Char} {entry : Entry} (isKey : Denotes key entry.key.bytes)
      (isSeq : Numeral seq entry.seq.toNat)
      (isType : Numeral type (match entry.kind with | .delete => 0 | .put => 1))
      (isValue : ValueText value entry.value) (bare : entry.kind = .delete → entry.value = []) :
      StandsFor ("'".toList ++ key ++ "' seq:".toList ++ seq ++ ", type:".toList ++ type ++
        " =>".toList ++ value) (.entry entry)

/-! ## Taking texts apart -/

/-- What follows the start of a line is what the line consists of besides. -/
theorem after?_eq_some_iff {mark line rest : List Char} :
    after? mark line = some rest ↔ line = mark ++ rest := by
  constructor
  · intro found
    fun_induction after? mark line with
    | case1 => exact Option.some.inj found
    | case2 mark c line ih => rw [ih found, List.cons_append]
    | case3 => cases found
    | case4 => cases found
  · rintro rfl
    exact after?_append mark rest

/-- A text that was split consists of its parts and the mark. -/
theorem eq_of_split? {mark line front rest : List Char}
    (found : split? mark line = some (front, rest)) : line = front ++ (mark ++ rest) := by
  suffices general : ∀ passed, splitAfter mark passed line = some (front, rest) →
      passed.reverse ++ line = front ++ (mark ++ rest) from general [] found
  clear found
  intro passed found
  fun_induction splitAfter mark passed line with
  | case1 passed noMark =>
    cases found
    rw [noMark, List.nil_append]
  | case2 => cases found
  | case3 passed c line rest' isAfter =>
    cases found
    rw [after?_eq_some_iff.mp isAfter]
  | case4 passed c line noMark ih =>
    have whole := ih found
    rwa [List.reverse_cons, List.append_assoc] at whole

/-- What stands before the last character is what the text consists of besides. -/
theorem before?_eq_some_iff {last : Char} {line front : List Char} :
    before? last line = some front ↔ line = front ++ [last] := by
  constructor
  · intro found
    unfold before? at found
    split at found
    · next isLast =>
      cases found
      exact (List.dropLast_append_getLast? last isLast).symm
    · cases found
  · rintro rfl
    exact before?_append last front

/-- Taking the ends off a line takes as many characters off as end lines. -/
theorem trimEnd_eq_iff {line body : List Char} : trimEnd line = body ↔ ∃ ends, line = body ++ ends ∧
    (∀ c ∈ ends, endsLine c = true) ∧ ∀ last, body.getLast? = some last → endsLine last = false := by
  change line.rdropWhile endsLine = body ↔ _
  constructor
  · rintro rfl
    refine ⟨line.rtakeWhile endsLine, List.rdropWhile_append_rtakeWhile.symm,
      fun _ => List.mem_rtakeWhile_imp, fun last isLast => ?_⟩
    have nonempty : line.rdropWhile endsLine ≠ [] := List.ne_nil_of_mem (List.mem_of_getLast? isLast)
    rw [List.getLast?_eq_some_getLast nonempty, Option.some.injEq] at isLast
    exact Bool.eq_false_iff.mpr (isLast ▸ List.rdropWhile_last_not endsLine line nonempty)
  · rintro ⟨ends, rfl, areEnds, noEnd⟩
    rw [List.rdropWhile, List.reverse_append,
      List.dropWhile_append_of_pos fun c member => areEnds c (List.mem_reverse.mp member)]
    refine List.rdropWhile_eq_self_iff.mpr fun nonempty => ?_
    rw [noEnd _ (List.getLast?_eq_some_getLast nonempty)]
    exact Bool.false_ne_true

/-! ## Reading the fields -/

/-- The type of an entry is read from a numeral of the number that it is stored as. -/
theorem parseKind?_eq_some_iff {text : List Char} {kind : EntryKind} : parseKind? text = some kind ↔
    Numeral text (match kind with | .delete => 0 | .put => 1) := by
  have number : kind.toByte.toNat = match kind with | .delete => 0 | .put => 1 := by
    cases kind <;> rfl
  rw [parseKind?, Option.bind_eq_some_iff, ← number]
  simp only [Decimal.decode?_eq_some_iff, EntryKind.ofByte?_eq_some_iff]
  constructor
  · rintro ⟨n, ⟨numeral, small⟩, isKind⟩
    have same := congrArg UInt8.toNat isKind
    rw [UInt8.toNat_ofNat_of_lt' small] at same
    exact same ▸ numeral
  · intro numeral
    exact ⟨_, ⟨numeral, kind.toByte.toNat_lt⟩, UInt8.ofNat_toNat⟩

/-- A bound is read from the texts of bounds. -/
theorem parseBound_eq_ok_iff {part : HexPart} {text : List Char} {bound : Option Key} :
    parseBound part text = .ok bound ↔ BoundText text bound := by
  constructor
  · intro read
    unfold parseBound at read
    split at read
    · next empty =>
      cases read
      exact empty ▸ .opened
    · split at read
      · cases read
      · next digits inQuotes =>
        split at read
        · cases read
        · next bytes isBytes =>
          cases read
          obtain ⟨rest, isRest, isDigits⟩ := Option.bind_eq_some_iff.mp inQuotes
          rw [after?_eq_some_iff.mp isRest, before?_eq_some_iff.mp isDigits]
          exact .quoted (Hex.decode?_eq_some_iff.mp isBytes)
  · intro isBound
    cases isBound with
    | opened => rfl
    | @quoted digits bytes denotes =>
      have inQuotes : (after? ['\''] (['\''] ++ digits ++ ['\''])).bind (before? '\'') =
          some digits := by
        rw [List.append_assoc, after?_append, Option.bind_some, before?_append]
      rw [parseBound, if_neg (by simp), inQuotes]
      simp only [Hex.decode?_eq_some_iff.mpr denotes]

/-- What stands behind the arrow is read from the texts of values. -/
theorem valueText_eq_ok_iff {text : List Char} {bytes : Bytes} :
    (∃ digits, valueText text = .ok digits ∧ Denotes digits bytes) ↔ ValueText text bytes := by
  constructor
  · rintro ⟨digits, read, denotes⟩
    unfold valueText at read
    split at read
    · cases read
      cases denotes
      exact .nothing
    · cases read
      exact .digits denotes
    · cases read
  · intro isValue
    cases isValue with
    | nothing => exact ⟨[], rfl, .nil⟩
    | digits denotes => exact ⟨_, rfl, denotes⟩

/-! ## Reading the lines -/

/-- A bound contains no bracket. -/
theorem LowerText.not_mem {text : List Char} {bound : Option Key} (isLower : LowerText text bound) :
    ']' ∉ text := by
  cases isLower with
  | noDigits => decide
  | bound isBound _ =>
    cases isBound with
    | opened => exact List.not_mem_nil
    | quoted denotes => simpa using denotes.not_mem rfl

/-- The lower bound of a range is read from the texts of lower bounds. -/
theorem lowerText_iff {text : List Char} {range : KeyRange} :
    (∃ bound, BoundText text bound ∧ KeyRange.between bound range.upper = range) ↔
      LowerText text range.lower := by
  constructor
  · rintro ⟨bound, isBound, isRange⟩
    by_cases empty : bound = some .empty
    · subst empty
      obtain ⟨⟩ := isBound
      next denotes =>
        cases denotes
        rw [← isRange]
        exact .noDigits
    · rw [KeyRange.between, dif_neg empty] at isRange
      rw [← isRange]
      exact .bound isBound empty
  · obtain ⟨lower, upper, nonempty⟩ := range
    intro isLower
    cases isLower with
    | bound isBound _ => exact ⟨lower, isBound, by rw [KeyRange.between, dif_neg nonempty]⟩
    | noDigits => exact ⟨some .empty, .quoted .nil, by rw [KeyRange.between, dif_pos rfl]⟩

/-- What follows the start of a header line is read if it consists of two bounds and the marks. -/
theorem parseHeader_eq_ok_iff {text : List Char} {range : KeyRange} :
    parseHeader text = .ok range ↔ ∃ lower upper,
      text = lower ++ (KeyRange.headerMiddle ++ (upper ++ [']'])) ∧ LowerText lower range.lower ∧
        BoundText upper range.upper := by
  constructor
  · intro read
    unfold parseHeader at read
    split at read
    · cases read
    · next lowerText rest isSplit =>
      split at read
      · cases read
      · next upperText isUpper =>
        obtain ⟨low, isLow, read⟩ := exists_of_bind_eq_ok read
        obtain ⟨high, isHigh, read⟩ := exists_of_bind_eq_ok read
        obtain rfl : KeyRange.between low high = range := Except.ok.inj read
        have upperIs : (KeyRange.between low high).upper = high := by
          unfold KeyRange.between
          split <;> rfl
        refine ⟨lowerText, upperText, ?_, ?_, ?_⟩
        · rw [eq_of_split? isSplit, before?_eq_some_iff.mp isUpper]
        · exact lowerText_iff.mp ⟨low, parseBound_eq_ok_iff.mp isLow, by rw [upperIs]⟩
        · rw [upperIs]
          exact parseBound_eq_ok_iff.mp isHigh
  · rintro ⟨lower, upper, rfl, isLower, isUpper⟩
    obtain ⟨bound, isBound, isRange⟩ := lowerText_iff.mpr isLower
    have isSplit : split? KeyRange.headerMiddle (lower ++ (KeyRange.headerMiddle ++ (upper ++ [']']))) =
        some (lower, upper ++ [']']) :=
      split?_append " to [".toList (upper ++ [']']) isLower.not_mem
    simp only [parseHeader, isSplit, before?_append, parseBound_eq_ok_iff.mpr isBound,
      parseBound_eq_ok_iff.mpr isUpper, bind, Except.bind, pure, Except.pure, isRange]

/-- Fields that were split off an entry line make up the line with the marks. -/
theorem eq_of_splitEntry {line : List Char} {fields : EntryFields}
    (found : splitEntry line = .ok fields) : ∃ text, valueText text = .ok fields.value ∧
      line = ['\''] ++ (fields.key ++ (['\''] ++ (seqMark ++ (fields.seq ++ (typeMark ++
        (fields.type ++ (valueMark ++ text))))))) := by
  have passes {α : Type} {part : LinePart} {found : Option α} {result : α}
      (ok : splitEntry.orMissing part found = .ok result) : found = some result := by
    cases found with
    | none => cases ok
    | some _ => exact congrArg some (Except.ok.inj ok)
  obtain ⟨afterQuote, isAfter, found⟩ := exists_of_bind_eq_ok found
  obtain ⟨⟨key, afterKey⟩, isKey, found⟩ := exists_of_bind_eq_ok found
  obtain ⟨afterMark, isMark, found⟩ := exists_of_bind_eq_ok found
  obtain ⟨⟨seq, afterSeq⟩, isSeq, found⟩ := exists_of_bind_eq_ok found
  obtain ⟨⟨type, afterType⟩, isType, found⟩ := exists_of_bind_eq_ok found
  obtain ⟨value, isValue, found⟩ := exists_of_bind_eq_ok found
  cases found
  refine ⟨afterType, isValue, ?_⟩
  rw [after?_eq_some_iff.mp (passes isAfter), eq_of_split? (passes isKey),
    after?_eq_some_iff.mp (passes isMark), eq_of_split? (passes isSeq), eq_of_split? (passes isType)]

/-- Fields are read as an entry if each of them stands for its part of the entry, and no value is that
of a tombstone. -/
theorem parseFields_eq_ok_iff {fields : EntryFields} {entry : Entry} :
    fields.parse = .ok entry ↔ Denotes fields.key entry.key.bytes ∧
      Numeral fields.seq entry.seq.toNat ∧
      Numeral fields.type (match entry.kind with | .delete => 0 | .put => 1) ∧
      Denotes fields.value entry.value ∧ (entry.kind = .delete → entry.value = []) := by
  constructor
  · intro read
    unfold EntryFields.parse at read
    split at read
    · cases read
    · next key isKey =>
      split at read
      · cases read
      · next seq isSeq =>
        split at read
        · cases read
        · next kind isKind =>
          split at read
          · cases read
          · next value isValue =>
            split at read
            · cases read
            · next bare =>
              cases read
              obtain ⟨numeral, small⟩ := Decimal.decode?_eq_some_iff.mp isSeq
              refine ⟨Hex.decode?_eq_some_iff.mp isKey, ?_, parseKind?_eq_some_iff.mp isKind,
                Hex.decode?_eq_some_iff.mp isValue, ?_⟩
              · rwa [UInt64.toNat_ofNat_of_lt' small]
              · intro isDelete
                by_contra nonempty
                exact bare ⟨isDelete, nonempty⟩
  · rintro ⟨isKey, isSeq, isType, isValue, bare⟩
    have seq := Decimal.decode?_eq_some_iff.mpr ⟨isSeq, entry.seq.toNat_lt⟩
    have noValue : ¬ (entry.kind = .delete ∧ entry.value ≠ []) := fun loaded =>
      loaded.2 (bare loaded.1)
    simp only [EntryFields.parse, Hex.decode?_eq_some_iff.mpr isKey, seq,
      parseKind?_eq_some_iff.mpr isType, Hex.decode?_eq_some_iff.mpr isValue, if_neg noValue,
      UInt64.ofNat_toNat]

/-- The texts of fields and the marks between them make up an entry line. -/
theorem entryLine_eq (key seq type value : List Char) :
    "'".toList ++ key ++ "' seq:".toList ++ seq ++ ", type:".toList ++ type ++ " =>".toList ++ value =
      ['\''] ++ (key ++ (['\''] ++ (seqMark ++ (seq ++ (typeMark ++ (type ++
        (valueMark ++ value))))))) := by
  have quoted : "' seq:".toList = ['\''] ++ seqMark := rfl
  simp only [quoted, List.append_assoc]
  rfl

/-- An entry line is read if it consists of fields that stand for the parts of an entry, and the
marks. -/
theorem parseEntry_eq_ok_iff {line : List Char} {entry : Entry} :
    parseEntry line = .ok entry ↔ StandsFor line (.entry entry) := by
  constructor
  · intro read
    obtain ⟨fields, isSplit, read⟩ := exists_of_bind_eq_ok read
    obtain ⟨isKey, isSeq, isType, isValue, bare⟩ := parseFields_eq_ok_iff.mp read
    obtain ⟨text, isText, rfl⟩ := eq_of_splitEntry isSplit
    rw [← entryLine_eq]
    exact .entry isKey isSeq isType (valueText_eq_ok_iff.mp ⟨_, isText, isValue⟩) bare
  · intro stands
    cases stands with
    | entry isKey isSeq isType isValue bare =>
      obtain ⟨digits, isText, isValue⟩ := valueText_eq_ok_iff.mpr isValue
      rw [entryLine_eq, parseEntry, splitEntry_of_fields (isKey.not_mem rfl) (isSeq.not_mem rfl)
        (isType.not_mem rfl) isText]
      exact parseFields_eq_ok_iff.mpr ⟨isKey, isSeq, isType, isValue, bare⟩

/-- A line without ends is read if it stands for something, as what it stands for. The three kinds of
lines begin with different characters. -/
theorem parse_of_trimmed {text body : List Char} (trimmed : trimEnd text = body) {line : DumpLine} :
    parse text = .ok line ↔ StandsFor body line := by
  have headerLine (lower upper : List Char) :
      "from [".toList ++ lower ++ "] to [".toList ++ upper ++ "]".toList =
        KeyRange.headerStart ++ (lower ++ (KeyRange.headerMiddle ++ (upper ++ [']']))) := by
    simp only [List.append_assoc]
    rfl
  constructor
  · intro read
    simp only [parse, trimmed] at read
    split at read
    · next bounds isHeader =>
      obtain ⟨range, isRange, rfl⟩ := map_eq_ok_iff.mp read
      obtain ⟨lower, upper, rfl, isLower, isUpper⟩ := parseHeader_eq_ok_iff.mp isRange
      rw [after?_eq_some_iff.mp isHeader, ← headerLine]
      exact .header isLower isUpper
    · split at read
      · next digits isTrailer =>
        split at read
        · cases read
        · next count isCount =>
          cases read
          obtain ⟨numeral, small⟩ := Decimal.decode?_eq_some_iff.mp isCount
          rw [after?_eq_some_iff.mp isTrailer]
          exact .trailer numeral small
      · split at read
        · obtain ⟨entry, isEntry, rfl⟩ := map_eq_ok_iff.mp read
          exact parseEntry_eq_ok_iff.mp isEntry
        · cases read
  · intro stands
    rw [parse, trimmed]
    cases stands with
    | header isLower isUpper =>
      rw [headerLine, after?_append]
      exact map_eq_ok_iff.mpr ⟨_, parseHeader_eq_ok_iff.mpr ⟨_, _, rfl, isLower, isUpper⟩, rfl⟩
    | @trailer digits count numeral small =>
      have noHeader : after? KeyRange.headerStart ("# entries: ".toList ++ digits) = none := rfl
      have isTrailer : after? trailerStart ("# entries: ".toList ++ digits) = some digits :=
        after?_append trailerStart digits
      simp only [noHeader, isTrailer, Decimal.decode?_eq_some_iff.mpr ⟨numeral, small⟩]
    | @entry key seq type value entry isKey isSeq isType isValue bare =>
      have read := parseEntry_eq_ok_iff.mpr (.entry isKey isSeq isType isValue bare)
      rw [entryLine_eq] at read ⊢
      exact map_eq_ok_iff.mpr ⟨entry, read, rfl⟩

/-- A text is read as a line of a dump exactly if, without all carriage returns and line feeds at its end,
it is one of the texts that stand for such a line; and it is read as what it stands for. -/
theorem parse_eq_ok_iff {text : List Char} {line : DumpLine} :
    parse text = .ok line ↔ ∃ body ends, text = body ++ ends ∧ (∀ c ∈ ends, c = '\r' ∨ c = '\n') ∧
      (∀ last, body.getLast? = some last → last ≠ '\r' ∧ last ≠ '\n') ∧ StandsFor body line := by
  have isEnd (c : Char) : endsLine c = true ↔ c = '\r' ∨ c = '\n' := by
    simp [endsLine, or_comm]
  have noEnd (c : Char) : endsLine c = false ↔ c ≠ '\r' ∧ c ≠ '\n' := by
    rw [Bool.eq_false_iff, ne_eq, isEnd, not_or]
  constructor
  · intro read
    obtain ⟨ends, whole, areEnds, noEnds⟩ := trimEnd_eq_iff.mp (Eq.refl (trimEnd text))
    exact ⟨trimEnd text, ends, whole, fun c member => (isEnd c).mp (areEnds c member),
      fun last isLast => (noEnd last).mp (noEnds last isLast), (parse_of_trimmed rfl).mp read⟩
  · rintro ⟨body, ends, whole, areEnds, noEnds, stands⟩
    have trimmed : trimEnd text = body := trimEnd_eq_iff.mpr
      ⟨ends, whole, fun c member => (isEnd c).mpr (areEnds c member),
        fun last isLast => (noEnd last).mpr (noEnds last isLast)⟩
    exact (parse_of_trimmed trimmed).mpr stands

example : parse "'61' seq:007, type:01 => 7A\r\n".toList =
    .ok (.entry ⟨⟨[0x61]⟩, 7, .put, [0x7a]⟩) := by decide

end DumpLine

end SortedTables
