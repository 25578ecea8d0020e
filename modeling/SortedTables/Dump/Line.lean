import SortedTables.Decimal
import SortedTables.Dump.Range
import SortedTables.Entry

/-!
# The lines of a dump

A dump is a header line with its range, a line for each entry, and a trailer line with their number:

    from ['6b6579'] to []
    '6b6579' seq:12, type:1 => 76616c7565
    '6b657a' seq:13, type:0 =>
    # entries: 2

`DumpLine.render` writes a line and `DumpLine.parse` reads one. Reading is a little wider than
writing: hexadecimal digits may be capital, numerals may have leading zeros, and the blank in front
of an empty value may be missing. It refuses tombstones with a value.
-/

namespace SortedTables

/-- The parts of a line that can be missing. -/
inductive LinePart where
  /-- The separator in front of the upper bound. -/
  | upperBound
  /-- The bracket at the end of a header. -/
  | closingBracket
  /-- The quotes around a bound. -/
  | boundQuotes
  /-- The quote in front of a key. -/
  | openingQuote
  /-- The quote behind a key. -/
  | closingQuote
  /-- The sequence number. -/
  | sequenceNumber
  /-- The type of an entry. -/
  | entryType
  /-- The arrow in front of a value. -/
  | valueSeparator
deriving DecidableEq

/-- The name of a part. -/
def LinePart.name : LinePart → String
  | upperBound => "upper bound"
  | closingBracket => "closing bracket"
  | boundQuotes => "quotes around bound"
  | openingQuote => "opening quote"
  | closingQuote => "closing quote"
  | sequenceNumber => "sequence number"
  | entryType => "entry type"
  | valueSeparator => "value separator"

/-- The parts of a line that are hexadecimal. -/
inductive HexPart where
  /-- The lower bound of a header. -/
  | lowerBound
  /-- The upper bound of a header. -/
  | upperBound
  /-- The key of an entry. -/
  | key
  /-- The value of an entry. -/
  | value
deriving DecidableEq

/-- The name of a part. -/
def HexPart.name : HexPart → String
  | lowerBound => "lower bound"
  | upperBound => "upper bound"
  | key => "key"
  | value => "value"

/-- Why a text is not a line of a dump. -/
inductive LineFault where
  /-- The text starts like no kind of line. -/
  | unrecognized
  /-- A part is missing. -/
  | missing (part : LinePart)
  /-- A part is not hexadecimal. -/
  | invalidHex (part : HexPart)
  /-- The sequence number is not a numeral of 64 bits. -/
  | invalidSeq (text : List Char)
  /-- The type is neither that of a write nor that of a tombstone. -/
  | unknownType (text : List Char)
  /-- A tombstone has a value. -/
  | tombstoneWithValue
  /-- The number of entries is not a numeral of 64 bits. -/
  | invalidCount (text : List Char)
deriving DecidableEq

/-- The wording of a fault. -/
def LineFault.message : LineFault → String
  | unrecognized => "unrecognized line"
  | missing part => s!"missing {part.name}"
  | invalidHex part => s!"invalid hex in {part.name}"
  | invalidSeq text => "invalid sequence number `" ++ String.ofList text ++ "`"
  | unknownType text => "unknown entry type `" ++ String.ofList text ++ "`"
  | tombstoneWithValue => "delete entry carries a value"
  | invalidCount text => "invalid entry count `" ++ String.ofList text ++ "`"

/-- A line of a dump. -/
inductive DumpLine where
  /-- The first line, which states the range of the dump. -/
  | header (range : KeyRange)
  /-- A stored entry. -/
  | entry (entry : Entry)
  /-- The last line, which states the number of entries. -/
  | trailer (count : Nat)
deriving DecidableEq

namespace DumpLine

/-! ## Writing -/

/-- What stands between the key and the sequence number of an entry line. -/
def seqMark : List Char := " seq:".toList

/-- What stands between the sequence number and the type of an entry line. -/
def typeMark : List Char := ", type:".toList

/-- What stands behind the type of an entry line. A blank and the value follow. -/
def valueMark : List Char := " =>".toList

/-- What a trailer line starts with. -/
def trailerStart : List Char := "# entries: ".toList

/-- The line of an entry, without its end. -/
def renderEntry (entry : Entry) : List Char :=
  '\'' :: Hex.encode entry.key.bytes ++ '\'' :: seqMark ++ Decimal.encode entry.seq.toNat ++
    typeMark ++ Decimal.encode entry.kind.toByte.toNat ++ valueMark ++
    ' ' :: Hex.encode entry.value

/-- A line, without its end. -/
def render : DumpLine → List Char
  | .header range => range.header
  | .entry stored => renderEntry stored
  | .trailer count => trailerStart ++ Decimal.encode count

/-! ## Reading -/

/-- What follows a text that a line starts with, if the line starts with it. -/
def after? : List Char → List Char → Option (List Char)
  | [], line => some line
  | c :: mark, d :: line => if c = d then after? mark line else none
  | _ :: _, [] => none

/-- Splits a text at the first place where a mark stands, what was passed before being given the last
character first. -/
def splitAfter (mark passed : List Char) : List Char → Option (List Char × List Char)
  | [] => if mark = [] then some (passed.reverse, []) else none
  | c :: line =>
    match after? mark (c :: line) with
    | some rest => some (passed.reverse, rest)
    | none => splitAfter mark (c :: passed) line

/-- Splits a text at the first place where a mark stands. -/
def split? (mark line : List Char) : Option (List Char × List Char) :=
  splitAfter mark [] line

/-- What stands before the last character, if that is the given one. -/
def before? (last : Char) (line : List Char) : Option (List Char) :=
  if line.getLast? = some last then some line.dropLast else none

/-- Reads a bound of a header. -/
def parseBound (part : HexPart) (text : List Char) : Except LineFault (Option Key) :=
  if text = [] then
    .ok none
  else
    match (after? ['\''] text).bind (before? '\'') with
    | none => .error (.missing .boundQuotes)
    | some digits =>
      match Hex.decode? digits with
      | none => .error (.invalidHex part)
      | some bytes => .ok (some ⟨bytes⟩)

/-- Reads what follows the start of a header line. -/
def parseHeader (bounds : List Char) : Except LineFault KeyRange :=
  match split? KeyRange.headerMiddle bounds with
  | none => .error (.missing .upperBound)
  | some (lower, rest) =>
    match before? ']' rest with
    | none => .error (.missing .closingBracket)
    | some upper => do
      let lower ← parseBound .lowerBound lower
      let upper ← parseBound .upperBound upper
      return .between lower upper

/-- The texts of the fields of an entry line. -/
structure EntryFields where
  /-- The digits of the key. -/
  key : List Char
  /-- The sequence number. -/
  seq : List Char
  /-- The type. -/
  type : List Char
  /-- The digits of the value. -/
  value : List Char
deriving DecidableEq

/-- What follows the arrow of an entry line: nothing, or a blank and the value. -/
def valueText (text : List Char) : Except LineFault (List Char) :=
  match text with
  | [] => .ok []
  | ' ' :: value => .ok value
  | _ => .error (.missing .valueSeparator)

/-- Splits an entry line into its fields. -/
def splitEntry (line : List Char) : Except LineFault EntryFields := do
  let rest ← orMissing .openingQuote (after? ['\''] line)
  let (key, rest) ← orMissing .closingQuote (split? ['\''] rest)
  let rest ← orMissing .sequenceNumber (after? seqMark rest)
  let (seq, rest) ← orMissing .entryType (split? typeMark rest)
  let (type, rest) ← orMissing .valueSeparator (split? valueMark rest)
  let value ← valueText rest
  return ⟨key, seq, type, value⟩
where
  /-- What was found, or the fault that it is missing. -/
  orMissing {α : Type} (part : LinePart) : Option α → Except LineFault α
    | none => .error (.missing part)
    | some found => .ok found

/-- Reads the type of an entry. -/
def parseKind? (text : List Char) : Option EntryKind :=
  (Decimal.decode? 256 text).bind fun n => EntryKind.ofByte? (UInt8.ofNat n)

/-- Reads the fields of an entry line, the first fault in the order of the line winning. -/
def EntryFields.parse (fields : EntryFields) : Except LineFault Entry :=
  match Hex.decode? fields.key with
  | none => .error (.invalidHex .key)
  | some key =>
    match Decimal.decode? UInt64.size fields.seq with
    | none => .error (.invalidSeq fields.seq)
    | some seq =>
      match parseKind? fields.type with
      | none => .error (.unknownType fields.type)
      | some kind =>
        match Hex.decode? fields.value with
        | none => .error (.invalidHex .value)
        | some value =>
          if kind = .delete ∧ value ≠ [] then .error .tombstoneWithValue
          else .ok ⟨⟨key⟩, UInt64.ofNat seq, kind, value⟩

/-- Reads an entry line, which must have no end any more. -/
def parseEntry (line : List Char) : Except LineFault Entry := do
  let fields ← splitEntry line
  fields.parse

/-- Whether a character ends a line. -/
def endsLine (c : Char) : Bool :=
  c = '\n' || c = '\r'

/-- Takes the ends off a line. -/
def trimEnd (line : List Char) : List Char :=
  (line.reverse.dropWhile endsLine).reverse

/-- Reads a line, whose ends do not count. -/
def parse (line : List Char) : Except LineFault DumpLine :=
  let line := trimEnd line
  match after? KeyRange.headerStart line with
  | some bounds => (parseHeader bounds).map .header
  | none =>
    match after? trailerStart line with
    | some count =>
      match Decimal.decode? UInt64.size count with
      | none => .error (.invalidCount count)
      | some count => .ok (.trailer count)
    | none =>
      if line.head? = some '\'' then (parseEntry line).map .entry else .error .unrecognized

end DumpLine

end SortedTables
