/-!
# Decimal numerals

Counts and sequence numbers are shown in decimal, without sign or separators. Reading takes any
non-empty run of ASCII digits, leading zeros included, whose value is below a bound; it accepts
nothing else, no sign and no blank. `decode?_encode` is the round trip.
-/

namespace SortedTables.Decimal

/-- A number as digits. -/
def encode (n : Nat) : List Char :=
  Nat.toDigits 10 n

/-- The number that a text stands for, if it is a numeral with a value below the bound. -/
def decode? (bound : Nat) (text : List Char) : Option Nat :=
  if text ≠ [] ∧ text.all Char.isDigit then
    let value := Nat.ofDigitChars 10 text 0
    if value < bound then some value else none
  else
    none

/-- A numeral has digits only. -/
theorem isDigit_of_mem_encode {n : Nat} {digit : Char} (member : digit ∈ encode n) :
    digit.isDigit = true :=
  Nat.isDigit_of_mem_toDigits (by decide) (by decide) member

theorem encode_ne_nil (n : Nat) : encode n ≠ [] :=
  Nat.toDigits_ne_nil

/-- Reading gives back what was written, if the bound admits it. -/
theorem decode?_encode {bound n : Nat} (small : n < bound) : decode? bound (encode n) = some n := by
  have digits : (encode n).all Char.isDigit = true :=
    List.all_eq_true.mpr fun _ member => isDigit_of_mem_encode member
  have value : Nat.ofDigitChars 10 (encode n) 0 = n :=
    Nat.ofDigitChars_toDigits (by decide) (by decide)
  simp [decode?, encode_ne_nil, digits, value, small]

end SortedTables.Decimal
