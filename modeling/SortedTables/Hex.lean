import SortedTables.Bytes

/-!
# Hexadecimal text

Byte strings are shown as two hexadecimal digits a byte. Writing uses small letters; reading takes
digits of either case and refuses an odd count of them. `decode?_encode` is the round trip.
-/

namespace SortedTables.Hex

/-- The two digits of a byte. -/
def digits (byte : UInt8) : List Char :=
  [Nat.digitChar (byte.toNat / 16), Nat.digitChar (byte.toNat % 16)]

/-- A byte string as digits. -/
def encode (bytes : Bytes) : List Char :=
  bytes.flatMap digits

/-- The number a digit of either case stands for. -/
def value? (digit : Char) : Option Nat :=
  if '0' ≤ digit ∧ digit ≤ '9' then some (digit.toNat - '0'.toNat)
  else if 'a' ≤ digit ∧ digit ≤ 'f' then some (digit.toNat - 'a'.toNat + 10)
  else if 'A' ≤ digit ∧ digit ≤ 'F' then some (digit.toNat - 'A'.toNat + 10)
  else none

/-- The byte that two digits stand for. -/
def byte? (high low : Char) : Option UInt8 :=
  match value? high, value? low with
  | some high, some low => some (UInt8.ofNat (16 * high + low))
  | _, _ => none

/-- Reads pairs of digits behind the bytes read already, which are given the last one first. -/
def decodeAfter (read : Bytes) : List Char → Option Bytes
  | [] => some read.reverse
  | [_] => none
  | high :: low :: rest =>
    match byte? high low with
    | some byte => decodeAfter (byte :: read) rest
    | none => none

/-- The byte string that digits stand for. -/
def decode? (text : List Char) : Option Bytes :=
  decodeAfter [] text

/-- What was read already is carried along unchanged. -/
theorem decodeAfter_eq (read : Bytes) (text : List Char) :
    decodeAfter read text = (decode? text).map (read.reverse ++ ·) := by
  suffices general : ∀ (text : List Char) (early late : Bytes),
      decodeAfter (late ++ early) text = (decodeAfter late text).map (early.reverse ++ ·) by
    simpa [decode?] using general text read []
  intro text early late
  fun_induction decodeAfter late text with
  | case1 => simp [decodeAfter]
  | case2 => simp [decodeAfter]
  | case3 late high low rest byte found ih =>
    rw [decodeAfter, found]
    exact ih
  | case4 late high low rest found => rw [decodeAfter, found]; rfl

@[simp]
theorem decode?_nil : decode? [] = some [] := rfl

@[simp]
theorem decode?_singleton (digit : Char) : decode? [digit] = none := rfl

theorem decode?_cons_cons (high low : Char) (rest : List Char) :
    decode? (high :: low :: rest) =
      (byte? high low).bind fun byte => (decode? rest).map (byte :: ·) := by
  conv => lhs; rw [decode?, decodeAfter]
  cases byte? high low with
  | none => rfl
  | some byte => simp [decodeAfter_eq [byte]]

/-- The two digits of a byte stand for it. -/
theorem byte?_digits (byte : UInt8) :
    byte? (Nat.digitChar (byte.toNat / 16)) (Nat.digitChar (byte.toNat % 16)) = some byte := by
  have all : ∀ n : Fin 16, value? (Nat.digitChar n) = some n.val := by decide
  have bounded := byte.toNat_lt
  have high := all ⟨byte.toNat / 16, by omega⟩
  have low := all ⟨byte.toNat % 16, by omega⟩
  simp only at high low
  simp only [byte?, high, low, Nat.div_add_mod, UInt8.ofNat_toNat]

/-- Reading gives back what was written. -/
theorem decode?_encode (bytes : Bytes) : decode? (encode bytes) = some bytes := by
  induction bytes with
  | nil => rfl
  | cons byte rest ih =>
    have first : encode (byte :: rest) = Nat.digitChar (byte.toNat / 16) ::
        Nat.digitChar (byte.toNat % 16) :: encode rest := rfl
    rw [first, decode?_cons_cons, byte?_digits, ih]
    rfl

end SortedTables.Hex
