/-!
# Byte strings

Keys, values and file contents are lists of bytes. A number is stored in a fixed count of bytes, in
one of the two byte orders; `ofLittleEndian_littleEndian` and `ofBigEndian_bigEndian` say that it
reads back reduced to what the count can hold. `cut?` takes a given count of bytes off the front
and refuses when there are fewer, which is the only way the decoders of this library read.
-/

namespace SortedTables

/-- A byte string. -/
abbrev Bytes := List UInt8

namespace Bytes

/-- The lowest `width` bytes of a number, the least significant first. -/
def littleEndian : Nat → Nat → Bytes
  | 0, _ => []
  | width + 1, n => UInt8.ofNat n :: littleEndian width (n / 256)

/-- The number whose bytes are given, the least significant first. -/
def ofLittleEndian : Bytes → Nat
  | [] => 0
  | byte :: rest => byte.toNat + 256 * ofLittleEndian rest

/-- The lowest `width` bytes of a number, the most significant first. -/
def bigEndian (width n : Nat) : Bytes :=
  (littleEndian width n).reverse

/-- The number whose bytes are given, the most significant first. -/
def ofBigEndian (bytes : Bytes) : Nat :=
  ofLittleEndian bytes.reverse

/-- How many numbers a count of bytes can tell apart. -/
def capacity : Nat → Nat
  | 0 => 1
  | width + 1 => 256 * capacity width

/-- The first `count` bytes and what follows them, or `none` when there are fewer. -/
def cut? (count : Nat) (bytes : Bytes) : Option (Bytes × Bytes) :=
  let front := bytes.take count
  if front.length = count then some (front, bytes.drop count) else none

@[simp]
theorem length_littleEndian (width n : Nat) : (littleEndian width n).length = width := by
  induction width generalizing n with
  | zero => rfl
  | succ width ih => simp [littleEndian, ih]

@[simp]
theorem length_bigEndian (width n : Nat) : (bigEndian width n).length = width := by
  simp [bigEndian]

/-- A number reads back reduced to what `width` bytes can hold. -/
theorem ofLittleEndian_littleEndian (width n : Nat) :
    ofLittleEndian (littleEndian width n) = n % capacity width := by
  induction width generalizing n with
  | zero => simp [littleEndian, ofLittleEndian, capacity, Nat.mod_one]
  | succ width ih =>
    have byte : (UInt8.ofNat n).toNat = n % 256 := UInt8.toNat_ofNat'
    rw [littleEndian, ofLittleEndian, ih, byte, capacity, Nat.mod_mul]

/-- The reverse byte order loses no more than the plain one. -/
theorem ofBigEndian_bigEndian (width n : Nat) :
    ofBigEndian (bigEndian width n) = n % capacity width := by
  simp [ofBigEndian, bigEndian, ofLittleEndian_littleEndian]

/-- A byte string denotes one of the numbers that its length can tell apart. -/
theorem ofLittleEndian_lt (bytes : Bytes) : ofLittleEndian bytes < capacity bytes.length := by
  induction bytes with
  | nil => simp [ofLittleEndian, capacity]
  | cons byte rest ih =>
    have bounded := byte.toNat_lt
    simp only [ofLittleEndian, List.length_cons, capacity]
    omega

/-- Writing a number that was read in the same width gives the bytes it was read from. -/
theorem littleEndian_ofLittleEndian (bytes : Bytes) :
    littleEndian bytes.length (ofLittleEndian bytes) = bytes := by
  induction bytes with
  | nil => rfl
  | cons byte rest ih =>
    have bounded := byte.toNat_lt
    have low : UInt8.ofNat (byte.toNat + 256 * ofLittleEndian rest) = byte := by
      apply UInt8.toNat_inj.mp
      rw [UInt8.toNat_ofNat']
      omega
    have high : (byte.toNat + 256 * ofLittleEndian rest) / 256 = ofLittleEndian rest := by
      omega
    simp only [List.length_cons, ofLittleEndian, littleEndian, low, high, ih]

/-- A cut gives the whole string back in two pieces, the first of the length asked for. -/
theorem cut?_eq_some_iff {count : Nat} {bytes front rest : Bytes} :
    cut? count bytes = some (front, rest) ↔ bytes = front ++ rest ∧ front.length = count := by
  simp only [cut?]
  constructor
  · intro accepted
    split at accepted
    · next enough =>
      cases accepted
      exact ⟨(List.take_append_drop count bytes).symm, enough⟩
    · cases accepted
  · rintro ⟨rfl, rfl⟩
    simp

/-- A cut is refused exactly when too few bytes are there. -/
theorem cut?_eq_none_iff {count : Nat} {bytes : Bytes} :
    cut? count bytes = none ↔ bytes.length < count := by
  simp only [cut?, List.length_take, ite_eq_right_iff, reduceCtorEq, imp_false]
  omega

end Bytes

end SortedTables
