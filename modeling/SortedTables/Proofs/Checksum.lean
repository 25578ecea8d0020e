import SortedTables.Crc32

/-!
# What a checksum notices

A register that takes the same bytes from two states ends in two states, and so does one that takes
two bytes from the same state. The reason is that dividing out a bit loses nothing
(`Crc32.shift_injective`): the highest bit of the polynomial is set, so the highest bit of the register
afterwards is what the lowest one was before. Hence byte strings that differ in a single byte have
different checksums (`Crc32.checksum_set_ne`), whatever their length.
-/

namespace SortedTables.Crc32

/-- A bit of a register. -/
def bit (register : UInt32) (place : Nat) : Bool :=
  register.toBitVec.getLsbD place

/-- Registers with the same bits are the same. -/
theorem eq_of_bit_eq {left right : UInt32} (same : ∀ place, bit left place = bit right place) :
    left = right :=
  UInt32.toBitVec_inj.mp (BitVec.eq_of_getLsbD_eq fun place _ => same place)

/-- The test for the lowest bit. -/
theorem and_one_eq_one_iff (register : UInt32) : register &&& 1 = 1 ↔ bit register 0 = true := by
  have lowest : (register &&& 1).toBitVec = (BitVec.ofBool (bit register 0)).setWidth 32 := by
    rw [UInt32.toBitVec_and]
    exact BitVec.and_one_eq_setWidth_ofBool_getLsbD
  rw [← UInt32.toBitVec_inj, lowest]
  cases bit register 0 <;> decide

/-- Dividing out a bit moves the others down, and adds the polynomial if the bit is set. -/
theorem bit_shift (register : UInt32) (place : Nat) :
    bit (shift register) place =
      (bit register (place + 1) ^^ (bit register 0 && bit polynomial place)) := by
  have down : bit (register >>> 1) place = bit register (place + 1) := by
    simp [bit, Nat.add_comm]
  rw [shift]
  by_cases lowest : bit register 0 = true
  · have added : bit ((register >>> 1) ^^^ polynomial) place =
        (bit (register >>> 1) place ^^ bit polynomial place) := by
      simp [bit]
    rw [if_pos ((and_one_eq_one_iff register).mpr lowest), added, down, lowest, Bool.true_and]
  · rw [if_neg (mt (and_one_eq_one_iff register).mp lowest), down, Bool.eq_false_iff.mpr lowest,
      Bool.false_and, Bool.xor_false]

/-- Dividing out a bit loses nothing. -/
theorem shift_injective {left right : UInt32} (same : shift left = shift right) : left = right := by
  have bits (place : Nat) : (bit left (place + 1) ^^ (bit left 0 && bit polynomial place)) =
      (bit right (place + 1) ^^ (bit right 0 && bit polynomial place)) := by
    rw [← bit_shift, ← bit_shift, same]
  -- Nothing is moved into the highest bit, so it has the polynomial's if the lowest bit was set.
  have lowest : bit left 0 = bit right 0 := by
    have highest := bits 31
    have none (register : UInt32) : bit register 32 = false := BitVec.getLsbD_of_ge _ _ (by decide)
    have set : bit polynomial 31 = true := by decide
    simpa only [Nat.reduceAdd, none, set, Bool.false_xor, Bool.and_true] using highest
  apply eq_of_bit_eq
  intro place
  cases place with
  | zero => exact lowest
  | succ place =>
    have here := bits place
    rw [lowest] at here
    exact Bool.xor_left_inj.mp here

/-- Taking in a byte loses nothing of the register. -/
theorem feedByte_injective {left right : UInt32} {byte : UInt8}
    (same : feedByte left byte = feedByte right byte) : left = right := by
  unfold feedByte at same
  have mixed := shift_injective <| shift_injective <| shift_injective <| shift_injective <|
    shift_injective <| shift_injective <| shift_injective <| shift_injective same
  exact (UInt32.xor_left_inj _).mp mixed

/-- Taking in a byte loses nothing of the byte. -/
theorem feedByte_byte_injective {register : UInt32} {left right : UInt8}
    (same : feedByte register left = feedByte register right) : left = right := by
  unfold feedByte at same
  have mixed := shift_injective <| shift_injective <| shift_injective <| shift_injective <|
    shift_injective <| shift_injective <| shift_injective <| shift_injective same
  exact UInt8.toUInt32_inj.mp ((UInt32.xor_right_inj _).mp mixed)

/-- Taking in a byte string loses nothing of the register. -/
theorem feed_injective {left right : UInt32} {bytes : Bytes}
    (same : feed left bytes = feed right bytes) : left = right := by
  induction bytes generalizing left right with
  | nil => exact same
  | cons byte rest ih => exact feedByte_injective (ih same)

/-- Byte strings that differ in a single byte have different checksums. -/
theorem checksum_ne {front rest : Bytes} {left right : UInt8} (differs : left ≠ right) :
    checksum (front ++ left :: rest) ≠ checksum (front ++ right :: rest) := by
  intro same
  have fed : feed 0xFFFFFFFF (front ++ left :: rest) = feed 0xFFFFFFFF (front ++ right :: rest) :=
    UInt32.not_inj.mp same
  rw [feed_append, feed_append] at fed
  exact differs (feedByte_byte_injective (feed_injective fed))

/-- A byte string has another checksum when one of its bytes is overwritten with another one. -/
theorem checksum_set_ne {bytes : Bytes} {position : Nat} {old value : UInt8}
    (stood : bytes[position]? = some old) (differs : value ≠ old) :
    checksum (bytes.set position value) ≠ checksum bytes := by
  obtain ⟨inside, rfl⟩ := List.getElem?_eq_some_iff.mp stood
  have whole : bytes =
      bytes.take position ++ bytes[position] :: bytes.drop (position + 1) := by
    rw [← List.drop_eq_getElem_cons inside, List.take_append_drop]
  rw [List.set_eq_take_append_cons_drop, if_pos inside]
  conv => rhs; rw [whole]
  exact checksum_ne differs

end SortedTables.Crc32
