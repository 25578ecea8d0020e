import SortedTables.Bytes

/-!
# Accesses that can be out of range

A reader that follows positions and lengths stated in the bytes it reads can ask for bytes that are not
there. An access is written as an `Option` here: it gives `none` where it is out of range, and a
program that makes such an access has no outcome at all. A fault that a reader reports is an outcome.

The modules beside this one read a table by such accesses, taking a check only where the reader takes
one. For each of them it is proved that it has an outcome, whatever the bytes are, and that the
outcome is what the functions of the library say.
-/

namespace SortedTables

/-- A cut succeeds if there are enough bytes. -/
theorem Bytes.cut?_of_le {count : Nat} {bytes : Bytes} (enough : count ≤ bytes.length) :
    cut? count bytes = some (bytes.take count, bytes.drop count) :=
  cut?_eq_some_iff.mpr ⟨(List.take_append_drop count bytes).symm, List.length_take_of_le enough⟩

namespace Unchecked

variable {bytes : Bytes} {count : Nat}

/-- The first bytes. -/
def front? (count : Nat) (bytes : Bytes) : Option Bytes :=
  (Bytes.cut? count bytes).map Prod.fst

/-- The bytes behind a position. -/
def behind? (position : Nat) (bytes : Bytes) : Option Bytes :=
  (Bytes.cut? position bytes).map Prod.snd

/-- The bytes between two positions. -/
def between? (start stop : Nat) (bytes : Bytes) : Option Bytes :=
  (front? stop bytes).bind (behind? start)

/-- The number in the first bytes, the least significant first, and the bytes behind it. -/
def little? (width : Nat) (bytes : Bytes) : Option (Nat × Bytes) :=
  (Bytes.cut? width bytes).map fun (front, rest) => (Bytes.ofLittleEndian front, rest)

/-- The number in the first bytes, the most significant first, and the bytes behind it. -/
def big? (width : Nat) (bytes : Bytes) : Option (Nat × Bytes) :=
  (Bytes.cut? width bytes).map fun (front, rest) => (Bytes.ofBigEndian front, rest)

/-- The first byte, and the bytes behind it. -/
def byte? : Bytes → Option (UInt8 × Bytes)
  | [] => none
  | byte :: rest => some (byte, rest)

/-- The difference of two sizes. -/
def minus? (whole part : Nat) : Option Nat :=
  if part ≤ whole then some (whole - part) else none

theorem front?_eq (enough : count ≤ bytes.length) :
    front? count bytes = some (bytes.take count) := by
  rw [front?, Bytes.cut?_of_le enough]
  rfl

theorem behind?_eq (enough : count ≤ bytes.length) :
    behind? count bytes = some (bytes.drop count) := by
  rw [behind?, Bytes.cut?_of_le enough]
  rfl

theorem between?_eq {start stop : Nat} (ordered : start ≤ stop) (enough : stop ≤ bytes.length) :
    between? start stop bytes = some ((bytes.take stop).drop start) := by
  have inside : start ≤ (bytes.take stop).length := by rwa [List.length_take_of_le enough]
  rw [between?, front?_eq enough, Option.bind_some, behind?_eq inside]

theorem little?_eq (enough : count ≤ bytes.length) :
    little? count bytes = some (Bytes.ofLittleEndian (bytes.take count), bytes.drop count) := by
  rw [little?, Bytes.cut?_of_le enough]
  rfl

theorem big?_eq (enough : count ≤ bytes.length) :
    big? count bytes = some (Bytes.ofBigEndian (bytes.take count), bytes.drop count) := by
  rw [big?, Bytes.cut?_of_le enough]
  rfl

theorem byte?_eq (enough : 1 ≤ bytes.length) :
    byte? bytes = some (bytes.headD 0, bytes.drop 1) := by
  cases bytes with
  | nil => cases enough
  | cons byte rest => rfl

theorem minus?_eq {whole part : Nat} (enough : part ≤ whole) :
    minus? whole part = some (whole - part) :=
  if_pos enough

/-- Bytes at the start of what is left of a byte string, by their place in all of it. -/
theorem between?_of_suffix {bytes rest : Bytes} {count : Nat} (suffix : rest <:+ bytes)
    (room : count ≤ rest.length) :
    between? (bytes.length - rest.length) (bytes.length - rest.length + count) bytes =
      some (rest.take count) := by
  obtain ⟨front, rfl⟩ := suffix
  rw [List.length_append, Nat.add_sub_cancel]
  rw [between?_eq (Nat.le_add_right _ _) (by rw [List.length_append]; omega),
    List.take_length_add_append, List.drop_left]

end Unchecked

end SortedTables
