import SortedTables.Bytes

/-!
# Byte strings that are read from any position

Files and blocks are read at positions that their own contents name, in any order and any number of
times. A byte store keeps what follows each position of a byte string next to the string, so that
such a reading does not pass over everything before it. That the two agree is part of the type:
`startingAt_eq_drop` is all that there is to know about a store.
-/

namespace SortedTables

/-- Adds what follows each position of a byte string to a list of such. -/
def Bytes.pushSuffixes (suffixes : Array Bytes) : Bytes → Array Bytes
  | [] => suffixes
  | byte :: rest => pushSuffixes (suffixes.push (byte :: rest)) rest

theorem Bytes.getD_pushSuffixes (suffixes : Array Bytes) (bytes : Bytes) (position : Nat) :
    (pushSuffixes suffixes bytes)[position]?.getD [] =
      if position < suffixes.size then suffixes[position]?.getD []
      else bytes.drop (position - suffixes.size) := by
  induction bytes generalizing suffixes with
  | nil =>
    split
    · rfl
    · next behind => simp [pushSuffixes, Nat.le_of_not_lt behind]
  | cons byte rest ih =>
    rw [pushSuffixes, ih, Array.size_push, Array.getElem?_push]
    rcases Nat.lt_trichotomy position suffixes.size with before | here | after
    · rw [if_pos (Nat.lt_succ_of_lt before), if_neg (Nat.ne_of_lt before), if_pos before]
    · simp [here]
    · obtain ⟨distance, rfl⟩ := Nat.exists_eq_add_of_lt after
      have outside : ¬ suffixes.size + distance + 1 < suffixes.size + 1 := by omega
      have behind : ¬ suffixes.size + distance + 1 < suffixes.size := by omega
      have one : suffixes.size + distance + 1 - suffixes.size = distance + 1 := by omega
      have none : suffixes.size + distance + 1 - (suffixes.size + 1) = distance := by omega
      rw [if_neg outside, if_neg behind, one, none, List.drop_succ_cons]

/-- A byte string with what follows each of its positions. -/
structure ByteStore where
  /-- The byte string. -/
  bytes : Bytes
  /-- What follows each position. -/
  suffixes : Array Bytes
  /-- Every suffix stands at its position, and there is nothing behind the last one. -/
  getD_suffixes : ∀ position, suffixes[position]?.getD [] = bytes.drop position

namespace ByteStore

/-- The store of a byte string. -/
def ofBytes (bytes : Bytes) : ByteStore where
  bytes
  suffixes := Bytes.pushSuffixes #[] bytes
  getD_suffixes position := by
    rw [Bytes.getD_pushSuffixes]
    simp

/-- What follows a position. -/
def startingAt (store : ByteStore) (position : Nat) : Bytes :=
  store.suffixes[position]?.getD []

@[simp]
theorem startingAt_eq_drop (store : ByteStore) (position : Nat) :
    store.startingAt position = store.bytes.drop position :=
  store.getD_suffixes position

@[simp]
theorem bytes_ofBytes (bytes : Bytes) : (ofBytes bytes).bytes = bytes := rfl

end ByteStore

end SortedTables
