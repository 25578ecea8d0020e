import Mathlib.Data.List.Forall2
import SortedTables.Block.Format

/-!
# What a record that was read consists of

Reading a block succeeds only if there is a whole record at each position. For whoever reads such a
block again, the lemmas here say what has been found out: where a record has its parts, that none of
them is cut off, and what the entry has from each.
-/

namespace SortedTables

/-- Where a function succeeds on all elements, the results belong to the elements one by one. -/
theorem forall₂_of_mapM {α β ε : Type} {f : α → Except ε β} {elements : List α} {results : List β}
    (maps : elements.mapM f = .ok results) :
    List.Forall₂ (fun element result => f element = .ok result) elements results := by
  induction elements generalizing results with
  | nil =>
    cases maps
    exact .nil
  | cons first later ih =>
    rw [List.mapM_cons] at maps
    cases here : f first with
    | error fault =>
      rw [here] at maps
      cases maps
    | ok result =>
      cases rest : later.mapM f with
      | error fault =>
        rw [here, rest] at maps
        cases maps
      | ok others =>
        rw [here, rest] at maps
        cases maps
        exact .cons here (ih rest)

namespace Block

/-- The part of a record behind its key: header and value are whole, and the entry has its fields from
there. -/
structure Tail (bytes : Bytes) (entry : Entry) : Prop where
  /-- Sequence number, kind and the length of the value are there. -/
  header : 11 ≤ bytes.length
  /-- The sequence number comes first. -/
  seq : entry.seq = UInt64.ofNat (Bytes.ofLittleEndian (bytes.take 8))
  /-- The kind comes behind it. -/
  kind : EntryKind.ofByte? ((bytes.drop 8).headD 0) = some entry.kind
  /-- The value is there. -/
  room : Bytes.ofLittleEndian ((bytes.drop 9).take 2) ≤ (bytes.drop 11).length
  /-- The value comes behind its length. -/
  value : entry.value = (bytes.drop 11).take (Bytes.ofLittleEndian ((bytes.drop 9).take 2))

/-- What was read behind a key is a whole part of a record. -/
theorem tail_of_decodeTail {key : Key} {bytes : Bytes} {entry : Entry}
    (read : decodeTail key bytes = .ok entry) : entry.key = key ∧ Tail bytes entry := by
  unfold decodeTail at read
  split at read
  · cases read
  · next header rest cut =>
    have enough : 11 ≤ bytes.length := by
      by_contra short
      cases cut.symm.trans (Bytes.cut?_eq_none_iff.mpr (Nat.lt_of_not_le short))
    obtain ⟨rfl, length⟩ := Bytes.cut?_eq_some_iff.mp cut
    dsimp only at read
    split at read
    · cases read
    · next kind known =>
      split at read
      · cases read
      · next value later valueCut =>
        obtain ⟨rfl, valueLength⟩ := Bytes.cut?_eq_some_iff.mp valueCut
        cases read
        have eight : (header ++ (value ++ later)).take 8 = header.take 8 := by
          rw [List.take_append_of_le_length (by omega)]
        have nine : ((header ++ (value ++ later)).drop 9).take 2 = header.drop 9 := by
          rw [List.drop_append_of_le_length (by omega),
            List.take_left' (by rw [List.length_drop]; omega)]
        have byte : ((header ++ (value ++ later)).drop 8).headD 0 = (header.drop 8).headD 0 := by
          rw [List.drop_append_of_le_length (by omega)]
          cases isHead : header.drop 8 with
          | nil =>
            have none := congrArg List.length isHead
            rw [List.length_drop, List.length_nil] at none
            omega
          | cons byte _ => rfl
        have behind : (header ++ (value ++ later)).drop 11 = value ++ later := by
          rw [List.drop_left' length]
        refine ⟨rfl, enough, by rw [eight], by rw [byte]; exact known, ?_, ?_⟩
        · rw [nine, behind, List.length_append, valueLength]
          exact Nat.le_add_right _ _
        · rw [nine, behind, List.take_left' valueLength]

/-- A key that shares bytes with another one: its header is whole, the other key has the bytes, and the
header accounts for the rest. -/
theorem sharing_of_decodeKey {first : Key} {body : Bytes} {stored : StoredKey}
    (read : decodeKey (some first) body = .ok stored) :
    Bytes.ofLittleEndian (body.take 2) ≤ first.size ∧
      4 + Bytes.ofLittleEndian ((body.drop 2).take 2) = body.length ∧
      stored = .sharing (Bytes.ofLittleEndian (body.take 2)) (body.drop 4) := by
  unfold decodeKey at read
  dsimp only at read
  split at read
  · cases read
  · next header rest cut =>
    obtain ⟨rfl, four⟩ := Bytes.cut?_eq_some_iff.mp cut
    have count : (header ++ rest).take 2 = header.take 2 :=
      List.take_append_of_le_length (by omega)
    have restLength : ((header ++ rest).drop 2).take 2 = header.drop 2 := by
      rw [List.drop_append_of_le_length (by omega),
        List.take_left' (by rw [List.length_drop]; omega)]
    split at read
    · next fits =>
      cases read
      rw [count, restLength, List.drop_left' four, List.length_append, four, fits.2]
      exact ⟨fits.1, rfl, rfl⟩
    · cases read

/-- A record: all its parts are whole, and the entry has its fields from there. -/
structure Whole (first? : Option Key) (bytes : Bytes) (entry : Entry) : Prop where
  /-- The length of the key is there. -/
  length : 2 ≤ bytes.length
  /-- The key is there. -/
  room : Bytes.ofLittleEndian (bytes.take 2) ≤ (bytes.drop 2).length
  /-- The key comes behind its length. -/
  key : ∃ stored,
    decodeKey first? ((bytes.drop 2).take (Bytes.ofLittleEndian (bytes.take 2))) = .ok stored ∧
      entry.key = stored.key (first?.getD .empty)
  /-- The other fields come behind the key. -/
  tail : Tail ((bytes.drop 2).drop (Bytes.ofLittleEndian (bytes.take 2))) entry

/-- What was read from the start of a byte string is a whole record. -/
theorem whole_of_decodeRecord {first? : Option Key} {bytes : Bytes} {entry : Entry}
    (read : decodeRecord first? bytes = .ok entry) : Whole first? bytes entry := by
  unfold decodeRecord at read
  split at read
  · cases read
  · next length rest cut =>
    have two : 2 ≤ bytes.length := by
      by_contra short
      cases cut.symm.trans (Bytes.cut?_eq_none_iff.mpr (Nat.lt_of_not_le short))
    obtain ⟨rfl, lengthSize⟩ := Bytes.cut?_eq_some_iff.mp cut
    have isLength : (length ++ rest).take 2 = length := List.take_left' lengthSize
    have isRest : (length ++ rest).drop 2 = rest := List.drop_left' lengthSize
    split at read
    · cases read
    · next body tail bodyCut =>
      obtain ⟨rfl, bodyLength⟩ := Bytes.cut?_eq_some_iff.mp bodyCut
      split at read
      · cases read
      · next stored decoded =>
        obtain ⟨key, isTail⟩ := tail_of_decodeTail read
        refine ⟨two, ?_, ⟨stored, ?_, key⟩, ?_⟩
        · rw [isLength, isRest, List.length_append, bodyLength]
          exact Nat.le_add_right _ _
        · rw [isLength, isRest, List.take_left' bodyLength]
          exact decoded
        · rw [isLength, isRest, List.drop_left' bodyLength]
          exact isTail

/-- What was read at a position is a whole record there. -/
theorem whole_of_decodeAt {records : Bytes} {first? : Option Key} {position : UInt16} {entry : Entry}
    (read : decodeAt (.ofBytes records) first? position = .ok entry) :
    Whole first? (records.drop position.toNat) entry := by
  unfold decodeAt at read
  dsimp only at read
  split at read
  · cases read
  · rw [ByteStore.startingAt_eq_drop] at read
    exact whole_of_decodeRecord read

/-- In a block that was read there is a whole record at each position. All but the first one share
bytes with the key of the first one. -/
theorem whole_of_read {block : Block} {entries : List Entry} {index : Nat} {entry : Entry}
    (read : block.read = .ok entries) (found : entries[index]? = some entry) :
    ∃ position, block.positions[index]? = some position ∧
      Whole (if index = 0 then none else entries.head?.map Entry.key)
        (block.records.drop position.toNat) entry := by
  unfold Block.read at read
  dsimp only at read
  split at read
  · cases read
    cases found
  · next position later positions =>
    rw [positions]
    split at read
    · cases read
    · next first readFirst =>
      simp only [bind, Except.bind] at read
      split at read
      · cases read
      · next rest maps =>
        cases read
        cases index with
        | zero =>
          cases found
          exact ⟨position, rfl, whole_of_decodeAt readFirst⟩
        | succ index =>
          rw [List.getElem?_cons_succ] at found
          have reads := forall₂_of_mapM maps
          have inside := (List.getElem?_eq_some_iff.mp found).1
          have counted : index < (later.zipIdx 1).length := by rwa [reads.length_eq]
          have here := reads.get counted inside
          rw [List.length_zipIdx] at counted
          refine ⟨later[index], ?_, ?_⟩
          · rw [List.getElem?_cons_succ, List.getElem?_eq_getElem counted]
          · obtain ⟨_, isEntry⟩ := List.getElem?_eq_some_iff.mp found
            simp only [List.get_eq_getElem, List.getElem_zipIdx, isEntry] at here
            cases decoded : decodeAt (.ofBytes block.records) (some first.key) later[index] with
            | error fault => simp [decoded, Except.mapError] at here
            | ok other =>
              simp only [decoded, Except.mapError, Except.ok.injEq] at here
              subst here
              exact whole_of_decodeAt decoded

end Block

end SortedTables
