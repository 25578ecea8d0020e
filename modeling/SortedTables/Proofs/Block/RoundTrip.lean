import SortedTables.Block.Builder

/-!
# A stored block reads back

`decode_encode_ofEntries` says that the stored form of a block is accepted and holds the entries it
was laid out from. Two things limit which entries a block can hold: lengths and positions have two
bytes each. `Block.Storable` states both limits; that a filled block keeps them is shown where
filling is treated.

The round trip is built from the inside: a record reads back whatever follows it, so every position
that a record starts at leads to its entry.

The converse needs no limits. What is accepted as a block was cut into records and positions without a
rest, and putting them together again gives the same bytes (`decode_eq_ok_iff`).
-/

namespace SortedTables

/-- Pieces that are put one behind the other, around one of them. -/
theorem flatten_eq_of_getElem? {α : Type} {pieces : List (List α)} {index : Nat} {piece : List α}
    (found : pieces[index]? = some piece) :
    pieces.flatten =
      (pieces.take index).flatten ++ (piece ++ (pieces.drop (index + 1)).flatten) := by
  obtain ⟨inside, rfl⟩ := List.getElem?_eq_some_iff.mp found
  rw [← List.flatten_cons, ← List.drop_eq_getElem_cons inside, ← List.flatten_append,
    List.take_append_drop]

namespace Bytes

/-- A piece of known length is cut off the front of whatever follows it. -/
theorem cut?_append (count : Nat) (front rest : Bytes) (size : front.length = count) :
    cut? count (front ++ rest) = some (front, rest) :=
  cut?_eq_some_iff.mpr ⟨rfl, size⟩

/-- A number that its bytes can hold reads back. -/
theorem ofLittleEndian_of_lt {width n : Nat} (small : n < capacity width) :
    ofLittleEndian (littleEndian width n) = n := by
  rw [ofLittleEndian_littleEndian, Nat.mod_eq_of_lt small]

/-- A number that its bytes can hold reads back in the other byte order. -/
theorem ofBigEndian_of_lt {width n : Nat} (small : n < capacity width) :
    ofBigEndian (bigEndian width n) = n := by
  rw [ofBigEndian_bigEndian, Nat.mod_eq_of_lt small]

/-- Bytes of the given count are written for the number that they stand for. -/
theorem littleEndian_of_length {width : Nat} {bytes : Bytes} (length : bytes.length = width) :
    littleEndian width (ofLittleEndian bytes) = bytes := by
  rw [← length, littleEndian_ofLittleEndian]

/-- Bytes of the given count are written in the other byte order for the number that they stand for. -/
theorem bigEndian_of_length {width : Nat} {bytes : Bytes} (length : bytes.length = width) :
    bigEndian width (ofBigEndian bytes) = bytes := by
  have reversed : bytes.reverse.length = width := by rw [List.length_reverse, length]
  rw [bigEndian, ofBigEndian, littleEndian_of_length reversed, List.reverse_reverse]

/-- Bytes of the given count stand for a number that the count can hold. -/
theorem ofLittleEndian_lt_capacity {width : Nat} {bytes : Bytes} (length : bytes.length = width) :
    ofLittleEndian bytes < capacity width :=
  length ▸ ofLittleEndian_lt bytes

/-- Bytes of the given count stand in the other byte order for a number that the count can hold. -/
theorem ofBigEndian_lt_capacity {width : Nat} {bytes : Bytes} (length : bytes.length = width) :
    ofBigEndian bytes < capacity width :=
  ofLittleEndian_lt_capacity (by rw [List.length_reverse, length])

end Bytes

namespace Key

/-- The bytes that two keys share are the first ones of both. -/
theorem take_sharedLength (left right : Key) :
    left.bytes.take (left.sharedLength right) = right.bytes.take (left.sharedLength right) := by
  suffices general : ∀ a b : Bytes,
      a.take ((a.zip b).takeWhile fun pair => pair.1 == pair.2).length =
        b.take ((a.zip b).takeWhile fun pair => pair.1 == pair.2).length from general _ _
  intro a
  induction a with
  | nil => simp
  | cons x a ih =>
    intro b
    cases b with
    | nil => simp
    | cons y b =>
      by_cases same : x = y
      · simpa [same] using ih b
      · simp [same]

/-- No more bytes are shared than either key has. -/
theorem sharedLength_le (left right : Key) :
    left.sharedLength right ≤ left.size ∧ left.sharedLength right ≤ right.size := by
  have shorter := (List.takeWhile_sublist (l := left.bytes.zip right.bytes)
    fun pair => pair.1 == pair.2).length_le
  rw [List.length_zip] at shorter
  simp only [sharedLength, size]
  omega

end Key

/-- The lengths of key and value are those that a record can state. -/
structure Entry.Fits (entry : Entry) : Prop where
  /-- The key is not longer than the longest one. -/
  key : entry.key.size ≤ maxKeySize
  /-- The value is not longer than the longest one. -/
  value : entry.value.length ≤ maxValueSize

namespace StoredKey

/-- The length that a record states for its key is that of the stored form. -/
theorem length_body (stored : StoredKey) : stored.body.length = stored.bodyLength := by
  cases stored <;> simp [body, bodyLength]
  omega

/-- The stored form of a key that fits is short enough to be stated. -/
theorem bodyLength_lt {first? : Option Key} {key : Key} (fits : key.size ≤ maxKeySize) :
    (ofKey first? key).bodyLength < Bytes.capacity 2 := by
  have capacity : Bytes.capacity 2 = 65536 := rfl
  simp only [Key.size, maxKeySize] at fits
  cases first? <;> simp only [ofKey, bodyLength, List.length_drop] <;> omega

/-- What is stored of a key stands for the key. -/
theorem key_ofKey (first? : Option Key) (key : Key) :
    (ofKey first? key).key (first?.getD .empty) = key := by
  cases first? with
  | none => rfl
  | some first =>
    have whole := List.take_append_drop (first.sharedLength key) key.bytes
    simp only [ofKey, StoredKey.key, Option.getD_some, Key.take_sharedLength, whole]

end StoredKey

namespace Block

/-- A stored key reads back. -/
theorem decodeKey_body {first? : Option Key} {key : Key} (fits : key.size ≤ maxKeySize) :
    decodeKey first? (StoredKey.ofKey first? key).body = .ok (StoredKey.ofKey first? key) := by
  cases first? with
  | none => rfl
  | some first =>
    have capacity : Bytes.capacity 2 = 65536 := rfl
    obtain ⟨withinFirst, withinKey⟩ := Key.sharedLength_le first key
    simp only [maxKeySize] at fits
    have count : Bytes.ofLittleEndian (Bytes.littleEndian 2 (first.sharedLength key)) =
        first.sharedLength key := Bytes.ofLittleEndian_of_lt (by omega)
    have rest : Bytes.ofLittleEndian
        (Bytes.littleEndian 2 (key.bytes.drop (first.sharedLength key)).length) =
          (key.bytes.drop (first.sharedLength key)).length := by
      apply Bytes.ofLittleEndian_of_lt
      simp only [Key.size] at fits
      rw [List.length_drop]
      omega
    have header := Bytes.cut?_append 4
      (Bytes.littleEndian 2 (first.sharedLength key) ++
        Bytes.littleEndian 2 (key.bytes.drop (first.sharedLength key)).length)
      (key.bytes.drop (first.sharedLength key)) (by simp)
    simp only [StoredKey.ofKey, StoredKey.body, decodeKey, header,
      List.take_left' (Bytes.length_littleEndian 2 _),
      List.drop_left' (Bytes.length_littleEndian 2 _), count, rest, withinFirst, true_and, if_true]

/-- The part of a record behind its key reads back, whatever follows it. -/
theorem decodeTail_encodeTail {entry : Entry} (fits : entry.value.length ≤ maxValueSize)
    (rest : Bytes) : decodeTail entry.key (encodeTail entry ++ rest) = .ok entry := by
  have capacity : Bytes.capacity 2 = 65536 := rfl
  have size : Bytes.ofLittleEndian (Bytes.littleEndian 2 entry.value.length) =
      entry.value.length := by
    apply Bytes.ofLittleEndian_of_lt
    simp only [maxValueSize] at fits
    omega
  have seq : Bytes.ofLittleEndian (Bytes.littleEndian 8 entry.seq.toNat) = entry.seq.toNat :=
    Bytes.ofLittleEndian_of_lt entry.seq.toNat_lt
  have header := Bytes.cut?_append 11
    (Bytes.littleEndian 8 entry.seq.toNat ++
      entry.kind.toByte :: Bytes.littleEndian 2 entry.value.length)
    (entry.value ++ rest) (by simp)
  have value := Bytes.cut?_append entry.value.length entry.value rest rfl
  have kind : EntryKind.ofByte? entry.kind.toByte = some entry.kind :=
    EntryKind.ofByte?_eq_some_iff.mpr rfl
  have whole : encodeTail entry ++ rest =
      (Bytes.littleEndian 8 entry.seq.toNat ++
        entry.kind.toByte :: Bytes.littleEndian 2 entry.value.length) ++ (entry.value ++ rest) := by
    simp [encodeTail]
  have behind : (Bytes.littleEndian 8 entry.seq.toNat ++
      entry.kind.toByte :: Bytes.littleEndian 2 entry.value.length).drop 9 =
        Bytes.littleEndian 2 entry.value.length := by
    rw [List.drop_append]
    simp
  rw [whole, decodeTail]
  simp only [header, List.take_left' (Bytes.length_littleEndian 8 _),
    List.drop_left' (Bytes.length_littleEndian 8 _), List.headD_cons, kind, behind, size, value,
    seq, UInt64.ofNat_toNat]

/-- A record reads back, whatever follows it. -/
theorem decodeRecord_encodeRecord {first? : Option Key} {entry : Entry} (fits : entry.Fits)
    (rest : Bytes) : decodeRecord first? (encodeRecord first? entry ++ rest) = .ok entry := by
  have length := Bytes.cut?_append 2
    (Bytes.littleEndian 2 (StoredKey.ofKey first? entry.key).bodyLength)
    ((StoredKey.ofKey first? entry.key).body ++ (encodeTail entry ++ rest)) (by simp)
  have body := Bytes.cut?_append _ _ (encodeTail entry ++ rest)
    (StoredKey.length_body (StoredKey.ofKey first? entry.key))
  have whole : encodeRecord first? entry ++ rest =
      Bytes.littleEndian 2 (StoredKey.ofKey first? entry.key).bodyLength ++
        ((StoredKey.ofKey first? entry.key).body ++ (encodeTail entry ++ rest)) := by
    simp [encodeRecord]
  rw [whole, decodeRecord]
  simp only [length, Bytes.ofLittleEndian_of_lt (StoredKey.bodyLength_lt fits.key), body,
    decodeKey_body fits.key, StoredKey.key_ofKey, decodeTail_encodeTail fits.value]

/-- A record has the length that filling a block counts for it. -/
theorem length_encodeRecord (first? : Option Key) (entry : Entry) :
    (encodeRecord first? entry).length = recordLength first? entry := by
  simp [encodeRecord, recordLength, encodeTail, StoredKey.length_body]
  omega

/-- Every piece starts at a position that two bytes can state, when pieces are put one behind the
other from a position on. -/
def Addressable : Nat → List Bytes → Prop
  | _, [] => True
  | start, piece :: rest => start < 65536 ∧ Addressable (start + piece.length) rest

/-- What a block can hold: lengths and positions have two bytes each. -/
structure Storable (entries : List Entry) : Prop where
  /-- Every record can state the lengths of its key and value. -/
  fits : ∀ entry ∈ entries, entry.Fits
  /-- Every record starts where a position can say. -/
  addressable : Addressable 0 (recordsOf entries)

/-- The position of a record leads to its entry, whatever stands before and behind the record. -/
theorem decodeAt_encodeRecord {records : ByteStore} (front : Bytes) {rest : Bytes}
    {first? : Option Key} {entry : Entry} (fits : entry.Fits) (addressable : front.length < 65536)
    (stored : records.bytes = front ++ (encodeRecord first? entry ++ rest)) :
    decodeAt records first? (UInt16.ofNat front.length) = .ok entry := by
  have position : (UInt16.ofNat front.length).toNat = front.length := by
    rw [UInt16.toNat_ofNat']
    exact Nat.mod_eq_of_lt addressable
  have inside : (encodeRecord first? entry ++ rest).isEmpty = false := by
    simp [encodeRecord, Bytes.littleEndian]
  simp only [decodeAt, ByteStore.startingAt_eq_drop, position, stored, List.drop_left, inside,
    Bool.false_and, Bool.false_eq_true, if_false, decodeRecord_encodeRecord fits]

/-- The positions of the records behind the first one lead to their entries in order. -/
theorem mapM_decodeAt {records : ByteStore} {first : Key} {entries : List Entry}
    (front : Bytes) (index : Nat) (fits : ∀ entry ∈ entries, entry.Fits)
    (addressable : Addressable front.length (entries.map (encodeRecord (some first))))
    (stored : records.bytes = front ++ (entries.map (encodeRecord (some first))).flatten) :
    ((positionsFrom front.length (entries.map (encodeRecord (some first)))).zipIdx index).mapM
      (fun (position, index) =>
        (decodeAt records (some first) position).mapError (BlockFault.entry index)) =
      .ok entries := by
  induction entries generalizing front index with
  | nil => rfl
  | cons entry later ih =>
    simp only [List.map_cons, List.flatten_cons] at addressable stored
    obtain ⟨starts, addressable⟩ := addressable
    have here := decodeAt_encodeRecord front (fits entry List.mem_cons_self) starts stored
    have behind := ih (front ++ encodeRecord (some first) entry) (index + 1)
      (fun entry member => fits entry (List.mem_cons_of_mem _ member))
      (by rw [List.length_append]; exact addressable)
      (by rw [stored, List.append_assoc])
    rw [List.length_append] at behind
    have isRead : (decodeAt records (some first) (UInt16.ofNat front.length)).mapError
        (BlockFault.entry index) = .ok entry := by
      rw [here]
      rfl
    simp only [List.map_cons, positionsFrom, List.zipIdx_cons, List.mapM_cons, isRead, bind,
      Except.bind] at behind ⊢
    rw [behind]
    rfl

/-- The records of storable entries are read back from the block laid out from them. -/
theorem read_ofEntries {entries : List Entry} (storable : Storable entries) :
    (ofEntries entries).read = .ok entries := by
  cases entries with
  | nil => rfl
  | cons first later =>
    obtain ⟨fits, starts, addressable⟩ := storable
    have stored : (ByteStore.ofBytes (ofEntries (first :: later)).records).bytes =
        encodeRecord none first ++ (later.map (encodeRecord (some first.key))).flatten := by
      simp [ofEntries, recordsOf]
    have here := decodeAt_encodeRecord [] (fits first List.mem_cons_self) starts stored
    rw [Nat.zero_add] at addressable
    have behind := mapM_decodeAt (encodeRecord none first) 1
      (fun entry member => fits entry (List.mem_cons_of_mem _ member)) addressable stored
    have positions : (ofEntries (first :: later)).positions =
        UInt16.ofNat 0 :: positionsFrom (encodeRecord none first).length
          (later.map (encodeRecord (some first.key))) := by
      simp [ofEntries, recordsOf, positionsFrom]
    rw [read]
    simp only [positions]
    simp only [List.length_nil] at here
    simp only [here, bind, Except.bind, behind]
    rfl

/-- Positions read back from their two bytes each. -/
theorem decodePositions_flatMap (positions : List UInt16) :
    decodePositions (positions.flatMap fun position => Bytes.littleEndian 2 position.toNat) =
      positions := by
  induction positions with
  | nil => rfl
  | cons position later ih =>
    have whole : Bytes.ofLittleEndian (Bytes.littleEndian 2 position.toNat) = position.toNat :=
      Bytes.ofLittleEndian_of_lt position.toNat_lt
    simp only [Bytes.littleEndian] at whole ih
    simp only [List.flatMap_cons, Bytes.littleEndian, List.cons_append, List.nil_append,
      decodePositions, whole, UInt16.ofNat_toNat, ih]

/-- There is one position for each piece. -/
theorem length_positionsFrom (start : Nat) (pieces : List Bytes) :
    (positionsFrom start pieces).length = pieces.length := by
  induction pieces generalizing start with
  | nil => rfl
  | cons piece later ih => simp [positionsFrom, ih]

/-- Positions take two bytes each. -/
theorem length_flatMap_positions (positions : List UInt16) :
    (positions.flatMap fun position => Bytes.littleEndian 2 position.toNat).length =
      2 * positions.length := by
  induction positions with
  | nil => rfl
  | cons position later ih =>
    simp only [List.flatMap_cons, List.length_append, Bytes.length_littleEndian, ih,
      List.length_cons]
    omega

/-- The stored form of a block has two bytes for each position and for their number. -/
theorem length_encode (block : Block) :
    block.encode.length = block.records.length + 2 * block.positions.length + 2 := by
  simp only [encode, List.length_append, length_flatMap_positions, Bytes.length_littleEndian]

/-- The stored form of a block splits into its records and positions, if their number can be
stated. -/
theorem split_encode {block : Block} (few : block.positions.length < 65536) :
    split block.encode = .ok block := by
  have capacity : Bytes.capacity 2 = 65536 := rfl
  have stated : Bytes.ofLittleEndian (Bytes.littleEndian 2 block.positions.length) =
      block.positions.length := Bytes.ofLittleEndian_of_lt (by omega)
  have positions := length_flatMap_positions block.positions
  have length := length_encode block
  have number : block.encode.drop (block.encode.length - 2) =
      Bytes.littleEndian 2 block.positions.length := by
    apply List.drop_left'
    simp only [length, List.length_append, positions]
    omega
  have start : block.encode.length - 2 - 2 * block.positions.length = block.records.length := by
    omega
  have records : block.encode.take block.records.length = block.records := by
    rw [encode, List.append_assoc, List.take_left]
  have middle : (block.encode.drop block.records.length).take (2 * block.positions.length) =
      block.positions.flatMap fun position => Bytes.littleEndian 2 position.toNat := by
    rw [encode, List.append_assoc, List.drop_left]
    exact List.take_left' positions
  have roomForNumber : ¬ block.encode.length < 2 := by omega
  have roomForPositions : ¬ block.encode.length - 2 < 2 * block.positions.length := by omega
  simp only [split, roomForNumber, if_false, number, stated, roomForPositions, start, records,
    middle, decodePositions_flatMap]

/-- Bytes that are read as positions are those that are written for them. -/
theorem flatMap_decodePositions {count : Nat} {bytes : Bytes} (length : bytes.length = 2 * count) :
    (decodePositions bytes).flatMap (fun position => Bytes.littleEndian 2 position.toNat) =
      bytes := by
  induction count generalizing bytes with
  | zero =>
    obtain rfl := List.eq_nil_of_length_eq_zero length
    rfl
  | succ count ih =>
    match bytes, length with
    | low :: high :: rest, length =>
      have behind : rest.length = 2 * count := by
        simp only [List.length_cons] at length
        omega
      have two : [low, high].length = 2 := rfl
      have position : (UInt16.ofNat (Bytes.ofLittleEndian [low, high])).toNat =
          Bytes.ofLittleEndian [low, high] :=
        UInt16.toNat_ofNat_of_lt' (Bytes.ofLittleEndian_lt_capacity two)
      simp only [decodePositions, List.flatMap_cons, position, Bytes.littleEndian_of_length two,
        ih behind, List.cons_append, List.nil_append]

/-- A byte string that splits into records and positions is the stored form of both. -/
theorem encode_of_split {bytes : Bytes} {block : Block} (accepted : split bytes = .ok block) :
    block.encode = bytes := by
  unfold split at accepted
  split at accepted
  · cases accepted
  · next roomForNumber =>
    dsimp only at accepted
    split at accepted
    · cases accepted
    · next roomForPositions =>
      generalize isCount : Bytes.ofLittleEndian (bytes.drop (bytes.length - 2)) = count at *
      generalize isStart : bytes.length - 2 - 2 * count = start at *
      cases accepted
      have two : (bytes.drop (bytes.length - 2)).length = 2 := by
        rw [List.length_drop]
        omega
      have positions : ((bytes.drop start).take (2 * count)).length = 2 * count := by
        rw [List.length_take, List.length_drop]
        omega
      have number : Bytes.littleEndian 2 (decodePositions ((bytes.drop start).take (2 * count))).length =
          bytes.drop (bytes.length - 2) := by
        rw [length_decodePositions, positions, Nat.mul_div_cancel_left count (by decide), ← isCount,
          Bytes.littleEndian_of_length two]
      have behind : bytes.drop (bytes.length - 2) = (bytes.drop start).drop (2 * count) := by
        rw [List.drop_drop]
        congr 1
        omega
      rw [encode, flatMap_decodePositions positions, number, behind, List.append_assoc,
        List.take_append_drop, List.take_append_drop]

/-- A byte string is accepted as a block exactly if it is the stored form of the block, whose positions
can be counted and lead to whole records. -/
theorem decode_eq_ok_iff {bytes : Bytes} {block : Block} : decode bytes = .ok block ↔
    bytes = block.encode ∧ block.positions.length < 65536 ∧ ∃ entries, block.read = .ok entries := by
  constructor
  · intro accepted
    unfold decode at accepted
    split at accepted
    · cases accepted
    · next splits =>
      split at accepted
      · cases accepted
      · next entries reads =>
        cases accepted
        exact ⟨(encode_of_split splits).symm, length_positions_of_split splits, entries, reads⟩
  · rintro ⟨rfl, few, entries, reads⟩
    simp only [decode, split_encode few, reads]

/-- Addressable pieces are few enough to be counted in two bytes, if they have two bytes each. -/
theorem length_lt_of_addressable {start : Nat} {pieces : List Bytes}
    (addressable : Addressable start pieces) (sizes : ∀ piece ∈ pieces, 2 ≤ piece.length)
    (some : pieces ≠ []) : start + 2 * pieces.length < 65538 := by
  induction pieces generalizing start with
  | nil => exact absurd rfl some
  | cons piece later ih =>
    obtain ⟨starts, addressable⟩ := addressable
    have size := sizes piece List.mem_cons_self
    cases later with
    | nil =>
      simp only [List.length_singleton]
      omega
    | cons next rest =>
      have bound := ih addressable (fun piece member => sizes piece (List.mem_cons_of_mem _ member))
        (List.cons_ne_nil _ _)
      simp only [List.length_cons] at bound ⊢
      omega

/-- There is one record for each entry. -/
theorem length_recordsOf (entries : List Entry) : (recordsOf entries).length = entries.length := by
  cases entries <;> simp [recordsOf]

/-- Every record is the record of some entry. -/
theorem length_of_mem_recordsOf {entries : List Entry} {record : Bytes}
    (member : record ∈ recordsOf entries) : 2 ≤ record.length := by
  have size (first? : Option Key) (entry : Entry) : 2 ≤ (encodeRecord first? entry).length := by
    rw [length_encodeRecord, recordLength]
    omega
  cases entries with
  | nil => cases member
  | cons first later =>
    rcases List.mem_cons.mp member with rfl | member
    · exact size _ _
    · obtain ⟨entry, _, rfl⟩ := List.mem_map.mp member
      exact size _ _

/-- Storable entries are few enough to be counted in two bytes. -/
theorem Storable.length_lt {entries : List Entry} (storable : Storable entries) :
    entries.length < 65536 := by
  by_cases none : recordsOf entries = []
  · have length := congrArg List.length none
    rw [length_recordsOf] at length
    simp [length]
  · have bound := length_lt_of_addressable storable.addressable
      (fun _ member => length_of_mem_recordsOf member) none
    rw [length_recordsOf] at bound
    omega

/-- The stored form of a block is accepted, and what is accepted is the block. -/
theorem decode_encode_ofEntries {entries : List Entry} (storable : Storable entries) :
    decode (ofEntries entries).encode = .ok (ofEntries entries) := by
  have few : (ofEntries entries).positions.length < 65536 := by
    simpa [ofEntries, length_positionsFrom, length_recordsOf] using storable.length_lt
  exact decode_eq_ok_iff.mpr ⟨rfl, few, entries, read_ofEntries storable⟩

/-- The block laid out from storable entries holds them. -/
theorem entries_ofEntries {entries : List Entry} (storable : Storable entries) :
    (ofEntries entries).entries = entries := by
  simp only [Block.entries, read_ofEntries storable]

end Block

end SortedTables
