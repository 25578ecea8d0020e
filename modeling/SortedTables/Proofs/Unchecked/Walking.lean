import SortedTables.Block.Cursor
import SortedTables.Proofs.Unchecked.Blocks

/-!
# Walking through a block by unchecked accesses

A walker keeps the fields of the entry it stands at, and where in the block the value lies. Each move
takes the record apart anew, without any check: all that stands between the walker and an access
out of range is that the block was accepted. `Walker.Follows` relates a walker to the cursor over
the entries of the block, and every move keeps it.
-/

namespace SortedTables.Unchecked

/-- A place in a block. -/
structure Walker where
  /-- The block. -/
  block : Block
  /-- The current key. -/
  key : Key
  /-- Where the current value starts and ends in the records of the block. -/
  place : Nat × Nat
  /-- The current sequence number. -/
  seq : UInt64
  /-- The current kind. -/
  kind : EntryKind
  /-- The index of the current entry. -/
  index : Nat
  /-- The first key of the block. -/
  firstKey : Key

/-- The moves of whoever reads entries one by one. -/
inductive Move where
  /-- Goes to the first entry. -/
  | first
  /-- Goes to the next entry. -/
  | next
  /-- Goes to the first entry whose key is not below the given one. -/
  | seek (key : Key)

/-- What a move does to a cursor over the entries of a block. -/
def Move.ofCursor (cursor : Block.Cursor) : Move → Block.Cursor
  | first => cursor.first
  | next => cursor.next
  | seek key => cursor.seek key

/-- A cursor over the entries of a block behind some moves, at first at the first entry or at a key. -/
def cursorBehind (entries : List Entry) (key? : Option Key) (moves : List Move) : Block.Cursor :=
  let start :=
    match key? with
    | none => .atFirst entries
    | some key => (Block.Cursor.atFirst entries).seek key
  moves.foldl Move.ofCursor start

/-- Going on a number of times leaves a cursor as many entries further. -/
theorem foldl_next (entries : List Entry) (index count : Nat) :
    (List.replicate count Move.next).foldl Move.ofCursor ⟨entries, entries.drop index⟩ =
      ⟨entries, entries.drop (index + count)⟩ := by
  induction count generalizing index with
  | zero => rfl
  | succ count ih =>
    rw [List.replicate_succ, List.foldl_cons, Move.ofCursor, Block.Cursor.next]
    dsimp only
    rw [List.tail_drop, ih, Nat.add_right_comm, Nat.add_assoc]

namespace Walker

/-- Reads the first key of a block. -/
def decodeFirstKey (block : Block) : Option Key :=
  match block.positions with
  | [] => some .empty
  | position :: _ => do
    let rest ← behind? position.toNat block.records
    let (length, rest) ← little? 2 rest
    let key ← front? length rest
    some ⟨key⟩

/-- Reads the key of a record and goes behind it. -/
def readKey (firstKey : Key) (index keyLength : Nat) (bytes : Bytes) : Option (Key × Bytes) :=
  if index = 0 then do
    let key ← front? keyLength bytes
    let rest ← behind? keyLength bytes
    some (⟨key⟩, rest)
  else do
    let (count, rest) ← little? 2 bytes
    let (restLength, rest) ← little? 2 rest
    let shared ← front? count firstKey.bytes
    let own ← front? restLength rest
    let rest ← behind? restLength rest
    some (⟨shared ++ own⟩, rest)

/-- Goes to an index. Behind the last entry there is no key and no value, and the other fields are
kept. -/
def seekTo (index : Nat) (walker : Walker) : Option Walker :=
  if walker.block.positions.length ≤ index then
    some { walker with index, key := .empty, place := (0, 0) }
  else do
    let position ← walker.block.positions[index]?
    let rest ← behind? position.toNat walker.block.records
    let (keyLength, rest) ← little? 2 rest
    let (key, rest) ← readKey walker.firstKey index keyLength rest
    let (seq, rest) ← little? 8 rest
    let (kind, rest) ← byte? rest
    let (valueLength, rest) ← little? 2 rest
    let start ← minus? walker.block.records.length rest.length
    some { walker with
      index, key
      place := (start, start + valueLength)
      seq := UInt64.ofNat seq
      kind := (EntryKind.ofByte? kind).getD .put }

/-- A walker that has not moved yet. -/
def ofBlock (block : Block) : Option Walker := do
  let firstKey ← decodeFirstKey block
  some { block, firstKey, key := .empty, place := (0, 0), seq := 0, kind := .put, index := 0 }

/-- Whether the walker stands at an entry. -/
def isValid (walker : Walker) : Bool :=
  walker.index < walker.block.positions.length

/-- The current value. -/
def value? (walker : Walker) : Option Bytes :=
  between? walker.place.1 walker.place.2 walker.block.records

/-- Goes to the first entry. -/
def first (walker : Walker) : Option Walker :=
  walker.seekTo 0

/-- Goes to the next entry. -/
def next (walker : Walker) : Option Walker :=
  walker.seekTo (walker.index + 1)

/-- The number of entries from the current one on. -/
def entriesLeft (walker : Walker) : Nat :=
  walker.block.positions.length - walker.index

/-- Going to an index keeps the block. -/
theorem seekTo_eq_some {walker after : Walker} {index : Nat}
    (goes : walker.seekTo index = some after) :
    after.block = walker.block ∧ after.index = index := by
  rw [seekTo] at goes
  split at goes
  · cases goes
    exact ⟨rfl, rfl⟩
  · simp only [Option.bind_eq_bind, Option.bind_eq_some_iff] at goes
    obtain ⟨_, _, _, _, _, _, _, _, _, _, _, _, _, _, _, _, same⟩ := goes
    cases same
    exact ⟨rfl, rfl⟩

/-- Going to the next entry leaves one fewer. -/
theorem entriesLeft_next_lt {walker after : Walker} (standing : walker.isValid)
    (goes : walker.next = some after) : after.entriesLeft < walker.entriesLeft := by
  obtain ⟨block, index⟩ := seekTo_eq_some goes
  have inside : walker.index < walker.block.positions.length := of_decide_eq_true standing
  rw [entriesLeft, entriesLeft, block, index]
  omega

/-- Halves the interval in which the first key that is not below a given one is searched. -/
def bisect (key : Key) (low high : Nat) (walker : Walker) : Option (Nat × Walker) :=
  if _open : low < high then
    match _span : minus? high low with
    | none => none
    | some span =>
      match walker.seekTo (low + span / 2) with
      | none => none
      | some walker =>
        if walker.key < key then bisect key (low + span / 2 + 1) high walker
        else bisect key low (low + span / 2) walker
  else
    some (low, walker)
termination_by high - low
decreasing_by
  all_goals
    have isSpan : span = high - low := by
      rw [minus?_eq (Nat.le_of_lt _open)] at _span
      exact (Option.some.inj _span).symm
    omega

/-- Goes to the first entry whose key is not below the given one. -/
def seek (key : Key) (walker : Walker) : Option Walker := do
  let (low, walker) ← bisect key 0 walker.block.positions.length walker
  walker.seekTo low

/-- Makes a move. -/
def move (walker : Walker) : Move → Option Walker
  | .first => walker.first
  | .next => walker.next
  | .seek key => walker.seek key

/-- A walker at the first entry of a block. -/
def atFirst (block : Block) : Option Walker :=
  (ofBlock block).bind first

/-- A walker at the first entry of a block whose key is not below the given one. -/
def atKey (key : Key) (block : Block) : Option Walker :=
  (ofBlock block).bind (seek key)

/-- A walker over a block behind some moves, at first at the first entry or at a key. -/
def walk (block : Block) (key? : Option Key) (moves : List Move) : Option Walker := do
  let walker ←
    match key? with
    | none => atFirst block
    | some key => atKey key block
  moves.foldlM move walker

/-! ## Going to an index -/

variable {walker : Walker} {entries : List Entry} {entry : Entry} {index : Nat}

/-- The block of a walker can be read, and the first key is that of its first entry. -/
structure Ready (walker : Walker) (entries : List Entry) : Prop where
  /-- The block can be read. -/
  reads : walker.block.read = .ok entries
  /-- The first key is known. -/
  firstKey : walker.firstKey = (entries.head?.map Entry.key).getD .empty

/-- A walker shows an entry. -/
structure Shows (walker : Walker) (entry : Entry) : Prop where
  /-- The key is that of the entry. -/
  key : walker.key = entry.key
  /-- The value is that of the entry. -/
  value : walker.value? = some entry.value
  /-- The sequence number is that of the entry. -/
  seq : walker.seq = entry.seq
  /-- The kind is that of the entry. -/
  kind : walker.kind = entry.kind

/-- The sequence number and the kind are those of the last entry, if there is one. -/
structure Spent (walker : Walker) (entries : List Entry) : Prop where
  /-- The sequence number is that of the last entry. -/
  seq : walker.seq = (entries.getLast?.map Entry.seq).getD 0
  /-- The kind is that of the last entry. -/
  kind : walker.kind = (entries.getLast?.map Entry.kind).getD .put

/-- There is a position for each entry. -/
theorem Ready.length (ready : walker.Ready entries) :
    walker.block.positions.length = entries.length :=
  (Block.length_of_read ready.reads).symm

/-- A key that was accepted is read back. -/
theorem readKey_eq {first? : Option Key} {firstKey : Key} {keyLength : Nat} {bytes : Bytes}
    {stored : StoredKey} (isFirst : index = 0 ↔ first? = none)
    (isKey : ∀ first ∈ first?, first = firstKey) (room : keyLength ≤ bytes.length)
    (accepted : Block.decodeKey first? (bytes.take keyLength) = .ok stored) :
    readKey firstKey index keyLength bytes =
      some (stored.key (first?.getD .empty), bytes.drop keyLength) := by
  have body : (bytes.take keyLength).length = keyLength := List.length_take_of_le room
  cases first? with
  | none =>
    rw [Block.decodeKey] at accepted
    cases accepted
    rw [readKey, if_pos (isFirst.mpr rfl), front?_eq room, behind?_eq room]
    rfl
  | some first =>
    obtain rfl := isKey first rfl
    have later : index ≠ 0 := fun zero => Option.some_ne_none _ (isFirst.mp zero)
    obtain ⟨shared, length, rfl⟩ := Block.sharing_of_decodeKey accepted
    rw [body] at length
    have count : (bytes.take keyLength).take 2 = bytes.take 2 := by
      rw [List.take_take, Nat.min_eq_left (by omega)]
    have restLength : ((bytes.take keyLength).drop 2).take 2 = (bytes.drop 2).take 2 := by
      rw [List.drop_take, List.take_take, Nat.min_eq_left (by omega)]
    rw [count] at shared
    rw [restLength] at length
    have rest : (bytes.take keyLength).drop 4 =
        (bytes.drop 4).take (Bytes.ofLittleEndian ((bytes.drop 2).take 2)) := by
      rw [List.drop_take, ← length, Nat.add_sub_cancel_left]
    rw [readKey, if_neg later, little?_eq (by omega)]
    simp only [Option.bind_eq_bind, Option.bind_some]
    rw [little?_eq (by rw [List.length_drop]; omega)]
    simp only [Option.bind_some, List.drop_drop, Nat.reduceAdd]
    rw [front?_eq shared, front?_eq (by rw [List.length_drop]; omega),
      behind?_eq (by rw [List.length_drop]; omega)]
    simp only [Option.bind_some, List.drop_drop, length, StoredKey.key, Option.getD_some, count, rest]

/-- The part of a record behind its key is taken apart as it was read. -/
theorem tail_eq {bytes : Bytes} (tail : Block.Tail bytes entry) :
    little? 8 bytes = some (Bytes.ofLittleEndian (bytes.take 8), bytes.drop 8) ∧
      byte? (bytes.drop 8) = some ((bytes.drop 8).headD 0, bytes.drop 9) ∧
      little? 2 (bytes.drop 9) = some (entry.value.length, bytes.drop 11) := by
  have header := tail.header
  refine ⟨little?_eq (by omega), ?_, ?_⟩
  · rw [byte?_eq (by rw [List.length_drop]; omega), List.drop_drop]
  · rw [little?_eq (by rw [List.length_drop]; omega), List.drop_drop, tail.value,
      List.length_take_of_le tail.room]

/-- Every entry but the first one may share bytes with the first key. -/
theorem Ready.first? (ready : walker.Ready entries) (found : entries[index]? = some entry)
    {first? : Option Key}
    (isFirst? : first? = if index = 0 then none else entries.head?.map Entry.key) :
    (index = 0 ↔ first? = none) ∧ ∀ first ∈ first?, first = walker.firstKey := by
  cases entries with
  | nil => cases found
  | cons first later =>
    rw [ready.firstKey, isFirst?]
    by_cases zero : index = 0
    · simp [zero]
    · simp [zero, eq_comm]

/-- Going to an entry shows it. -/
theorem exists_seekTo (ready : walker.Ready entries) (found : entries[index]? = some entry) :
    ∃ after, walker.seekTo index = some after ∧ after.block = walker.block ∧
      after.firstKey = walker.firstKey ∧ after.index = index ∧ after.Shows entry := by
  obtain ⟨position, isPosition, whole⟩ := Block.whole_of_read ready.reads found
  have inside : index < walker.block.positions.length :=
    (List.getElem?_eq_some_iff.mp isPosition).1
  obtain ⟨isFirst, isKey⟩ := ready.first? found rfl
  generalize isRecord : walker.block.records.drop position.toNat = bytes at whole
  obtain ⟨two, room, ⟨stored, accepted, key⟩, tail⟩ := whole
  generalize isBehind : (bytes.drop 2).drop (Bytes.ofLittleEndian (bytes.take 2)) = behind at tail
  have start : position.toNat ≤ walker.block.records.length := by
    rw [← isRecord, List.length_drop] at two
    omega
  have suffix : behind.drop 11 <:+ walker.block.records := by
    simp only [← isBehind, ← isRecord, List.drop_drop]
    exact List.drop_suffix _ _
  have length : entry.value.length = Bytes.ofLittleEndian ((behind.drop 9).take 2) := by
    rw [tail.value, List.length_take_of_le tail.room]
  obtain ⟨seqField, kindField, lengthField⟩ := tail_eq tail
  rw [seekTo, if_neg (Nat.not_le_of_lt inside), isPosition]
  simp only [Option.bind_eq_bind, Option.bind_some, behind?_eq start, isRecord, little?_eq two,
    readKey_eq isFirst isKey room accepted, isBehind, seqField, kindField, lengthField,
    minus?_eq suffix.length_le]
  refine ⟨_, rfl, rfl, rfl, rfl, key.symm, ?_, tail.seq.symm, ?_⟩
  · rw [value?, length, between?_of_suffix suffix tail.room, ← tail.value]
  · exact tail.kind ▸ rfl

/-- Behind the last entry there is nothing to take apart. -/
theorem seekTo_of_behind (ready : walker.Ready entries) (behind : entries.length ≤ index) :
    walker.seekTo index = some { walker with index, key := .empty, place := (0, 0) } := by
  rw [seekTo, if_pos (ready.length ▸ behind)]

/-- A walker that shows the last entry has passed all of them. -/
theorem Shows.spent (shows : walker.Shows entry) (found : entries[index]? = some entry)
    (last : entries.length ≤ index + 1) : walker.Spent entries := by
  have inside := (List.getElem?_eq_some_iff.mp found).1
  have isLast : entries.getLast? = some entry := by
    rw [List.getLast?_eq_getElem?, ← found]
    congr 1
    omega
  constructor
  · rw [isLast, shows.seq]
    rfl
  · rw [isLast, shows.kind]
    rfl

/-! ## The walker and the cursor -/

/-- A walker stands where a cursor over the entries of its block does, and all that can be seen of it
is what the cursor shows. -/
structure Follows (walker : Walker) (cursor : Block.Cursor) : Prop where
  /-- The block is that of the cursor. -/
  ready : walker.Ready cursor.entries
  /-- The cursor stands at the index of the walker. -/
  rest : cursor.rest = cursor.entries.drop walker.index
  /-- The key is that of the cursor. -/
  key : walker.key = cursor.key
  /-- The value is that of the cursor. -/
  value : walker.value? = some cursor.value
  /-- The sequence number is that of the cursor. -/
  seq : walker.seq = cursor.seq
  /-- The kind is that of the cursor. -/
  kind : walker.kind = cursor.kind

/-- Going to an index, where the walker has passed all entries if there is none at the index. -/
theorem exists_seekTo_follows (ready : walker.Ready entries)
    (spent : entries.length ≤ index → walker.Spent entries) :
    ∃ after, walker.seekTo index = some after ∧ after.Follows ⟨entries, entries.drop index⟩ := by
  by_cases behind : entries.length ≤ index
  · have isRest : entries.drop index = [] := List.drop_eq_nil_of_le behind
    refine ⟨_, seekTo_of_behind ready behind, ⟨⟨ready.reads, ready.firstKey⟩, rfl, ?_, ?_, ?_, ?_⟩⟩
    · simp [Block.Cursor.key, Block.Cursor.current?, isRest]
    · rw [value?, between?_eq (Nat.le_refl 0) (Nat.zero_le _)]
      simp [Block.Cursor.value, Block.Cursor.current?, isRest]
    · simpa [Block.Cursor.seq, Block.Cursor.shown?, isRest] using (spent behind).seq
    · simpa [Block.Cursor.kind, Block.Cursor.shown?, isRest] using (spent behind).kind
  · have inside : index < entries.length := Nat.lt_of_not_le behind
    obtain ⟨after, goes, block, firstKey, isIndex, shows⟩ :=
      exists_seekTo ready (List.getElem?_eq_getElem inside)
    obtain ⟨later, isRest⟩ : ∃ later, entries.drop index = entries[index] :: later :=
      ⟨_, List.drop_eq_getElem_cons inside⟩
    generalize entries[index] = entry at isRest shows
    refine ⟨after, goes, ⟨?_, ?_⟩, ?_, ?_, ?_, ?_, ?_⟩
    · rw [block]
      exact ready.reads
    · rw [firstKey]
      exact ready.firstKey
    · rw [isIndex]
    · simpa [Block.Cursor.key, Block.Cursor.current?, isRest] using shows.key
    · simpa [Block.Cursor.value, Block.Cursor.current?, isRest] using shows.value
    · simpa [Block.Cursor.seq, Block.Cursor.shown?, isRest] using shows.seq
    · simpa [Block.Cursor.kind, Block.Cursor.shown?, isRest] using shows.kind

variable {cursor : Block.Cursor}

/-- A walker is at an entry where the cursor is. -/
theorem Follows.isValid (follows : walker.Follows cursor) : walker.isValid = cursor.isValid := by
  rw [Walker.isValid, follows.ready.length, Block.Cursor.isValid, follows.rest]
  by_cases inside : walker.index < cursor.entries.length
  · simp [inside]
  · simp [inside, Nat.le_of_not_lt inside]

/-- Where the cursor is at an entry, so is the walker. -/
theorem Follows.at_entry (follows : walker.Follows cursor) (here : cursor.current? = some entry) :
    walker.isValid = true ∧ walker.Shows entry := by
  obtain ⟨later, isRest⟩ := List.head?_eq_some_iff.mp here
  refine ⟨?_, ?_, ?_, ?_, ?_⟩
  · rw [follows.isValid, Block.Cursor.isValid, isRest]
    rfl
  · rw [follows.key, Block.Cursor.key, here]
    rfl
  · rw [follows.value, Block.Cursor.value, here]
    rfl
  · rw [follows.seq, Block.Cursor.seq, Block.Cursor.shown?, isRest]
    rfl
  · rw [follows.kind, Block.Cursor.kind, Block.Cursor.shown?, isRest]
    rfl

/-- Where the cursor is behind the last entry, so is the walker. -/
theorem Follows.at_end (follows : walker.Follows cursor) (here : cursor.current? = none) :
    walker.isValid = false := by
  rw [follows.isValid, Block.Cursor.isValid, List.head?_eq_none_iff.mp here]
  rfl

/-- At the last entry and behind it, all entries have been passed. -/
theorem Follows.spent (follows : walker.Follows cursor)
    (last : cursor.entries.length ≤ walker.index + 1) : walker.Spent cursor.entries := by
  have isShown : cursor.shown? = cursor.entries.getLast? := by
    rw [Block.Cursor.shown?, follows.rest]
    split
    · rfl
    · next entry later isRest =>
      have length := congrArg List.length isRest
      rw [List.length_drop, List.length_cons] at length
      obtain rfl : later = [] := List.eq_nil_of_length_eq_zero (by omega)
      have isLast := congrArg List.getLast? isRest
      rw [List.getLast?_drop, if_neg (by omega)] at isLast
      exact isLast.symm
  constructor
  · rw [← isShown]
    exact follows.seq
  · rw [← isShown]
    exact follows.kind

/-- Halving an interval goes to its middle first. -/
theorem bisect_of_seekTo {key : Key} {low high : Nat} {after : Walker} (inside : low < high)
    (goes : walker.seekTo (low + (high - low) / 2) = some after) :
    walker.bisect key low high =
      if after.key < key then after.bisect key (low + (high - low) / 2 + 1) high
      else after.bisect key low (low + (high - low) / 2) := by
  have isSpan := minus?_eq (Nat.le_of_lt inside)
  rw [bisect, dif_pos inside]
  split
  · next noSpan => cases isSpan.symm.trans noSpan
  · next span found =>
    cases isSpan.symm.trans found
    rw [goes]

/-- In the middle of an interval there is an entry to compare with. -/
theorem exists_seekTo_middle (key : Key) {low high : Nat} (ready : walker.Ready entries)
    (inside : low < high) (bounded : high ≤ entries.length) :
    ∃ after, walker.seekTo (low + (high - low) / 2) = some after ∧ after.Ready entries ∧
      (entries.length ≤ low + (high - low) / 2 + 1 → after.Spent entries) ∧
      (after.key < key ↔
        Block.Cursor.standsBefore entries key (low + (high - low) / 2) = true) := by
  have middle : low + (high - low) / 2 < entries.length := by omega
  have found := List.getElem?_eq_getElem middle
  obtain ⟨after, goes, block, firstKey, -, shows⟩ := exists_seekTo ready found
  refine ⟨after, goes, ⟨?_, ?_⟩, shows.spent found, ?_⟩
  · rw [block]
    exact ready.reads
  · rw [firstKey]
    exact ready.firstKey
  · rw [Block.Cursor.standsBefore, found, Option.any_some, decide_eq_true_iff, shows.key]

/-- Halving has an outcome. If no index is left, the walker has passed all entries. -/
theorem exists_bisect (key : Key) (low : Nat) {high : Nat} (ready : walker.Ready entries)
    (bounded : high ≤ entries.length) :
    ∃ after, walker.bisect key low high =
        some (Block.bisect (Block.Cursor.standsBefore entries key) low high, after) ∧
      after.Ready entries ∧
      ((entries.length ≤ low → walker.Spent entries) →
        entries.length ≤ Block.bisect (Block.Cursor.standsBefore entries key) low high →
          after.Spent entries) := by
  fun_induction Block.bisect (Block.Cursor.standsBefore entries key) low high generalizing walker with
  | case1 low high inside _ below =>
    rename_i ih
    obtain ⟨middle, goes, readyMiddle, spentMiddle, isBelow⟩ :=
      exists_seekTo_middle key ready inside bounded
    obtain ⟨after, halves, readyAfter, spentAfter⟩ := ih readyMiddle bounded
    rw [bisect_of_seekTo inside goes, if_pos (isBelow.mpr below)]
    -- Only behind the last entry is no index left, and then the middle was the last entry.
    exact ⟨after, halves, readyAfter, fun _ => spentAfter spentMiddle⟩
  | case2 low high inside _ notBelow =>
    rename_i ih
    obtain ⟨middle, goes, readyMiddle, -, isBelow⟩ :=
      exists_seekTo_middle key ready inside bounded
    obtain ⟨after, halves, readyAfter, spentAfter⟩ := ih readyMiddle (by omega)
    rw [bisect_of_seekTo inside goes, if_neg fun below => notBelow (isBelow.mp below)]
    exact ⟨after, halves, readyAfter, fun _ => spentAfter (by omega)⟩
  | case3 low high closed =>
    exact ⟨walker, by rw [bisect, dif_neg closed], ready, id⟩

/-- A key is sought where the cursor seeks it. -/
theorem exists_seek (key : Key) (ready : walker.Ready entries)
    (spent : entries.length ≤ 0 → walker.Spent entries) :
    ∃ after, walker.seek key = some after ∧
      after.Follows ((Block.Cursor.atFirst entries).seek key) := by
  obtain ⟨found, halves, readyFound, spentFound⟩ :=
    exists_bisect key 0 ready (Nat.le_refl entries.length)
  obtain ⟨after, goes, follows⟩ := exists_seekTo_follows readyFound (spentFound spent)
  refine ⟨after, ?_, follows⟩
  rw [seek, ready.length, halves]
  exact goes

/-! ## Every move has an outcome -/

/-- The first key of a block that can be read is that of its first entry. -/
theorem decodeFirstKey_eq {block : Block} (reads : block.read = .ok entries) :
    decodeFirstKey block = some ((entries.head?.map Entry.key).getD .empty) := by
  rw [decodeFirstKey]
  cases entries with
  | nil =>
    have none : block.positions = [] :=
      List.eq_nil_of_length_eq_zero (Block.length_of_read reads).symm
    rw [none]
    rfl
  | cons first later =>
    have found : (first :: later)[0]? = some first := rfl
    obtain ⟨position, isPosition, two, room, ⟨stored, accepted, key⟩, -⟩ :=
      Block.whole_of_read reads found
    have start : position.toNat ≤ block.records.length := by
      rw [List.length_drop] at two
      omega
    cases isList : block.positions with
    | nil =>
      rw [isList] at isPosition
      cases isPosition
    | cons _ others =>
      rw [isList] at isPosition
      cases isPosition
      cases accepted
      rw [List.head?_cons, Option.map_some, Option.getD_some, key]
      simp only [behind?_eq start, little?_eq two, front?_eq room, Option.bind_eq_bind,
        Option.bind_some]
      rfl

/-- A walker over an accepted block can be made. -/
theorem exists_ofBlock {block : Block} (reads : block.read = .ok entries) :
    ∃ walker, ofBlock block = some walker ∧ walker.Ready entries ∧
      (entries.length ≤ 0 → walker.Spent entries) := by
  refine ⟨_, by rw [ofBlock, decodeFirstKey_eq reads]; rfl, ⟨reads, rfl⟩, fun none => ?_⟩
  obtain rfl := List.eq_nil_of_length_eq_zero (Nat.le_zero.mp none)
  exact ⟨rfl, rfl⟩

/-- Going to the first entry has an outcome. -/
theorem Follows.exists_first (follows : walker.Follows cursor) :
    ∃ after, walker.first = some after ∧ after.Follows cursor.first := by
  refine exists_seekTo_follows follows.ready fun behind => ?_
  exact follows.spent (Nat.le_trans behind (Nat.zero_le _))

/-- Going to the next entry has an outcome. -/
theorem Follows.exists_next (follows : walker.Follows cursor) :
    ∃ after, walker.next = some after ∧ after.Follows cursor.next := by
  obtain ⟨after, goes, followsNext⟩ := exists_seekTo_follows follows.ready follows.spent
  have isRest : cursor.rest.tail = cursor.entries.drop (walker.index + 1) := by
    rw [follows.rest, List.tail_drop]
  refine ⟨after, goes, ?_⟩
  rw [Block.Cursor.next, isRest]
  exact followsNext

/-- Going to a key has an outcome. -/
theorem Follows.exists_seek (follows : walker.Follows cursor) (key : Key) :
    ∃ after, walker.seek key = some after ∧ after.Follows (cursor.seek key) :=
  Walker.exists_seek key follows.ready fun none => follows.spent (Nat.le_trans none (Nat.zero_le _))

/-- A walker at the first entry of an accepted block can be made. -/
theorem exists_atFirst {block : Block} (reads : block.read = .ok entries) :
    ∃ walker, atFirst block = some walker ∧ walker.Follows (Block.Cursor.atFirst entries) := by
  obtain ⟨start, makes, ready, spent⟩ := exists_ofBlock reads
  obtain ⟨after, goes, follows⟩ := exists_seekTo_follows ready spent
  refine ⟨after, ?_, follows⟩
  rw [atFirst, makes]
  exact goes

/-- A walker at the first entry of an accepted block whose key is not below a given one can be made. -/
theorem exists_atKey {block : Block} (key : Key) (reads : block.read = .ok entries) :
    ∃ walker, atKey key block = some walker ∧
      walker.Follows ((Block.Cursor.atFirst entries).seek key) := by
  obtain ⟨start, makes, ready, spent⟩ := exists_ofBlock reads
  obtain ⟨after, goes, follows⟩ := Walker.exists_seek key ready spent
  refine ⟨after, ?_, follows⟩
  rw [atKey, makes]
  exact goes

/-- Every move has an outcome. -/
theorem Follows.exists_move (follows : walker.Follows cursor) (move : Move) :
    ∃ after, walker.move move = some after ∧ after.Follows (Move.ofCursor cursor move) := by
  cases move with
  | first => exact follows.exists_first
  | next => exact follows.exists_next
  | seek key => exact follows.exists_seek key

/-- Any number of moves have an outcome. -/
theorem Follows.exists_moves (follows : walker.Follows cursor) (moves : List Move) :
    ∃ after, moves.foldlM move walker = some after ∧
      after.Follows (moves.foldl Move.ofCursor cursor) := by
  induction moves generalizing walker cursor with
  | nil => exact ⟨walker, rfl, follows⟩
  | cons move later ih =>
    obtain ⟨after, goes, followsAfter⟩ := follows.exists_move move
    rw [List.foldlM_cons, goes]
    exact ih followsAfter

/-- However one walks through an accepted block, there is an outcome. -/
theorem exists_walk {block : Block} (reads : block.read = .ok entries) (key? : Option Key)
    (moves : List Move) :
    ∃ walker, walk block key? moves = some walker ∧
      walker.Follows (cursorBehind entries key? moves) := by
  cases key? with
  | none =>
    obtain ⟨start, makes, follows⟩ := exists_atFirst reads
    obtain ⟨after, goes, followsAfter⟩ := follows.exists_moves moves
    exact ⟨after, by rw [walk, makes]; exact goes, followsAfter⟩
  | some key =>
    obtain ⟨start, makes, follows⟩ := exists_atKey key reads
    obtain ⟨after, goes, followsAfter⟩ := follows.exists_moves moves
    exact ⟨after, by rw [walk, makes]; exact goes, followsAfter⟩

end Walker

end SortedTables.Unchecked
