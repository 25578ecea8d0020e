import SortedTables.Proofs.Table.Reopening

/-!
# Going on after a refusal

Whoever writes a table can go on after an entry that was refused: one whose key does not stand behind
the last one, or one too long for any record. No other entry is refused (`TableBuilder.fault_add_iff`).

A refusal never closes a block and never counts an entry, so it leaves nothing in the file: blocks,
index and footer are those of the entries that were taken, and so are the last key and the length at
every step. But the first key is noted before an entry is looked at further, and as long as no entry
was taken a refused one leaves its key behind (`TableBuilder.state_of_refused`). The next entry
replaces it. If none is taken any more, the table that building returns shows the key of an entry it
does not have, while the file opens as a table without keys: `TableBuilder.traces_of_refusals`.
-/

namespace SortedTables

/-- The keys that a table shows that was opened from what a run has left are those of the entries. -/
theorem Disk.HoldsRun.keys {disk : Disk} {path : String} {entries : List Entry}
    (held : disk.HoldsRun path entries) :
    ∃ table, Table.openPath disk path = .ok table ∧
      table.firstKey = (entries.head?.map Entry.key).getD .empty ∧
      table.lastKey = (entries.getLast?.map Entry.key).getD .empty := by
  obtain ⟨table, groups, _, opened, rfl, describes, _⟩ := held.describes
  obtain ⟨_, _, _, _, isTable⟩ := Table.openPath_eq_ok_iff.mp opened
  refine ⟨table, opened, ?_, ?_⟩
  · rw [← describes.dealt.firstKey_describe, ← describes.blocks, ← isTable]
    rfl
  · rw [← describes.dealt.lastKey_describe, ← describes.blocks, ← isTable]
    rfl

namespace TableBuilder

variable {builder clean : TableBuilder} {entry : Entry}

/-- A builder that has noted another first key. -/
def noting (builder : TableBuilder) (key : Key) : TableBuilder :=
  { builder with firstKey := key }

/-- What is left of a builder that entries were offered to, one after the other, by someone who goes on
after a refusal. -/
def offerAll (builder : TableBuilder) (offered : List Entry) : TableBuilder :=
  offered.foldl (fun builder entry => (builder.add entry).state) builder

/-- Those of the entries offered to a builder that it does not refuse. -/
def taken (builder : TableBuilder) : List Entry → List Entry
  | [] => []
  | entry :: later =>
    (if (builder.add entry).fault = none then [entry] else []) ++
      (builder.add entry).state.taken later

/-! ## What a refusal leaves -/

/-- An entry is refused if it is too long or if its key does not stand behind the last one, and only
then. -/
theorem fault_add_iff :
    (builder.add entry).fault = none ↔
      entry.Fits ∧ (builder.properties.entries = 0 ∨ builder.lastKey < entry.key) := by
  have stores (builder : TableBuilder) :
      (builder.store entry).fault = none ↔ entry.Fits := by
    obtain ⟨fits, _, stored⟩ | ⟨fits, _, stored⟩ | ⟨tooLong, _, _, refused⟩ :=
      store_cases builder entry
    · simp [stored, fits]
    · simp [stored, fits]
    · simp [refused, tooLong]
  unfold add
  split
  · next none => simp [stores, none]
  · next some =>
    split
    · next behind => simp [stores, behind]
    · next notBehind => simp [some, notBehind]

/-- A refused entry leaves its key as the first one, if no entry was taken before it. Otherwise it leaves
nothing. -/
theorem state_of_refused (refused : (builder.add entry).fault ≠ none) :
    (builder.add entry).state =
      if builder.properties.entries = 0 then builder.noting entry.key else builder := by
  rw [Ne, fault_add_iff, not_and_or, not_or] at refused
  unfold add
  split
  · next none =>
    have tooLong : ¬entry.Fits := refused.resolve_right fun behind => behind.1 none
    obtain ⟨refusal, _, failed⟩ := store_of_not_fits (builder.noting entry.key) tooLong
    exact congrArg Step.state failed
  · split
    · next behind =>
      have tooLong : ¬entry.Fits := refused.resolve_right fun before => before.2 behind
      obtain ⟨refusal, _, failed⟩ := store_of_not_fits builder tooLong
      rw [failed, Step.state_failed]
    · rfl

/-- While no entry was taken, it does not matter which first key was noted. -/
theorem add_noting (none : builder.properties.entries = 0) (key : Key) (entry : Entry) :
    (builder.noting key).add entry = builder.add entry := by
  have noted : (builder.noting key).properties.entries = 0 := none
  rw [add, if_pos noted, add, if_pos none]
  rfl

/-! ## What many of them leave -/

/-- The last one of many entries is offered to what the others have left. -/
theorem offerAll_concat (builder : TableBuilder) (offered : List Entry) (entry : Entry) :
    builder.offerAll (offered ++ [entry]) = ((builder.offerAll offered).add entry).state := by
  rw [offerAll, List.foldl_concat, ← offerAll]

/-- The last one of many entries is taken or not by what the others have left. -/
theorem taken_concat (builder : TableBuilder) (offered : List Entry) (entry : Entry) :
    builder.taken (offered ++ [entry]) =
      builder.taken offered ++
        if ((builder.offerAll offered).add entry).fault = none then [entry] else [] := by
  induction offered generalizing builder with
  | nil =>
    rw [List.nil_append, taken, List.nil_append]
    exact List.append_nil _
  | cons first later ih =>
    rw [List.cons_append, taken, ih, taken, List.append_assoc]
    rfl

/-- An entry is added behind others that were added. -/
theorem addAll_concat {entries : List Entry} (builder : TableBuilder)
    (added : builder.addAll entries = .done clean) :
    builder.addAll (entries ++ [entry]) = clean.add entry := by
  induction entries generalizing builder with
  | nil =>
    cases added
    simp only [List.nil_append, addAll, Step.andThen]
    cases step : (clean.add entry).fault with
    | none => exact (Step.eq_done step).symm
    | some refusal => rfl
  | cons first later ih =>
    simp only [List.cons_append, addAll, Step.andThen] at added ⊢
    cases step : (builder.add first).fault with
    | none =>
      rw [step] at added
      exact ih _ added
    | some refusal =>
      rw [step] at added
      dsimp only at added
      rw [added] at step
      cases step

/-- The first key of a builder that was only given entries that it takes is that of the first one. -/
theorem firstKey_of_addAll {blockSize : Nat} {stored : List Entry}
    (added : (ofBlockSize blockSize).addAll stored = .done clean) :
    clean.firstKey = (stored.head?.map Entry.key).getD .empty :=
  (keys_of_addAll added).1.trans (if_pos rfl)

/-- The first key that is noted when entries were offered: that of the first one that was taken, else
that of the last one that was refused. -/
def notedKey (offered stored : List Entry) : Key :=
  ((stored.head? <|> offered.getLast?).map Entry.key).getD .empty

/-- Behind an entry that was taken, the right first key is noted. -/
theorem notedKey_of_addAll {blockSize : Nat} {offered stored : List Entry} (some : stored ≠ [])
    (added : (ofBlockSize blockSize).addAll stored = .done clean) :
    notedKey offered stored = clean.firstKey := by
  obtain ⟨first, later, rfl⟩ := List.exists_cons_of_ne_nil some
  rw [firstKey_of_addAll added]
  rfl

/-- A builder that entries were offered to is the one that was only given those that it takes, up to
the first key. -/
theorem offerAll_eq (blockSize : Nat) (offered : List Entry) :
    ∃ clean, (ofBlockSize blockSize).addAll ((ofBlockSize blockSize).taken offered) = .done clean ∧
      (ofBlockSize blockSize).offerAll offered =
        clean.noting (notedKey offered ((ofBlockSize blockSize).taken offered)) := by
  induction offered using List.reverseRecOn with
  | nil => exact ⟨ofBlockSize blockSize, rfl, rfl⟩
  | append_singleton offered entry ih =>
    obtain ⟨clean, added, left⟩ := ih
    rw [offerAll_concat, taken_concat]
    generalize (ofBlockSize blockSize).taken offered = stored at added left ⊢
    obtain ⟨groups, filled⟩ := (filled_ofBlockSize blockSize).addAll added
    have counted : clean.properties.entries = 0 ↔ stored = [] := by
      rw [filled.count, List.nil_append, List.length_eq_zero_iff]
    -- The key that was left makes no difference: it is replaced, or it is the right one.
    have same : ((ofBlockSize blockSize).offerAll offered).add entry = clean.add entry := by
      rw [left]
      by_cases none : clean.properties.entries = 0
      · exact add_noting none _ entry
      · rw [notedKey_of_addAll (mt counted.mpr none) added]
        rfl
    rw [same]
    cases step : (clean.add entry).fault with
    | none =>
      have addedToo : (ofBlockSize blockSize).addAll (stored ++ [entry]) =
          .done (clean.add entry).state := by
        rw [addAll_concat _ added]
        exact Step.eq_done step
      rw [if_pos rfl]
      refine ⟨_, addedToo, ?_⟩
      rw [notedKey_of_addAll (by simp) addedToo]
      rfl
    | some refusal =>
      have refused : (clean.add entry).fault ≠ none := by simp [step]
      rw [if_neg (by simp), List.append_nil, state_of_refused refused]
      refine ⟨clean, added, ?_⟩
      by_cases none : clean.properties.entries = 0
      · rw [if_pos none, counted.mp none]
        simp [notedKey]
      · rw [if_neg none, notedKey_of_addAll (mt counted.mpr none) added]
        rfl

/-- What a builder makes of its entries shows the first key that it has noted, and nothing else of it. -/
theorem build_noting (builder : TableBuilder) (key : Key) (disk : Disk) (path : String) :
    (builder.noting key).build disk path =
      (builder.build disk path).map fun (table, after) =>
        ({ table with firstKey := key }, after) := by
  have finished : (builder.noting key).finish = builder.finish.noting key := by
    unfold finish
    change (if builder.block.isEmpty then _ else _) = _
    split <;> rfl
  have image : (builder.finish.noting key).image = builder.finish.image := rfl
  have closedLength : (builder.finish.noting key).closedLength = builder.finish.closedLength := rfl
  unfold build
  dsimp only
  rw [finished, image, closedLength]
  split
  · rfl
  · split <;> rfl

/-- What is written by a builder that has noted another first key opens with the right first key, while
the returned table has the noted one. -/
theorem exists_opened_of_noting {blockSize : Nat} {stored : List Entry} {key : Key}
    {disk after : Disk} {path : String} {table : Table}
    (added : (ofBlockSize blockSize).addAll stored = .done clean) (sound : disk.Sound)
    (built : (clean.noting key).build disk path = .ok (table, after)) {other : Disk}
    {place : String} (read : other.read place = .ok (after.content table.file)) :
    table.firstKey = key ∧ ∃ opened, Table.openPath other place = .ok opened ∧
      opened.firstKey = clean.firstKey ∧ opened.lastKey = table.lastKey := by
  rw [build_noting] at built
  cases cleanly : clean.build disk path with
  | error fault => simp [cleanly, Except.map] at built
  | ok result =>
    rw [cleanly] at built
    cases built
    have held : other.HoldsRun place stored :=
      ⟨_, ⟨blockSize, clean, disk, result.2, path, result.1, added, sound, cleanly, rfl⟩, read⟩
    obtain ⟨opened, opens, firstKey, lastKey⟩ := held.keys
    obtain ⟨_, lastOfClean⟩ := Table.keys_of_build added cleanly
    exact ⟨rfl, opened, opens, firstKey.trans (firstKey_of_addAll added).symm,
      lastKey.trans lastOfClean.symm⟩

/-- The noted first key is the right one: an entry was taken, or the last one that was refused has the
empty key, which is what a table without entries shows. -/
def KeepsFirstKey (offered stored : List Entry) : Prop :=
  stored ≠ [] ∨ ∀ last, offered.getLast? = some last → last.key = .empty

/-- The noted first key is that of the builder that was only given entries that it takes if no refusal
can be seen from it. -/
theorem notedKey_eq_iff {blockSize : Nat} {stored : List Entry}
    (added : (ofBlockSize blockSize).addAll stored = .done clean) (offered : List Entry) :
    notedKey offered stored = clean.firstKey ↔ KeepsFirstKey offered stored := by
  by_cases none : stored = []
  · cases none
    rw [firstKey_of_addAll added]
    cases last : offered.getLast? <;> simp [notedKey, KeepsFirstKey, last]
  · simp [KeepsFirstKey, none, notedKey_of_addAll none added]

/-- Noting another first key changes nothing about the entries. -/
theorem Filled.noting {groups : List (List Entry)} {stored : List Entry}
    (filled : builder.Filled groups stored) (key : Key) :
    (builder.noting key).Filled groups stored :=
  { filled with }

/-- A builder deals out the entries that it takes of those it is offered. -/
theorem filled_offerAll (blockSize : Nat) (offered : List Entry) :
    ∃ groups, ((ofBlockSize blockSize).offerAll offered).Filled groups
      ((ofBlockSize blockSize).taken offered) := by
  obtain ⟨clean, added, left⟩ := offerAll_eq blockSize offered
  obtain ⟨groups, filled⟩ := (filled_ofBlockSize blockSize).addAll added
  rw [left]
  exact ⟨groups, filled.noting _⟩

/-- What a builder refuses follows from the entries that it has taken. -/
theorem Filled.fault_add_iff {groups : List (List Entry)} {stored : List Entry}
    (filled : builder.Filled groups stored) :
    (builder.add entry).fault = none ↔
      entry.Fits ∧ ∀ last, stored.getLast? = some last → last.key < entry.key := by
  rw [TableBuilder.fault_add_iff, filled.count, List.length_eq_zero_iff]
  apply and_congr_right'
  rcases List.eq_nil_or_concat' stored with rfl | ⟨before, last, rfl⟩
  · simp
  · have lastKey := filled.lastKey last (by simp)
    simp [lastKey]

/-- Let a builder be offered entries, by someone who goes on after each refusal. It refuses those that
are too long and those whose key does not stand behind the last one that it has taken. It has what the
builder has that is only given the entries it takes: the same length at every step and, in the end,
the same outcome of building the table, down to the bytes of the file. The one difference is the
first key that the returned table shows. It is right if an entry was taken, or if the last one that
was refused has the empty key, and only then does the table show the same first key when it is opened
from its file; the last key is the same in any case. -/
theorem traces_of_refusals {blockSize : Nat} {offered stored : List Entry}
    (isLeft : (ofBlockSize blockSize).offerAll offered = builder)
    (isTaken : (ofBlockSize blockSize).taken offered = stored) :
    (∀ entry, (builder.add entry).fault = none ↔
      entry.Fits ∧ ∀ last, stored.getLast? = some last → last.key < entry.key) ∧
    (∀ count, ((ofBlockSize blockSize).offerAll (offered.take count)).estimatedSize =
      ((ofBlockSize blockSize).addAll
        ((ofBlockSize blockSize).taken (offered.take count))).state.estimatedSize) ∧
    ∃ clean, (ofBlockSize blockSize).addAll stored = .done clean ∧
      (builder.firstKey = clean.firstKey ↔ KeepsFirstKey offered stored) ∧
      ∀ disk path,
        (builder.build disk path = (clean.build disk path).map fun (table, after) =>
          ({ table with firstKey := builder.firstKey }, after)) ∧
        ∀ table after, disk.Sound → builder.build disk path = .ok (table, after) →
          ∀ (other : Disk) (place : String), other.read place = .ok (after.content table.file) →
            ∃ opened, Table.openPath other place = .ok opened ∧ opened.lastKey = table.lastKey ∧
              (opened.firstKey = table.firstKey ↔ KeepsFirstKey offered stored) := by
  obtain ⟨clean, added, left⟩ := offerAll_eq blockSize offered
  rw [isTaken] at added left
  rw [isLeft] at left
  cases left
  obtain ⟨groups, filled⟩ := (filled_ofBlockSize blockSize).addAll added
  have keeps := notedKey_eq_iff added offered
  refine ⟨fun entry => ?_, fun count => ?_, clean, added, keeps, fun disk path => ⟨?_, ?_⟩⟩
  · exact (filled.noting _).fault_add_iff
  · obtain ⟨before, addedBefore, leftBefore⟩ := offerAll_eq blockSize (offered.take count)
    rw [addedBefore, leftBefore]
    rfl
  · exact build_noting clean _ disk path
  · intro table after sound built other place read
    obtain ⟨firstKey, opened, opens, first, last⟩ :=
      exists_opened_of_noting added sound built read
    refine ⟨opened, opens, last, ?_⟩
    rw [first, firstKey, ← keeps]
    exact eq_comm

/-- An entry whose value is too long for a record by one byte. -/
def oversized : Entry :=
  ⟨⟨[97]⟩, 1, .put, List.replicate 65536 0⟩

/-- A builder that has taken nothing refuses the entry and notes its key. -/
theorem add_oversized (blockSize : Nat) :
    ((ofBlockSize blockSize).add oversized).fault ≠ none ∧
      ((ofBlockSize blockSize).add oversized).state = (ofBlockSize blockSize).noting ⟨[97]⟩ := by
  have tooLong : ¬oversized.Fits := by
    intro fits
    have bound := fits.value
    rw [oversized, List.length_replicate] at bound
    exact absurd bound (by decide)
  have refused : ((ofBlockSize blockSize).add oversized).fault ≠ none :=
    fun fine => tooLong (TableBuilder.fault_add_iff.mp fine).1
  exact ⟨refused, state_of_refused refused⟩

/-- Entries that are offered after the one that is too long. The second one stands before the first. -/
def inTurn : List Entry :=
  [⟨⟨[98]⟩, 2, .put, [1]⟩, ⟨⟨[97]⟩, 3, .delete, []⟩, ⟨⟨[99]⟩, 4, .delete, []⟩]

/-- Behind an entry that was taken, nothing shows that another one was refused before it. -/
theorem traces_of_refusals_inTurn :
    (ofBlockSize 64).taken (oversized :: inTurn) = [⟨⟨[98]⟩, 2, .put, [1]⟩, ⟨⟨[99]⟩, 4, .delete, []⟩] ∧
      ∃ table after opened,
        ((ofBlockSize 64).offerAll (oversized :: inTurn)).build .empty "t" = .ok (table, after) ∧
          Table.openPath after "t" = .ok opened ∧ opened.firstKey = table.firstKey ∧
          opened.lastKey = table.lastKey := by
  obtain ⟨refused, state⟩ := add_oversized 64
  have isLeft : (ofBlockSize 64).offerAll (oversized :: inTurn) =
      ((ofBlockSize 64).noting ⟨[97]⟩).offerAll inTurn := by
    rw [offerAll, List.foldl_cons, state, ← offerAll]
  have isTaken : (ofBlockSize 64).taken (oversized :: inTurn) =
      [⟨⟨[98]⟩, 2, .put, [1]⟩, ⟨⟨[99]⟩, 4, .delete, []⟩] := by
    rw [taken, if_neg refused, state]
    decide +kernel
  obtain ⟨_, _, clean, _, _, builds⟩ := traces_of_refusals isLeft isTaken
  obtain ⟨_, opens⟩ := builds .empty "t"
  have isPath : Path.parse "t" = .ok ⟨["t"], false⟩ := by decide +kernel
  rw [isLeft]
  cases built : (((ofBlockSize 64).noting ⟨[97]⟩).offerAll inTurn).build .empty "t" with
  | error fault =>
    have succeeds : ((((ofBlockSize 64).noting ⟨[97]⟩).offerAll inTurn).build .empty "t").toBool =
        true := by decide +kernel
    rw [built] at succeeds
    cases succeeds
  | ok result =>
    obtain ⟨table, after⟩ := result
    obtain ⟨_, written, _⟩ := of_build built
    have found := Disk.find_of_write written isPath rfl
    obtain ⟨opened, isOpened, lastKey, firstKey⟩ :=
      opens table after Disk.sound_empty built after "t" (Disk.read_eq_ok_iff.mpr ⟨_, found, rfl⟩)
    exact ⟨isTaken, table, after, opened, rfl, isOpened, firstKey.mpr (Or.inl (by simp)), lastKey⟩

/-- The key of an entry that is too long stays if no other entry is offered. The returned table shows it,
and the table that its file opens as does not. -/
theorem firstKey_of_oversized :
    (ofBlockSize 64).taken [oversized] = [] ∧
      (((ofBlockSize 64).offerAll [oversized]).build .empty "t").toOption.map
        (fun (table, after) => (table.firstKey, (Table.openPath after "t").toOption.map
          Table.firstKey)) = some (⟨[97]⟩, some .empty) ∧
      (((ofBlockSize 64).addAll []).state.build .empty "t").toOption.map
        (fun (table, _) => table.firstKey) = some .empty := by
  obtain ⟨refused, left⟩ := add_oversized 64
  refine ⟨?_, ?_, ?_⟩
  · simp [taken, refused]
  · rw [offerAll, List.foldl_cons, left]
    decide +kernel
  · decide +kernel

end TableBuilder

end SortedTables
