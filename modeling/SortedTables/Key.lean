import SortedTables.Bytes

/-!
# Keys

A key is a byte string, the empty one included. Keys are ordered like words in a dictionary, byte by
byte, a key that another one starts with coming first. The order is decidable and total
(`Key.lt_trichotomy`), and `Key.sharedLength` counts the bytes two keys start with in common, which
is what blocks leave out when they store a key.
-/

namespace SortedTables

/-- A byte string under which an entry is stored. -/
structure Key where
  /-- The bytes of the key. -/
  bytes : Bytes
deriving DecidableEq, Inhabited

namespace Key

/-- The key without bytes, the least of all. -/
def empty : Key := ⟨[]⟩

/-- Whether one byte string stands before another in dictionary order. -/
def precedes : Bytes → Bytes → Bool
  | _, [] => false
  | [], _ :: _ => true
  | a :: left, b :: right => a < b || (a == b && precedes left right)

instance : LT Key := ⟨fun left right => precedes left.bytes right.bytes = true⟩

instance : LE Key := ⟨fun left right => ¬ right < left⟩

instance (left right : Key) : Decidable (left < right) :=
  inferInstanceAs (Decidable (precedes left.bytes right.bytes = true))

instance (left right : Key) : Decidable (left ≤ right) :=
  inferInstanceAs (Decidable (¬ right < left))

/-- How two keys stand to each other. -/
def order (left right : Key) : Ordering :=
  if left < right then .lt else if left = right then .eq else .gt

/-- The number of bytes in a key. -/
def size (key : Key) : Nat :=
  key.bytes.length

/-- The key followed by further bytes. -/
def append (key : Key) (more : Bytes) : Key :=
  ⟨key.bytes ++ more⟩

/-- How many bytes two keys start with in common. -/
def sharedLength (left right : Key) : Nat :=
  ((left.bytes.zip right.bytes).takeWhile fun pair => pair.1 == pair.2).length

theorem lt_irrefl (key : Key) : ¬ key < key := by
  suffices general : ∀ bytes : Bytes, precedes bytes bytes = false by
    change ¬ precedes key.bytes key.bytes = true
    simp [general]
  intro bytes
  induction bytes with
  | nil => rfl
  | cons a rest ih => simp [precedes, ih]

theorem lt_trans {first second third : Key} (left : first < second) (right : second < third) :
    first < third := by
  suffices general : ∀ a b c : Bytes, precedes a b = true → precedes b c = true →
      precedes a c = true from general _ _ _ left right
  intro a
  induction a with
  | nil =>
    intro b c _ after
    cases c with
    | nil => cases b <;> simp [precedes] at after
    | cons _ _ => rfl
  | cons x a ih =>
    intro b c before after
    cases b with
    | nil => simp [precedes] at before
    | cons y b =>
      cases c with
      | nil => simp [precedes] at after
      | cons z c =>
        simp only [precedes, Bool.or_eq_true, decide_eq_true_eq, Bool.and_eq_true,
          beq_iff_eq] at before after ⊢
        rcases before with low | ⟨rfl, before⟩
        · rcases after with high | ⟨rfl, _⟩
          · exact Or.inl (UInt8.lt_trans low high)
          · exact Or.inl low
        · rcases after with high | ⟨rfl, after⟩
          · exact Or.inl high
          · exact Or.inr ⟨rfl, ih _ _ before after⟩

/-- Two keys are equal unless one stands before the other. -/
theorem lt_trichotomy (left right : Key) : left < right ∨ left = right ∨ right < left := by
  suffices general : ∀ a b : Bytes, precedes a b = true ∨ a = b ∨ precedes b a = true by
    rcases general left.bytes right.bytes with before | same | after
    · exact Or.inl before
    · exact Or.inr (Or.inl (by cases left; cases right; simpa using same))
    · exact Or.inr (Or.inr after)
  intro a
  induction a with
  | nil =>
    intro b
    cases b with
    | nil => exact Or.inr (Or.inl rfl)
    | cons _ _ => exact Or.inl rfl
  | cons x a ih =>
    intro b
    cases b with
    | nil => exact Or.inr (Or.inr rfl)
    | cons y b =>
      simp only [precedes, Bool.or_eq_true, decide_eq_true_eq, Bool.and_eq_true, beq_iff_eq,
        List.cons.injEq]
      by_cases low : x < y
      · exact Or.inl (Or.inl low)
      · by_cases high : y < x
        · exact Or.inr (Or.inr (Or.inl high))
        · have same : x = y := UInt8.le_antisymm (UInt8.not_lt.mp high) (UInt8.not_lt.mp low)
          subst same
          rcases ih b with before | rfl | after
          · exact Or.inl (Or.inr ⟨rfl, before⟩)
          · exact Or.inr (Or.inl ⟨rfl, rfl⟩)
          · exact Or.inr (Or.inr (Or.inr ⟨rfl, after⟩))

/-- The bytes of a key in decimal, as a bracketed list. -/
def text (key : Key) : String :=
  "[" ++ String.intercalate ", " (key.bytes.map fun byte => toString byte.toNat) ++ "]"

end Key

end SortedTables
