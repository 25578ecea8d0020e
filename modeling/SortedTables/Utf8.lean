import SortedTables.Bytes

/-!
# UTF-8 text

A dump is text, and text is stored as UTF-8. `decode?_eq_some_iff` says that reading accepts exactly
what writing produces, so a byte string denotes at most one text.
-/

namespace SortedTables.Utf8

/-- The bytes of a text. -/
def encode (text : List Char) : Bytes :=
  text.flatMap String.utf8EncodeChar

/-- The text with the given bytes, or `none` when they are not valid UTF-8. -/
def decode? (bytes : Bytes) : Option (List Char) :=
  bytes.toByteArray.utf8Decode?.map Array.toList

theorem encode_append (left right : List Char) :
    encode (left ++ right) = encode left ++ encode right := by
  simp [encode]

/-- Byte arrays built from different lists differ. -/
private theorem toByteArray_inj {left right : Bytes}
    (same : left.toByteArray = right.toByteArray) : left = right := by
  have contents := congrArg (fun array => array.data.toList) same
  simpa using contents

/-- Reading accepts exactly what writing produces. -/
theorem decode?_eq_some_iff {bytes : Bytes} {text : List Char} :
    decode? bytes = some text ↔ bytes = encode text := by
  have round (written : List Char) : decode? (encode written) = some written := by
    have read := List.utf8Decode?_utf8Encode (l := written)
    simp only [List.utf8Encode] at read
    simp [decode?, encode, read]
  constructor
  · intro accepted
    have valid : bytes.toByteArray.utf8Decode?.isSome = true := by
      cases found : bytes.toByteArray.utf8Decode? with
      | none => simp [decode?, found] at accepted
      | some _ => rfl
    obtain ⟨written, same⟩ := ByteArray.isSome_utf8Decode?_iff.mp valid
    have stored : bytes = encode written := by
      apply toByteArray_inj
      simpa [encode, List.utf8Encode] using same
    rw [stored, round] at accepted
    rw [stored, Option.some.inj accepted]
  · rintro rfl
    exact round text

end SortedTables.Utf8
