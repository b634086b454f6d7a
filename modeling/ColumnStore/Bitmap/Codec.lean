import ColumnStore.Bitmap
import ColumnStore.Bytes

/-!
# Stored bitmaps

A bitmap is stored as its number of words, four bytes wide, and then its words, eight bytes each.
-/

namespace ColumnStore

namespace Bitmap

/-- The stored form (`write_to`). -/
def encode (b : Bitmap) : Bytes :=
  Bytes.ofNat 4 b.words.size ++ b.words.toList.flatMap fun w => Bytes.ofNat 8 w.toNat

/-- Bytes in the stored form (`serialized_size`). -/
def encodedSize (b : Bitmap) : Nat := 4 + b.words.size * 8

/-- The words that bytes stand for, eight bytes each. -/
def wordsOf : Bytes → List Word
  | b0 :: b1 :: b2 :: b3 :: b4 :: b5 :: b6 :: b7 :: rest =>
    UInt64.ofNat (Bytes.toNat [b0, b1, b2, b3, b4, b5, b6, b7]) :: wordsOf rest
  | _ => []

/-- Reads a stored bitmap (`bitmap`). -/
def read : Reader Bitmap := do
  let count ← Reader.nat 4 "Bitmap header"
  let body ← Reader.take (count * 8) "Bitmap data"
  pure ⟨(wordsOf body).toArray⟩

/-- The bitmap stored at the front of `bytes` (`from_bytes`). -/
def decode (bytes : Bytes) : Except Corruption Bitmap := (read bytes).map Prod.fst

end Bitmap

end ColumnStore
