import ColumnStore.Bytes

/-!
# Dictionaries

A dictionary gives each distinct text of a column an id, counted from 0 in the order in which the
texts first came. Rows store ids, and a predicate is asked once per text.

The texts lie one after the other in a single run of bytes, and each entry says where its text is.
A dictionary read from bytes may have entries that overlap or repeat; its run of bytes is kept as it
came, so writing it gives the same bytes again. When one text has several ids, looking it up gives
the greatest.

Every entry has its text here, and an id is found by going through the entries. `Interner` does the
same with a map from texts to ids, and with texts that are cut out of the bytes.
-/

namespace ColumnStore

namespace Dictionary

/-- Where a text lies in the run of bytes, and the text. -/
structure Entry where
  offset : Nat
  length : Nat
  text : String
deriving DecidableEq, Inhabited

end Dictionary

/-- The distinct texts of a column, by id (`StringTable`). -/
structure Dictionary where
  data : Array UInt8
  entries : Array Dictionary.Entry
deriving DecidableEq, Inhabited

namespace Dictionary

/-- No texts (`new`). -/
def empty : Dictionary := ⟨#[], #[]⟩

/-- Number of ids given out (`len`). -/
def size (d : Dictionary) : Nat := d.entries.size

/-- Whether no id was given out (`is_empty`). -/
def isEmpty (d : Dictionary) : Bool := d.entries.isEmpty

/-- The text of an id (`get`). -/
def get? (d : Dictionary) (id : Nat) : Option String := d.entries[id]?.map Entry.text

/-- The greatest id below `n` whose text is `s`. -/
def lookupBelow (entries : Array Entry) (s : String) : (n : Nat) → Option Nat
  | 0 => none
  | n + 1 =>
    match entries[n]? with
    | some entry => if entry.text = s then some n else lookupBelow entries s n
    | none => lookupBelow entries s n

/-- The id of a text (`lookup`). -/
def lookup (d : Dictionary) (s : String) : Option Nat := lookupBelow d.entries s d.size

/-- The dictionary with one more text at its end. -/
def push (d : Dictionary) (s : String) : Dictionary :=
  let offset := d.data.size
  ⟨d.data ++ s.toUTF8.data, d.entries.push ⟨offset, s.utf8ByteSize, s⟩⟩

/-- The id of a text, which is given the next id if it has none, and the dictionary then
    (`intern`). -/
def intern (d : Dictionary) (s : String) : Nat × Dictionary :=
  match d.lookup s with
  | some id => (id, d)
  | none => (d.size, d.push s)

/-- What `f` says of each text, by id (`evaluate`). -/
def evaluate (d : Dictionary) (f : String → Bool) : Array Bool :=
  d.entries.map fun entry => f entry.text

/-! ## Stored form

The number of entries and the size of the run of bytes, four bytes each; then offset and length of
every entry, four bytes each; then the run of bytes. -/

/-- The stored form of one entry. -/
def Entry.encode (entry : Entry) : Bytes :=
  Bytes.ofNat 4 entry.offset ++ Bytes.ofNat 4 entry.length

/-- The stored form (`write_to`). -/
def encode (d : Dictionary) : Bytes :=
  Bytes.ofNat 4 d.entries.size ++ Bytes.ofNat 4 d.data.size
    ++ d.entries.toList.flatMap Entry.encode ++ d.data.toList

/-- Bytes in the stored form (`serialized_size`). -/
def encodedSize (d : Dictionary) : Nat := 4 + 4 + d.entries.size * 8 + d.data.size

/-- The places that bytes stand for, eight bytes each. -/
def placesOf : Bytes → List (Nat × Nat)
  | o0 :: o1 :: o2 :: o3 :: l0 :: l1 :: l2 :: l3 :: rest =>
    (Bytes.toNat [o0, o1, o2, o3], Bytes.toNat [l0, l1, l2, l3]) :: placesOf rest
  | _ => []

/-- The entry whose text lies at a place of the run of bytes. -/
def entryAt (data : Array UInt8) (place : Nat × Nat) : Except Corruption Entry :=
  let (offset, length) := place
  if data.size < offset + length then .error .dictionaryEntry
  else
    match String.fromUTF8? ⟨data.extract offset (offset + length)⟩ with
    | some text => .ok ⟨offset, length, text⟩
    | none => .error (.invalidText "String table")

/-- Reads a stored dictionary (`string_table`). -/
def read : Reader Dictionary := do
  Reader.requireLeft 8 .dictionaryHeader
  let count ← Reader.nat 4 "String table header"
  let dataSize ← Reader.nat 4 "String table header"
  let places ← Reader.take (count * 8) "String table entries"
  let data ← Reader.take dataSize "String table data"
  let data := data.toArray
  let entries ← (placesOf places).mapM fun place => liftM (entryAt data place)
  pure ⟨data, entries.toArray⟩

/-- The dictionary stored at the front of `bytes` (`from_bytes`). -/
def decode (bytes : Bytes) : Except Corruption Dictionary := (read bytes).map Prod.fst

end Dictionary

end ColumnStore
