import ColumnStore.Kind

/-!
# Faults of stored bytes

Everything that can be wrong with the bytes of a snapshot or of one of its parts, and the text that
explains it.
-/

namespace ColumnStore

/-- Why bytes cannot be read as a snapshot or as one of its parts. -/
inductive Corruption where
  /-- The bytes end inside the named part. -/
  | truncated (part : String)
  /-- The named text is not UTF-8. -/
  | invalidText (part : String)
  /-- The header of a dictionary is cut short. -/
  | dictionaryHeader
  /-- A dictionary entry reaches past the dictionary's text. -/
  | dictionaryEntry
  | unknownKind (code : Nat)
  | segmentKind (found expected : Kind)
  | segmentCapacity (found limit : Nat)
  /-- A segment marks an offset present that is past its capacity. -/
  | segmentPresence
  /-- The encoding of a stored value is malformed. -/
  | invalidValue
  /-- The bytes do not start as a snapshot does. -/
  | magic
  | version (found : Nat)
  | chunkSize (found expected : Nat)
  /-- More chunks are declared than the bytes could hold. -/
  | chunkCount (found : Nat)
  /-- A row of the column stores an id that its dictionary does not have. -/
  | danglingString (column : String)
  | duplicateName (name : String)
  | unknownSource (index source : String)
  | indexLength (index : String)
  /-- The watermark lies past the last chunk. -/
  | watermark (found chunks : Nat)
  | fillLength (chunk : Nat)
  /-- A chunk has live rows at or past the watermark. -/
  | unallocatedRow (chunk : Nat)
  | liveCount (found counted : Nat)
  /-- Bytes are left over after the snapshot. -/
  | trailing (count : Nat)
deriving DecidableEq

namespace Corruption

/-- The text that explains a fault. -/
def message : Corruption → String
  | truncated part => s!"{part} truncated"
  | invalidText part => s!"{part} contains invalid UTF-8"
  | dictionaryHeader => "String table too small"
  | dictionaryEntry => "String table entry out of bounds"
  | unknownKind code => s!"Unknown column kind: {code}"
  | segmentKind found expected =>
    s!"Segment kind {found.name} does not match column kind {expected.name}"
  | segmentCapacity found limit => s!"Segment capacity {found} exceeds chunk size {limit}"
  | segmentPresence => "Segment presence exceeds capacity"
  | invalidValue => "Invalid any value"
  | magic => "Invalid snapshot magic"
  | version found => s!"Unsupported snapshot version: {found}"
  | chunkSize found expected =>
    s!"Snapshot chunk size {found} does not match collection chunk size {expected}"
  | chunkCount found => s!"Chunk count {found} exceeds snapshot size"
  | danglingString column => s!"Column '{column}' references a string outside its dictionary"
  | duplicateName name => s!"Duplicate name in snapshot: '{name}'"
  | unknownSource index source => s!"Index '{index}' refers to unknown column '{source}'"
  | indexLength index => s!"Index '{index}' bitmap exceeds chunk size"
  | watermark found chunks => s!"Row watermark {found} exceeds {chunks} chunks"
  | fillLength chunk => s!"Chunk {chunk} fill bitmap exceeds chunk size"
  | unallocatedRow chunk => s!"Chunk {chunk} has rows beyond the row watermark"
  | liveCount found counted =>
    s!"Live row count {found} does not match fill bitmaps ({counted})"
  | trailing count => s!"{count} trailing bytes after snapshot"

end Corruption

end ColumnStore
