import ColumnStore.Snapshot.Encode

/-!
# Reading snapshots

A snapshot is read and checked to its last byte before anything is made of it, so that bytes which
are refused leave no trace. Beside the form of its parts it is checked that

* the chunk size is that of the collection and every bitmap fits it;
* ids lie within their dictionaries;
* no name occurs twice and the source of every index is a column;
* live rows lie below the watermark and are as many as stated;
* no byte is left over.

An index whose name and source the collection has registered takes the registered predicate; where
its bitmap disagrees with the predicate, it is computed anew. Any other index is detached.
-/

namespace ColumnStore

namespace Snapshot

/-- A column as it is read: its name and kind, its dictionary and one segment per chunk. -/
structure StoredColumn where
  column : Column
  dictionary : Dictionary
  segments : List Segment

/-- An index as it is read, with one bitmap per chunk. -/
structure StoredIndex where
  index : Index
  bitmaps : List Bitmap

/-- Whether every id of a segment is in a dictionary of `size` texts. -/
def idsBelow (segment : Segment) (size : Nat) : Bool :=
  segment.presence.toList.all fun offset => (segment.enumAt offset).any (· < size)

/-- Reads the dictionary of a column, which only one kind has. -/
def readDictionary (kind : Kind) : Reader Dictionary :=
  if kind = .enum then Dictionary.read else pure .empty

/-- Reads one segment of a column and checks its ids. -/
def readSegment (column : Column) (dictionary : Dictionary) (chunkSize : Nat) :
    Reader Segment := do
  let segment ← Segment.read column.kind chunkSize
  Reader.require (column.kind != .enum || idsBelow segment dictionary.size)
    (.danglingString column.name)
  pure segment

/-- Reads a column with its segments. -/
def readColumn (chunkSize chunkCount : Nat) : Reader StoredColumn := do
  let name ← Reader.string "column name"
  let code ← Reader.nat 1 "column kind"
  match Kind.ofCode? code with
  | none => Reader.fail (.unknownKind code)
  | some kind =>
    let dictionary ← readDictionary kind
    let column : Column := ⟨name, kind⟩
    let segments ← Reader.replicate (readSegment column dictionary chunkSize) chunkCount
    pure ⟨column, dictionary, segments⟩

/-- Reads `n` columns behind those in a schema. Fails at a name that is taken. -/
def readColumns (chunkSize chunkCount : Nat) :
    (n : Nat) → Schema → Reader (Schema × List StoredColumn)
  | 0, schema => pure (schema, [])
  | n + 1, schema => do
    let stored ← readColumn chunkSize chunkCount
    match schema.addColumn stored.column with
    | .error _ => Reader.fail (.duplicateName stored.column.name)
    | .ok schema =>
      let (schema, rest) ← readColumns chunkSize chunkCount n schema
      pure (schema, stored :: rest)

/-- The predicate registered for an index of a name and source. -/
def registered? (registered : Schema) (name source : String) : Option (Value → Bool) :=
  match registered.index? name with
  | some (_, index) => if index.source = source then index.predicate else none
  | none => none

/-- Reads one bitmap of an index. -/
def readIndexBitmap (name : String) (chunkSize : Nat) : Reader Bitmap := do
  let bits ← Bitmap.read
  Reader.require (bits.capacity ≤ chunkSize) (.indexLength name)
  pure bits

/-- Reads an index with its bitmaps. -/
def readIndex (registered schema : Schema) (chunkSize chunkCount : Nat) : Reader StoredIndex := do
  let name ← Reader.string "index name"
  let source ← Reader.string "index source"
  match schema.column? source with
  | none => Reader.fail (.unknownSource name source)
  | some (slot, _) =>
    let bitmaps ← Reader.replicate (readIndexBitmap name chunkSize) chunkCount
    pure ⟨⟨name, source, slot, registered? registered name source⟩, bitmaps⟩

/-- Reads `n` indexes behind those in a schema. Fails at a name that is taken. -/
def readIndexes (registered : Schema) (chunkSize chunkCount : Nat) :
    (n : Nat) → Schema → Reader (Schema × List StoredIndex)
  | 0, schema => pure (schema, [])
  | n + 1, schema => do
    let stored ← readIndex registered schema chunkSize chunkCount
    match schema.addIndex stored.index with
    | .error _ => Reader.fail (.duplicateName stored.index.name)
    | .ok schema =>
      let (schema, rest) ← readIndexes registered chunkSize chunkCount n schema
      pure (schema, stored :: rest)

/-- Reads the bitmap of the live rows of chunk `id`. -/
def readFill (chunkSize watermark id : Nat) : Reader Bitmap := do
  let fill ← Bitmap.read
  Reader.require (fill.capacity ≤ chunkSize) (.fillLength id)
  Reader.require (fill.toList.all fun offset => id * chunkSize + offset < watermark)
    (.unallocatedRow id)
  pure fill

/-- Reads the bitmaps of the live rows of `n` chunks from chunk `id` on. -/
def readFills (chunkSize watermark : Nat) : (n id : Nat) → Reader (List Bitmap)
  | 0, _ => pure []
  | n + 1, id => do
    let fill ← readFill chunkSize watermark id
    let rest ← readFills chunkSize watermark n (id + 1)
    pure (fill :: rest)

/-- The parts of chunk `id`, put together. -/
def assemble (chunkSize : Nat) (columns : List (Array Segment)) (indexes : List (Array Bitmap))
    (id : Nat) (fill : Bitmap) : Chunk :=
  Chunk.restore chunkSize fill (columns.filterMap (·[id]?)).toArray
    (indexes.filterMap (·[id]?)).toArray

/-- Computes an index anew in a chunk where its bitmap does not list the rows that its predicate
    picks. A detached index stays. -/
def revalidateChunk (slot : Nat) (index : Index) (dictionary : Dictionary)
    (answers : Option (Array Bool)) (chunk : Chunk) : Chunk :=
  match chunk.columns[index.sourceSlot]?.bind fun s => index.compute dictionary s answers with
  | none => chunk
  | some computed =>
    if (chunk.indexes[slot]?.map Bitmap.toList) = some computed.toList then chunk
    else chunk.setIndex slot computed

/-- Makes every index with a predicate agree with it (`revalidate`). -/
def revalidate (table : Table) : Table :=
  { table with
    chunks := table.schema.indexes.toList.zipIdx.foldl
      (fun chunks (index, slot) =>
        let dictionary := table.dictionary index.sourceSlot
        let answers := table.indexTable index
        chunks.map (revalidateChunk slot index dictionary answers))
      table.chunks }

/-- Reads a whole snapshot for a collection with the given chunk size and schema. -/
def read (chunkSize : Nat) (registered : Schema) : Reader Table := do
  let front ← Reader.take 4 "magic"
  Reader.require (front = magic) .magic
  let found ← Reader.nat 2 "version"
  Reader.require (found = version) (.version found)
  let size ← Reader.nat 4 "chunk size"
  Reader.require (size = chunkSize) (.chunkSize size chunkSize)
  let chunkCount ← Reader.nat 4 "chunk count"
  Reader.requireLeft (chunkCount * 4) (.chunkCount chunkCount)
  let columnCount ← Reader.nat 4 "column count"
  let (schema, columns) ← readColumns chunkSize chunkCount columnCount .empty
  let indexCount ← Reader.nat 4 "index count"
  let (schema, indexes) ← readIndexes registered chunkSize chunkCount indexCount schema
  let watermark ← Reader.nat 8 "row watermark"
  let live ← Reader.nat 8 "live count"
  Reader.require (watermark ≤ chunkCount * chunkSize) (.watermark watermark chunkCount)
  let fills ← readFills chunkSize watermark chunkCount 0
  let counted := (fills.map Bitmap.count).foldr (· + ·) 0
  Reader.require (counted = live) (.liveCount live counted)
  Reader.finish
  let segments := columns.map fun stored => stored.segments.toArray
  let bitmaps := indexes.map fun stored => stored.bitmaps.toArray
  pure (revalidate
    { schema
      dictionaries := (columns.map StoredColumn.dictionary).toArray
      chunks := (fills.zipIdx.map fun (fill, id) =>
        assemble chunkSize segments bitmaps id fill).toArray
      nextRow := watermark
      live })

/-- The table that a snapshot holds (`decode`). -/
def decode (chunkSize : Nat) (registered : Schema) (bytes : Bytes) : Except Corruption Table :=
  (read chunkSize registered bytes).map Prod.fst

end Snapshot

end ColumnStore
