import ColumnStore.Bitmap.Codec
import ColumnStore.Segment.Codec
import ColumnStore.Table

/-!
# Writing snapshots

A snapshot holds everything in a table but the predicates of its indexes. In order:

* the four bytes of the magic, the version in two bytes, the chunk size and the number of chunks in
  four bytes each;
* the number of columns in four bytes and the columns sorted by name: name, kind in one byte, the
  dictionary if the kind has one, and the segment of every chunk;
* the number of indexes in four bytes and the indexes sorted by name: name, name of the source, and
  the bitmap of every chunk;
* the row watermark and the number of live rows in eight bytes each, and every chunk's bitmap of
  live rows.

A chunk that has not caught up with the schema is written as if its missing parts were empty.
-/

namespace ColumnStore

namespace Snapshot

/-- The first bytes of a snapshot: `KLSN`. -/
def magic : Bytes := [0x4b, 0x4c, 0x53, 0x4e]

/-- The version of the format. -/
def version : Nat := 1

/-- A column: its name, kind, dictionary and segments. -/
def encodeColumn (table : Table) (slot : Nat) (column : Column) : Bytes :=
  Bytes.ofString 4 column.name ++ Bytes.ofNat 1 column.kind.code
    ++ (if column.kind = .enum then (table.dictionary slot).encode else [])
    ++ table.chunks.toList.flatMap fun chunk =>
      (chunk.columns[slot]?.getD (.withCapacity column.kind 0)).encode

/-- An index: its name, its source and its bitmaps. -/
def encodeIndex (table : Table) (slot : Nat) (index : Index) : Bytes :=
  Bytes.ofString 4 index.name ++ Bytes.ofString 4 index.source
    ++ table.chunks.toList.flatMap fun chunk => (chunk.indexes[slot]?.getD .empty).encode

/-- The live rows, counted in the chunks. -/
def liveRows (table : Table) : Nat :=
  (table.chunks.toList.map fun chunk => chunk.fill.count).foldr (· + ·) 0

/-- The snapshot of a table whose chunks have `chunkSize` rows (`snapshot`). -/
def encode (chunkSize : Nat) (table : Table) : Bytes :=
  magic ++ Bytes.ofNat 2 version ++ Bytes.ofNat 4 chunkSize ++ Bytes.ofNat 4 table.chunks.size
    ++ Bytes.ofNat 4 table.schema.columns.size
    ++ (table.schema.sortedColumns.flatMap fun (slot, column) => encodeColumn table slot column)
    ++ Bytes.ofNat 4 table.schema.indexes.size
    ++ (table.schema.sortedIndexes.flatMap fun (slot, index) => encodeIndex table slot index)
    ++ Bytes.ofNat 8 (min table.nextRow (table.chunks.size * chunkSize))
    ++ Bytes.ofNat 8 (liveRows table)
    ++ table.chunks.toList.flatMap fun chunk => chunk.fill.encode

end Snapshot

end ColumnStore
