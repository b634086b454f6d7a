import ColumnStore.Schema
import ColumnStore.Update

/-!
# Chunks

A chunk holds `chunkSize` consecutive rows, or fewer if it is the last: one segment per column, one
bitmap per index and the bitmap of the rows that are live, all addressed by the row's offset in the
chunk. Segments and index bitmaps lie in the order of the schema's slots.

A chunk starts with room for few rows and doubles when a row needs more. It may have been made under
an older schema; before a write it catches up, and a read takes a missing segment for an empty one.

The decoding of texts needs the dictionaries, which are shared by all chunks and come as an
argument, by slot.
-/

namespace ColumnStore

/-- A horizontal part of a collection. -/
structure Chunk where
  chunkSize : Nat
  capacity : Nat
  fill : Bitmap
  columns : Array Segment
  indexes : Array Bitmap

namespace Chunk

/-- The least capacity of a chunk (`MIN_CHUNK_CAPACITY`). -/
def minCapacity : Nat := 64

/-- The least power of two that is at least `n`. -/
def powerOfTwoFrom (n : Nat) : Nat := if n ≤ 1 then 1 else 1 <<< ((n - 1).log2 + 1)

/-- A capacity brought between the least one and the chunk size. -/
def clampCapacity (chunkSize capacity : Nat) : Nat :=
  min (max capacity (min minCapacity chunkSize)) chunkSize

/-- The dictionary of a column by its slot. -/
def dictionaryOf (dictionaries : Array Dictionary) (slot : Nat) : Dictionary :=
  dictionaries[slot]?.getD .empty

/-- Adds empty segments and bitmaps for the columns and indexes that came after the chunk
    (`sync`). -/
def sync (chunk : Chunk) (schema : Schema) : Chunk :=
  let late := (schema.columns.extract chunk.columns.size schema.columns.size).map
    fun column => Segment.withCapacity column.kind chunk.capacity
  let missing := schema.indexes.size - chunk.indexes.size
  { chunk with
    columns := chunk.columns ++ late
    indexes := chunk.indexes ++ Array.replicate missing (.withCapacity chunk.capacity) }

/-- A chunk without rows (`new`). -/
def new (chunkSize capacity : Nat) (schema : Schema) : Chunk :=
  let capacity := clampCapacity chunkSize capacity
  sync ⟨chunkSize, capacity, .withCapacity capacity, #[], #[]⟩ schema

/-- Every part with room for `capacity` rows. -/
def growTo (chunk : Chunk) (capacity : Nat) : Chunk :=
  { chunk with
    capacity := capacity
    fill := chunk.fill.grow capacity
    columns := chunk.columns.map (·.grow capacity)
    indexes := chunk.indexes.map (·.grow capacity) }

/-- A chunk made of parts read from bytes, with room for the largest of them (`restore`). -/
def restore (chunkSize : Nat) (fill : Bitmap) (columns : Array Segment) (indexes : Array Bitmap) :
    Chunk :=
  let widest := max (columns.foldl (fun n segment => max n segment.capacity) fill.capacity)
    (indexes.foldl (fun n bits => max n bits.capacity) 0)
  growTo ⟨chunkSize, 0, fill, columns, indexes⟩ (clampCapacity chunkSize (powerOfTwoFrom widest))

/-- Makes an offset addressable, doubling up to the chunk size (`grow_for`). -/
def growFor (chunk : Chunk) (offset : Nat) : Except Error Unit × Chunk :=
  if offset < chunk.capacity then (.ok (), chunk)
  else if chunk.chunkSize ≤ offset then (.error (.outOfRange offset chunk.chunkSize), chunk)
  else
    (.ok (), chunk.growTo (min (max (powerOfTwoFrom (offset + 1)) minCapacity) chunk.chunkSize))

/-- The offsets that a selector keeps: an index's bitmap, the rows holding `true` of a column of
    truth values, the rows present in any other column. -/
def selected (chunk : Chunk) : Slot → Option Bitmap
  | .index slot => chunk.indexes[slot]?
  | .column slot => chunk.columns[slot]?.map Segment.truthy

/-- The part of a selection that a selector keeps (`and_selector`). A chunk older than the selector
    has no such rows. -/
def select (chunk : Chunk) (slot : Slot) (selection : Bitmap) : Bitmap :=
  match chunk.selected slot with
  | some bits => selection.and bits
  | none => selection.reset

/-- The part of a selection that a filter over the segment in a slot keeps. -/
def filterColumn (chunk : Chunk) (slot : Nat) (filter : Segment → Bitmap → Bitmap)
    (selection : Bitmap) : Bitmap :=
  match chunk.columns[slot]? with
  | some segment => filter segment selection
  | none => selection.reset

/-! ## Writing -/

/-- Brings every index over a source column up to date for one row (`reindex`). A detached index
    cannot tell, and the row leaves it. -/
def reindex (chunk : Chunk) (schema : Schema) (dictionaries : Array Dictionary)
    (offset source : Nat) : Chunk :=
  let cell : Option Cell :=
    match chunk.columns[source]? with
    | some segment => (segment.valueAt offset).toOption.join
    | none => none
  let dictionary := dictionaryOf dictionaries source
  { chunk with
    indexes := (schema.indexesOn source).foldl
      (fun indexes (slot, index) =>
        let hit := (index.evaluateCell dictionary cell).getD false
        indexes.modify slot fun bits => bits.assign offset hit)
      chunk.indexes }

/-- Writes a cell, or nothing, into the segment in a slot. Fails, and changes nothing, if there is
    no such segment or if the segment refuses the cell. -/
def writeCell (chunk : Chunk) (slot : Nat) (column : String) (offset : Nat) (cell : Option Cell) :
    Except Error Unit × Chunk :=
  let checked : Except Error Unit :=
    match chunk.columns[slot]? with
    | some segment => segment.checkWrite offset cell
    | none => .error (.unknownColumn column)
  match checked with
  | .error e => (.error (e.onColumn column), chunk)
  | .ok () =>
    (.ok (), { chunk with columns := chunk.columns.modify slot fun s => s.write offset cell })

/-- Writes cells into their slots, in order, up to the first that is refused. -/
def writeCells (chunk : Chunk) (offset : Nat) : List (Nat × Cell) → Except Error Unit × Chunk
  | [] => (.ok (), chunk)
  | (slot, cell) :: rest =>
    match chunk.writeCell slot "" offset (some cell) with
    | (.error e, chunk) => (.error e, chunk)
    | (.ok (), chunk) => chunk.writeCells offset rest

/-- Makes an offset a live row with the given cells and brings the indexes over their columns up to
    date (`insert`). -/
def insert (chunk : Chunk) (schema : Schema) (dictionaries : Array Dictionary) (offset : Nat)
    (cells : List (Nat × Cell)) : Except Error Unit × Chunk :=
  match (chunk.sync schema).growFor offset with
  | (.error e, chunk) => (.error e, chunk)
  | (.ok (), chunk) =>
    match chunk.writeCells offset cells with
    | (.error e, chunk) => (.error e, chunk)
    | (.ok (), chunk) =>
      let chunk := { chunk with fill := chunk.fill.set offset }
      (.ok (), cells.foldl (fun chunk (slot, _) => chunk.reindex schema dictionaries offset slot)
        chunk)

/-- Writes one cell, or nothing, for a row that is there, and brings the indexes over its column up
    to date (`update`). -/
def update (chunk : Chunk) (schema : Schema) (dictionaries : Array Dictionary) (offset slot : Nat)
    (column : Column) (cell : Option Cell) : Except Error Unit × Chunk :=
  match (chunk.sync schema).writeCell slot column.name offset cell with
  | (.error e, chunk) => (.error e, chunk)
  | (.ok (), chunk) => (.ok (), chunk.reindex schema dictionaries offset slot)

/-- Puts a bitmap in the place of an index's (`set_index`). -/
def setIndex (chunk : Chunk) (slot : Nat) (bits : Bitmap) : Chunk :=
  let missing := slot + 1 - chunk.indexes.size
  { chunk with
    indexes := (chunk.indexes ++ Array.replicate missing Bitmap.empty).modify slot fun _ => bits }

/-- Computes an index's bitmap anew (`rebuild_index`). A detached index keeps the one it has. -/
def rebuildIndex (chunk : Chunk) (slot : Nat) (index : Index) (dictionary : Dictionary)
    (table : Option (Array Bool)) : Chunk :=
  match chunk.columns[index.sourceSlot]? with
  | none => chunk
  | some segment =>
    match index.compute dictionary segment table with
    | some bits => chunk.setIndex slot bits
    | none => chunk

/-- Removes the live rows of a selection, with their cells and index bits, and counts them
    (`delete_selected`). -/
def deleteSelected (chunk : Chunk) (selection : Bitmap) : Nat × Chunk :=
  let doomed := selection.and chunk.fill
  let removed := doomed.count
  if removed = 0 then (0, chunk)
  else
    let offsets := doomed.toList
    (removed,
      { chunk with
        fill := chunk.fill.andNot doomed
        columns := chunk.columns.map fun segment =>
          offsets.foldl
            (fun s offset => if offset < s.capacity then s.remove offset else s) segment
        indexes := chunk.indexes.map (·.andNot doomed) })

/-- Removes one row; false if it was not live (`delete`). -/
def delete (chunk : Chunk) (offset : Nat) : Bool × Chunk :=
  if chunk.fill.contains offset then
    let (removed, chunk) := chunk.deleteSelected (Bitmap.empty.set offset)
    (removed == 1, chunk)
  else (false, chunk)

/-! ## Reading -/

/-- The value of a column for the row at an offset; none if the row is not live or has no value
    (`value`). -/
def value (chunk : Chunk) (dictionaries : Array Dictionary) (slot offset : Nat) :
    Except Error (Option Value) :=
  if chunk.chunkSize ≤ offset then .error (.outOfRange offset chunk.chunkSize)
  else if !chunk.fill.contains offset then .ok none
  else
    match chunk.columns[slot]? with
    | none => .ok none
    | some segment =>
      if offset < segment.capacity then
        (segment.valueAt offset).map (·.map (Column.decode (dictionaryOf dictionaries slot)))
      else .ok none

end Chunk

end ColumnStore
