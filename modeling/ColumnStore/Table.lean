import ColumnStore.Chunk

/-!
# Tables

A table is all that a collection holds: its schema, the dictionary of every column, the chunks, the
number of rows ever allocated and the number of live ones. Row `r` is at offset `r % chunkSize` of
chunk `r / chunkSize`; rows are numbered in the order of insertion and a number is never used again.

An operation that can fail gives back its answer and the table after it, whether or not it failed.
-/

namespace ColumnStore

/-- The contents of a collection. -/
structure Table where
  schema : Schema
  dictionaries : Array Dictionary
  chunks : Array Chunk
  /-- The next row to be given out. -/
  nextRow : Nat
  /-- The number of live rows. -/
  live : Nat

namespace Table

/-- No columns and no rows. -/
def empty : Table := ⟨.empty, #[], #[], 0, 0⟩

/-- The dictionary of the column in a slot. -/
def dictionary (table : Table) (slot : Nat) : Dictionary :=
  Chunk.dictionaryOf table.dictionaries slot

/-- Names of the columns, in the order of their creation (`columns`). -/
def columnNames (table : Table) : List String := (table.schema.columns.map Column.name).toList

/-- Names of the indexes, in the order of their creation (`indexes`). -/
def indexNames (table : Table) : List String := (table.schema.indexes.map Index.name).toList

/-! ## Columns and indexes -/

/-- Adds a column (`create_column`). Chunks take it in when they are next written. -/
def createColumn (name : String) (kind : Kind) (table : Table) : Except Error Unit × Table :=
  match table.schema.addColumn ⟨name, kind⟩ with
  | .error e => (.error e, table)
  | .ok schema =>
    (.ok (), { table with schema, dictionaries := table.dictionaries.push .empty })

/-- The schema with a new index, or with the predicate attached to a detached index of that name
    and source; and the slot and the index. -/
def registerIndex (schema : Schema) (name source : String) (predicate : Value → Bool) :
    Except Error (Schema × Nat × Index) :=
  match schema.column? source with
  | none => .error (.unknownColumn source)
  | some (sourceSlot, _) =>
    match schema.lookup name with
    | none => do
      let index : Index := ⟨name, source, sourceSlot, some predicate⟩
      let schema' ← schema.addIndex index
      pure (schema', schema.indexes.size, index)
    | some (.column _) => .error (.duplicateName name)
    | some (.index slot) =>
      match schema.indexes[slot]? with
      | none => .error (.duplicateName name)
      | some index =>
        if index.isAttached || index.source != source then .error (.duplicateName name)
        else
          let index := index.attach predicate
          .ok (schema.replaceIndex slot index, slot, index)

/-- The predicate's answers for the texts of an index's source, when that is a dictionary column. -/
def indexTable (table : Table) (index : Index) : Option (Array Bool) :=
  table.schema.columns[index.sourceSlot]?.bind fun column =>
    index.table? column (table.dictionary index.sourceSlot)

/-- Adds an index over a column, or attaches a predicate to a detached one, and computes its bitmap
    in every chunk (`create_index`). -/
def createIndex (name source : String) (predicate : Value → Bool) (table : Table) :
    Except Error Unit × Table :=
  match registerIndex table.schema name source predicate with
  | .error e => (.error e, table)
  | .ok (schema, slot, index) =>
    let dictionary := table.dictionary index.sourceSlot
    let answers := table.indexTable index
    (.ok (),
      { table with
        schema
        chunks := table.chunks.map fun chunk =>
          (chunk.sync schema).rebuildIndex slot index dictionary answers })

/-! ## Rows -/

/-- The fields of a record that name a column, with the column and its slot. Other fields are
    ignored. -/
def fields (schema : Schema) (record : Record) : List (Nat × Column × Value) :=
  record.filterMap fun (name, value) =>
    (schema.column? name).map fun (slot, column) => (slot, column, value)

/-- Fails if some field cannot be stored in its column. -/
def checkFields : List (Nat × Column × Value) → Except Error Unit
  | [] => .ok ()
  | (_, column, value) :: rest => do
    column.check value
    checkFields rest

/-- The cells that store the fields, and the dictionaries then. A field that is `null` stores
    nothing. -/
def encodeFields (dictionaries : Array Dictionary) :
    List (Nat × Column × Value) → Except Error (List (Nat × Cell)) × Array Dictionary
  | [] => (.ok [], dictionaries)
  | (slot, column, value) :: rest =>
    match column.encodeAt dictionaries slot value with
    | (.error e, dictionaries) => (.error e, dictionaries)
    | (.ok cell, dictionaries) =>
      match encodeFields dictionaries rest with
      | (.error e, dictionaries) => (.error e, dictionaries)
      | (.ok cells, dictionaries) =>
        (.ok (match cell with
          | some cell => (slot, cell) :: cells
          | none => cells), dictionaries)

/-- Room to begin with in chunk `id`: its share of the expected rows (`presize`). -/
def presize (config : Config) (id : Nat) : Nat :=
  min (config.capacity - id * config.chunkSize) config.chunkSize

/-- The chunks with chunk `id` and every chunk before it allocated (`chunk_for`). -/
def allocate (config : Config) (schema : Schema) (chunks : Array Chunk) (id : Nat) : Array Chunk :=
  (List.range' chunks.size (id + 1 - chunks.size)).foldl
    (fun chunks next => chunks.push (Chunk.new config.chunkSize (presize config next) schema))
    chunks

/-- A chunk that stands in for one that is being changed. -/
def noChunk : Chunk := ⟨0, 0, .empty, #[], #[]⟩

/-- Appends a record as a new row and gives its number (`insert`). A record with a field that its
    column cannot store changes nothing. -/
def insert (config : Config) (record : Record) (table : Table) : Except Error Nat × Table :=
  let fields := fields table.schema record
  match checkFields fields with
  | .error e => (.error e, table)
  | .ok () =>
    match encodeFields table.dictionaries fields with
    | (.error e, dictionaries) => (.error e, { table with dictionaries })
    | (.ok cells, dictionaries) =>
      let row := table.nextRow
      let id := row / config.chunkSize
      let schema := table.schema
      let (written, chunks) := updateAt noChunk (allocate config schema table.chunks id) id
        fun chunk => chunk.insert schema dictionaries (row % config.chunkSize) cells
      match written with
      | some (.ok ()) =>
        (.ok row,
          { table with dictionaries, chunks, nextRow := row + 1, live := table.live + 1 })
      | some (.error e) => (.error e, { table with dictionaries, chunks, nextRow := row + 1 })
      | none =>
        (.error (.outOfRange row row), { table with dictionaries, chunks, nextRow := row + 1 })

/-- Fails for a row that was never allocated (`existing_chunk`). -/
def checkRow (config : Config) (table : Table) (row : Nat) : Except Error Unit :=
  if row < table.nextRow ∧ row / config.chunkSize < table.chunks.size then .ok ()
  else .error (.outOfRange row table.nextRow)

/-- Deletes a row; false if it was not live (`delete_at`). -/
def deleteAt (config : Config) (row : Nat) (table : Table) : Except Error Bool × Table :=
  match table.checkRow config row with
  | .error e => (.error e, table)
  | .ok () =>
    let (deleted, chunks) := updateAt noChunk table.chunks (row / config.chunkSize)
      fun chunk => chunk.delete (row % config.chunkSize)
    if deleted = some true then (.ok true, { table with chunks, live := table.live - 1 })
    else (.ok false, { table with chunks })

/-- The value of a column for a row; none if the row is not live or has no value (`value_at`). -/
def valueAt (config : Config) (table : Table) (column : String) (row : Nat) :
    Except Error (Option Value) :=
  match table.schema.column? column with
  | none => .error (.unknownColumn column)
  | some (slot, _) => do
    table.checkRow config row
    match table.chunks[row / config.chunkSize]? with
    | some chunk => chunk.value table.dictionaries slot (row % config.chunkSize)
    | none => .ok none

/-- The values of a live row, in the order of the columns; none if the row is not live (`fetch`). -/
def fetch (config : Config) (table : Table) (row : Nat) : Option Record :=
  match table.checkRow config row, table.chunks[row / config.chunkSize]? with
  | .ok (), some chunk =>
    let offset := row % config.chunkSize
    if chunk.fill.contains offset then
      some (table.schema.columns.toList.zipIdx.filterMap fun (column, slot) =>
        (chunk.value table.dictionaries slot offset).toOption.join.map (column.name, ·))
    else none
  | _, _ => none

end Table

end ColumnStore
