import ColumnStore.Table

/-!
# Collections

A collection is a configuration and a table. Loading a snapshot gives it a new table; the table it
had goes on to be read and written by the transactions that were opened on it, so it is kept among
the retired ones. The number of retired tables is the collection's generation, and a transaction
finds its table by the generation it was opened in.
-/

namespace ColumnStore

/-- A configured collection with its contents and those it had before each load. -/
structure Collection where
  config : Config
  table : Table
  retired : Array Table

namespace Collection

/-- A collection without contents, whatever its configuration (`build`). -/
def build (config : Config) : Collection := ⟨config, .empty, #[]⟩

/-- An empty collection with the default configuration and room for `capacity` rows (`new`). -/
def new (capacity : Nat) : Collection := build (.withCapacity capacity)

/-- An empty collection (`with_config`). Fails if the configuration is not usable. -/
def withConfig (config : Config) : Except Error Collection :=
  match config.fault? with
  | some fault => .error (.invalidConfig fault)
  | none => .ok (build config)

/-- Rows in one chunk (`chunk_size`). -/
def chunkSize (c : Collection) : Nat := c.config.chunkSize

/-- The number of loads so far. -/
def generation (c : Collection) : Nat := c.retired.size

/-- The number of live rows (`count`). -/
def count (c : Collection) : Nat := c.table.live

/-- Names of the columns, in the order of their creation (`columns`). -/
def columns (c : Collection) : List String := c.table.columnNames

/-- Names of the indexes, in the order of their creation (`indexes`). -/
def indexes (c : Collection) : List String := c.table.indexNames

/-- The contents of a generation. -/
def tableOf (c : Collection) (generation : Nat) : Table := c.retired[generation]?.getD c.table

/-- Changes the contents of a generation. -/
def changeTable {α : Type} (c : Collection) (generation : Nat) (f : Table → α × Table) :
    α × Collection :=
  if h : generation < c.retired.size then
    let (a, table) := f c.retired[generation]
    (a, { c with retired := c.retired.set generation table })
  else
    let (a, table) := f c.table
    (a, { c with table })

/-- Changes the present contents. -/
def change {α : Type} (c : Collection) (f : Table → α × Table) : α × Collection :=
  let (a, table) := f c.table
  (a, { c with table })

/-- Gives the collection new contents and retires those it had. -/
def replaceTable (c : Collection) (table : Table) : Collection :=
  { c with table, retired := c.retired.push c.table }

/-- Adds a column (`create_column`). Fails if the name is taken. -/
def createColumn (c : Collection) (name : String) (kind : Kind) : Except Error Unit × Collection :=
  c.change (Table.createColumn name kind)

/-- Adds an index over a column and computes it for the rows there are; or, if the name is that of a
    detached index over the same column, attaches the predicate to it (`create_index`). -/
def createIndex (c : Collection) (name source : String) (predicate : Value → Bool) :
    Except Error Unit × Collection :=
  c.change (Table.createIndex name source predicate)

/-- Appends a record and gives the number of its row (`insert`). Fields that name no column are
    ignored and a `null` leaves its column without a value. -/
def insert (c : Collection) (record : Record) : Except Error Nat × Collection :=
  let config := c.config
  c.change (Table.insert config record)

/-- Deletes a row; false if it was not live (`delete_at`). Fails for a row that was never
    allocated. -/
def deleteAt (c : Collection) (row : Nat) : Except Error Bool × Collection :=
  let config := c.config
  c.change (Table.deleteAt config row)

/-- The values of a live row; none if the row is not live (`fetch`). -/
def fetch (c : Collection) (row : Nat) : Option Record := c.table.fetch c.config row

/-- The value of a column for a row; none if the row is not live or has no value (`value_at`). -/
def valueAt (c : Collection) (column : String) (row : Nat) : Except Error (Option Value) :=
  c.table.valueAt c.config column row

/-- The collection written out for a reader of logs. -/
def describe (c : Collection) : String :=
  s!"Collection \x7b config: {c.config.describe}, rows: {c.count}, "
    ++ s!"chunks: {c.table.chunks.size} \x7d"

end Collection

end ColumnStore
