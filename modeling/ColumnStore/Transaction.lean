import ColumnStore.Collection

/-!
# Transactions

A transaction selects rows. It starts with the rows that are live when it opens, one bitmap for each
chunk there is, and every filter takes rows out of the selection. The schema is the one of that
moment; rows inserted later are not selected, and what filters see of the selected rows is what the
chunks hold when the filter runs.

If the collection is loaded meanwhile, the transaction stays with the contents it was opened on.
-/

namespace ColumnStore

/-- A selection of rows, with the generation and the schema it was opened under. -/
structure Transaction where
  generation : Nat
  schema : Schema
  /-- The selected offsets of each chunk. -/
  selection : Array Bitmap

namespace Transaction

/-- A transaction on a collection, every live row selected (`new`). -/
def start (c : Collection) : Transaction :=
  ⟨c.generation, c.table.schema, c.table.chunks.map Chunk.fill⟩

/-- The contents the transaction works on. -/
def table (t : Transaction) (c : Collection) : Table := c.tableOf t.generation

/-- The column of a name, with its slot (`column`). An index is not a column. -/
def column (t : Transaction) (name : String) : Except Error (Nat × Column) :=
  match t.schema.column? name with
  | some found => .ok found
  | none => .error (.unknownSelector name)

/-- The column of a name, which has to be of a kind (`typed_column`). -/
def typedColumn (t : Transaction) (name : String) (kind : Kind) : Except Error (Nat × Column) := do
  let (slot, column) ← t.column name
  if column.kind = kind then pure (slot, column)
  else .error (.typeMismatch name kind.name column.kind.name)

/-! ## Filters -/

/-- Narrows the selection of every chunk (`scan_chunks`). -/
def narrow (t : Transaction) (table : Table) (filter : Chunk → Bitmap → Bitmap) : Transaction :=
  { t with
    selection := t.selection.mapIdx fun id bits =>
      match table.chunks[id]? with
      | some chunk => filter chunk bits
      | none => bits }

/-- What a list of names stands for. Fails at the first that is unknown. -/
def resolve (schema : Schema) : List String → Except Error (List Slot)
  | [] => .ok []
  | name :: rest =>
    match schema.lookup name with
    | none => .error (.unknownSelector name)
    | some slot => do
      let slots ← resolve schema rest
      pure (slot :: slots)

/-- Keeps the rows that every named selector keeps: rows of an index, rows holding `true` of a
    column of truth values, rows present in any other column (`with`). -/
def select (t : Transaction) (c : Collection) (names : List String) :
    Except Error Transaction := do
  let slots ← resolve t.schema names
  pure (t.narrow (t.table c) fun chunk bits =>
    slots.foldl (fun bits slot => chunk.select slot bits) bits)

/-- Keeps the rows whose number in a column of numbers is present and passes `f` (`with_float`). -/
def whereFloat (t : Transaction) (c : Collection) (column : String) (f : Binary64 → Bool) :
    Except Error Transaction := do
  let (slot, _) ← t.typedColumn column .float64
  pure (t.narrow (t.table c) fun chunk => chunk.filterColumn slot fun s => s.filterFloat f)

/-- Keeps the rows whose text in a dictionary column, or in a column of any values, is present and
    passes `f` (`with_string`). A dictionary column asks `f` once for each text. -/
def whereString (t : Transaction) (c : Collection) (column : String) (f : String → Bool) :
    Except Error Transaction := do
  let (slot, column) ← t.column column
  let table := t.table c
  match column.kind with
  | .enum =>
    let answers := (table.dictionary slot).evaluate f
    pure (t.narrow table fun chunk => chunk.filterColumn slot fun s => s.filterEnum answers)
  | .any =>
    let accepts (v : Value) : Bool := v.asString?.any f
    pure (t.narrow table fun chunk =>
      chunk.filterColumn slot fun s => s.filterValue (table.dictionary slot) accepts)
  | kind => .error (.typeMismatch column.name Kind.enum.name kind.name)

/-- Keeps the rows whose value in a column of any kind is present and passes `f` (`with_value`). -/
def whereValue (t : Transaction) (c : Collection) (column : String) (f : Value → Bool) :
    Except Error Transaction := do
  let (slot, _) ← t.column column
  let table := t.table c
  pure (t.narrow table fun chunk =>
    chunk.filterColumn slot fun s => s.filterValue (table.dictionary slot) f)

/-! ## The selected rows -/

/-- The number of selected rows (`count`). -/
def count (t : Transaction) : Nat := (t.selection.toList.map Bitmap.count).foldr (· + ·) 0

/-- The selected rows, ascending (`rows`). -/
def rows (t : Transaction) (c : Collection) : List Nat :=
  t.selection.toList.zipIdx.flatMap fun (bits, id) =>
    bits.toList.map fun offset => id * c.chunkSize + offset

/-- Deletes the selected rows of the chunks from `id` on, and counts them. -/
def deleteFrom (selection : List Bitmap) (id : Nat) (chunks : Array Chunk) : Nat × Array Chunk :=
  match selection with
  | [] => (0, chunks)
  | bits :: rest =>
    let (removed, chunks) :=
      if bits.isEmpty then (none, chunks)
      else updateAt Table.noChunk chunks id fun chunk => chunk.deleteSelected bits
    let (others, chunks) := deleteFrom rest (id + 1) chunks
    (removed.getD 0 + others, chunks)

/-- Deletes every selected row, empties the selection, and counts the rows (`delete_all`). Rows of
    retired contents are not among the collection's live rows. -/
def deleteAll (t : Transaction) (c : Collection) : Nat × Transaction × Collection :=
  let (removed, c) := c.changeTable t.generation fun table =>
    let (removed, chunks) := deleteFrom t.selection.toList 0 table.chunks
    (removed, { table with chunks, live := table.live - removed })
  (removed, { t with selection := t.selection.map Bitmap.reset }, c)

end Transaction

end ColumnStore
