import ColumnStore.Transaction

/-!
# Typed readers

A reader gives the numbers or the texts of one column by row, over the chunks that were there when
its transaction opened.
-/

namespace ColumnStore

/-- Reads the numbers of a column (`Float64Reader`). -/
structure FloatReader where
  transaction : Transaction
  slot : Nat

/-- Reads the texts of a column. -/
structure StringReader where
  transaction : Transaction
  slot : Nat

namespace Transaction

/-- A chunk of the transaction: one that was there when it opened (`chunk`). -/
def chunk? (t : Transaction) (c : Collection) (id : Nat) : Option Chunk :=
  if id < t.selection.size then (t.table c).chunks[id]? else none

/-- A reader of a column of numbers (`float64`). -/
def floatReader (t : Transaction) (column : String) : Except Error FloatReader := do
  let (slot, _) ← t.typedColumn column .float64
  pure ⟨t, slot⟩

/-- A reader of a column of texts: a dictionary column or a column of any values (`string`). -/
def stringReader (t : Transaction) (column : String) : Except Error StringReader := do
  let (slot, column) ← t.column column
  match column.kind with
  | .enum => pure ⟨t, slot⟩
  | .any => pure ⟨t, slot⟩
  | kind => .error (.typeMismatch column.name Kind.enum.name kind.name)

end Transaction

namespace FloatReader

/-- The number of a row; none if the row is not live or has none (`get`). -/
def get (reader : FloatReader) (c : Collection) (row : Nat) : Option Binary64 := do
  let chunk ← reader.transaction.chunk? c (row / c.chunkSize)
  let offset := row % c.chunkSize
  if chunk.fill.contains offset then
    let segment ← chunk.columns[reader.slot]?
    segment.floatAt offset
  else none

/-- The sum over the selected rows, in ascending order from zero; a row without a number adds zero
    (`sum`). -/
def sum (reader : FloatReader) (c : Collection) : Binary64 :=
  reader.transaction.selection.toList.zipIdx.foldl (fun total (bits, id) =>
    match (reader.transaction.chunk? c id).bind fun chunk => chunk.columns[reader.slot]? with
    | some segment =>
      bits.toList.foldl (fun total offset => total.add ((segment.floatAt offset).getD .zero)) total
    | none => total) .zero

end FloatReader

namespace StringReader

/-- The text of a row; none if the row is not live, has none or has something else (`get`). -/
def get (reader : StringReader) (c : Collection) (row : Nat) : Option String := do
  let chunk ← reader.transaction.chunk? c (row / c.chunkSize)
  let dictionaries := (reader.transaction.table c).dictionaries
  let value ← (chunk.value dictionaries reader.slot (row % c.chunkSize)).toOption.join
  value.asString?

end StringReader

end ColumnStore
