import ColumnStore.Index

/-!
# Schemas

A schema lists the columns and the indexes of a collection. Both draw their names from one stock,
and the position of a column or index in its list, its slot, is where every chunk keeps its data.
Schemas only grow, so a slot found in an older schema means the same column in a newer one.
-/

namespace ColumnStore

/-- Where a name leads. -/
inductive Slot where
  | column (slot : Nat)
  | index (slot : Nat)
deriving DecidableEq, Inhabited

/-- The columns and indexes of a collection, by slot. -/
structure Schema where
  columns : Array Column
  indexes : Array Index

namespace Schema

/-- No columns and no indexes (`new`). -/
def empty : Schema := ⟨#[], #[]⟩

/-- The slot of a column. -/
def columnSlot? (schema : Schema) (name : String) : Option Nat :=
  schema.columns.findIdx? fun column => column.name == name

/-- The slot of an index. -/
def indexSlot? (schema : Schema) (name : String) : Option Nat :=
  schema.indexes.findIdx? fun index => index.name == name

/-- What a name stands for (`lookup`). -/
def lookup (schema : Schema) (name : String) : Option Slot :=
  match schema.columnSlot? name with
  | some slot => some (.column slot)
  | none => (schema.indexSlot? name).map .index

/-- The column of a name, with its slot (`column`). -/
def column? (schema : Schema) (name : String) : Option (Nat × Column) := do
  let slot ← schema.columnSlot? name
  let column ← schema.columns[slot]?
  pure (slot, column)

/-- The index of a name, with its slot (`index`). -/
def index? (schema : Schema) (name : String) : Option (Nat × Index) := do
  let slot ← schema.indexSlot? name
  let index ← schema.indexes[slot]?
  pure (slot, index)

/-- Whether a name is taken (`ensure_unique`). -/
def isTaken (schema : Schema) (name : String) : Bool := (schema.lookup name).isSome

/-- The indexes over the column in a slot, with their own slots (`indexes_on`). -/
def indexesOn (schema : Schema) (source : Nat) : List (Nat × Index) :=
  (schema.indexes.toList.zipIdx.map fun (index, slot) => (slot, index)).filter
    fun (_, index) => index.sourceSlot = source

/-- The schema with a column in the next slot (`with_column`). Fails if the name is taken. -/
def addColumn (schema : Schema) (column : Column) : Except Error Schema :=
  if schema.isTaken column.name then .error (.duplicateName column.name)
  else .ok { schema with columns := schema.columns.push column }

/-- The schema with an index in the next slot (`with_index`). Fails if the name is taken. -/
def addIndex (schema : Schema) (index : Index) : Except Error Schema :=
  if schema.isTaken index.name then .error (.duplicateName index.name)
  else .ok { schema with indexes := schema.indexes.push index }

/-- The schema with another index in a slot that is in use (`replacing_index`). -/
def replaceIndex (schema : Schema) (slot : Nat) (index : Index) : Schema :=
  { schema with indexes := schema.indexes.modify slot fun _ => index }

/-- The columns in the order of their names, with their slots (`sorted_columns`). -/
def sortedColumns (schema : Schema) : List (Nat × Column) :=
  (Entries.ofList (schema.columns.toList.zipIdx.map fun (column, slot) =>
    (column.name, (slot, column)))).map Prod.snd

/-- The indexes in the order of their names, with their slots (`sorted_indexes`). -/
def sortedIndexes (schema : Schema) : List (Nat × Index) :=
  (Entries.ofList (schema.indexes.toList.zipIdx.map fun (index, slot) =>
    (index.name, (slot, index)))).map Prod.snd

end Schema

end ColumnStore
