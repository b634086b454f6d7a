import ColumnStore.Chunk

/-!
# Visiting a row

What a pass does at a row is written as a `Visit`: a program whose only access to the store is
through the row it stands on. It can read the column of the pass or another column of the row, and
overwrite either. Being a program and not a function on the store, it cannot touch other rows, which
is what the laws of passes rest on.
-/

namespace ColumnStore

/-- A program that runs at one row of a pass over a column. -/
inductive Visit (α : Type) where
  /-- Ends with a result. -/
  | done (result : α)
  /-- Reads the column. -/
  | value (next : Option Value → Visit α)
  /-- Reads the number in the column. -/
  | float64 (next : Option Binary64 → Visit α)
  /-- Reads another column of the row. -/
  | valueOf (column : String) (next : Except Error (Option Value) → Visit α)
  /-- Overwrites the column. -/
  | write (value : Value) (next : Except Error Unit → Visit α)
  /-- Overwrites another column of the row. -/
  | writeOf (column : String) (value : Value) (next : Except Error Unit → Visit α)

namespace Visit

variable {α β : Type}

/-- One program after another. -/
def bind : Visit α → (α → Visit β) → Visit β
  | done a, f => f a
  | value next, f => value fun v => bind (next v) f
  | float64 next, f => float64 fun x => bind (next x) f
  | valueOf column next, f => valueOf column fun r => bind (next r) f
  | write v next, f => write v fun r => bind (next r) f
  | writeOf column v next, f => writeOf column v fun r => bind (next r) f

instance : Monad Visit where
  pure := done
  bind := bind

/-- The value in the column; none if the row has none (`value`). -/
def getValue : Visit (Option Value) := value done

/-- The number in a column of numbers; none if the row has none (`float64`). -/
def getFloat64 : Visit (Option Binary64) := float64 done

/-- The text in the column; none if the row has none or has something else (`string`). -/
def getString : Visit (Option String) := value fun v => done (v.bind Value.asString?)

/-- The truth value in the column; none if the row has none or has something else (`bool`). -/
def getBool : Visit (Option Bool) := value fun v => done (v.bind Value.asBool?)

/-- The value in another column of the row (`value_of`). Fails if there is no such column. -/
def getValueOf (column : String) : Visit (Except Error (Option Value)) := valueOf column done

/-- Overwrites the column; `null` leaves the row without a value (`set`). Fails, and changes
    nothing, if the column cannot store the value. -/
def set (v : Value) : Visit (Except Error Unit) := write v done

/-- Overwrites another column of the row, in the same way (`update_column`). -/
def setOf (column : String) (v : Value) : Visit (Except Error Unit) := writeOf column v done

end Visit

/-- The row a visit stands on: the schema the pass works under, the column of the pass, and the
    row's offset in its chunk. -/
structure Cursor where
  schema : Schema
  slot : Nat
  column : Column
  offset : Nat

namespace Cursor

/-- Overwrites a column of the row and brings the indexes over it up to date (`write`). A text that
    is new to the column is added to its dictionary. -/
def write (cursor : Cursor) (slot : Nat) (column : Column) (value : Value)
    (dictionaries : Array Dictionary) (chunk : Chunk) :
    Except Error Unit × Array Dictionary × Chunk :=
  match column.encodeAt dictionaries slot value with
  | (.error e, dictionaries) => (.error e, dictionaries, chunk)
  | (.ok cell, dictionaries) =>
    let (written, chunk) := chunk.update cursor.schema dictionaries cursor.offset slot column cell
    (written, dictionaries, chunk)

/-- Runs a visit at the row. -/
def run {α : Type} (cursor : Cursor) : Visit α → Array Dictionary → Chunk →
    α × Array Dictionary × Chunk
  | .done a, dictionaries, chunk => (a, dictionaries, chunk)
  | .value next, dictionaries, chunk =>
    let v := (chunk.value dictionaries cursor.slot cursor.offset).toOption.join
    cursor.run (next v) dictionaries chunk
  | .float64 next, dictionaries, chunk =>
    let x := chunk.columns[cursor.slot]?.bind fun segment => segment.floatAt cursor.offset
    cursor.run (next x) dictionaries chunk
  | .valueOf name next, dictionaries, chunk =>
    let v : Except Error (Option Value) :=
      match cursor.schema.column? name with
      | none => .error (.unknownColumn name)
      | some (slot, _) => chunk.value dictionaries slot cursor.offset
    cursor.run (next v) dictionaries chunk
  | .write value next, dictionaries, chunk =>
    let (written, dictionaries, chunk) :=
      cursor.write cursor.slot cursor.column value dictionaries chunk
    cursor.run (next written) dictionaries chunk
  | .writeOf name value next, dictionaries, chunk =>
    let (written, dictionaries, chunk) :=
      match cursor.schema.column? name with
      | none => (.error (.unknownColumn name), dictionaries, chunk)
      | some (slot, column) => cursor.write slot column value dictionaries chunk
    cursor.run (next written) dictionaries chunk

end Cursor

end ColumnStore
