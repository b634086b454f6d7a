import ColumnStore.Proofs.Column
import ColumnStore.Transaction.Pass

/-!
# Rows as maps

A row without its store is a map from the names of columns to values. `Visit.runOn` runs a visit on
such a row and `visitRows` a pass on a list of rows, of which some are gone: they are what visits
and passes mean, and the runs on chunks are held against them.
-/

namespace ColumnStore

/-- The value of each column that has one. -/
abbrev Row := String → Option Value

namespace Row

/-- No values. -/
def blank : Row := fun _ => none

/-- The row with another value, or none, for a column. -/
def set (row : Row) (name : String) (value : Option Value) : Row :=
  fun other => if other = name then value else row other

/-- Overwrites a column: `null` leaves it without a value, and a value that it cannot store is
    refused. -/
def write (row : Row) (column : Column) (value : Value) : Except Error Unit × Row :=
  if column.kind.accepts value then (.ok (), row.set column.name value.present?)
  else (.error (column.mismatch value), row)

end Row

/-- The column of a name. -/
def columnNamed (columns : List Column) (name : String) : Option Column :=
  columns.find? fun column => column.name == name

/-- Runs a visit of a pass over `column` on a row with the given columns. -/
def Visit.runOn {α : Type} (columns : List Column) (column : Column) : Visit α → Row → α × Row
  | .done a, row => (a, row)
  | .value next, row => (next (row column.name)).runOn columns column row
  | .float64 next, row =>
    let x := if column.kind = .float64 then (row column.name).bind Value.asFloat64? else none
    (next x).runOn columns column row
  | .valueOf name next, row =>
    let v : Except Error (Option Value) :=
      if (columnNamed columns name).isSome then .ok (row name) else .error (.unknownColumn name)
    (next v).runOn columns column row
  | .write v next, row =>
    let (written, row) := row.write column v
    (next written).runOn columns column row
  | .writeOf name v next, row =>
    let (written, row) :=
      match columnNamed columns name with
      | some other => row.write other v
      | none => (.error (.unknownColumn name), row)
    (next written).runOn columns column row

/-- Visits rows of a list, by number and in order; a row that is gone is passed over. The pass stops
    at the first visit that says so or fails. -/
def visitRows {σ : Type} (visitor : Transaction.Visitor σ) (columns : List Column)
    (column : Column) :
    List Nat → σ → List (Option Row) → (σ × Except Error Bool) × List (Option Row)
  | [], state, rows => ((state, .ok true), rows)
  | number :: rest, state, rows =>
    match rows[number]?.join with
    | none => visitRows visitor columns column rest state rows
    | some row =>
      match (visitor state number).runOn columns column row with
      | ((state, .ok true), row) =>
        visitRows visitor columns column rest state (rows.set number (some row))
      | (stopped, row) => (stopped, rows.set number (some row))

end ColumnStore
