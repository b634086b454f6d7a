import ColumnStore.Proofs.Session

/-!
# Sheets

The plain reading of a collection: a list of columns, a list of named predicates over them and a
growing list of rows, each a map from names to values or gone (`Sheet`). A query on a sheet holds
the names it was opened under and the numbers of the rows it has selected, and a notebook is a sheet
with its queries. The operations of sessions other than loads are carried out on it by list
operations (`Notebook.step`), without chunks, bitmaps, dictionaries or capacities.
-/

namespace ColumnStore

/-- The last value that a record has for a name; `null` counts as none. -/
def Record.last? (name : String) : Record → Option Value
  | [] => none
  | field :: rest => (last? name rest).or (if field.1 = name then field.2.present? else none)

/-- The row that a record makes: its fields for known columns. -/
def Row.ofRecord (columns : List Column) (record : Record) : Row :=
  fun name => if (columnNamed columns name).isSome then record.last? name else none

/-- A named predicate over the values of a column. -/
structure Sheet.Rule where
  name : String
  source : String
  predicate : Value → Bool

/-- What a query holds: the columns and the names of the rules there were at its opening, and the
    selected rows. -/
structure Sheet.Query where
  columns : List Column
  rules : List String
  selected : List Nat

/-- Columns, rules over them, and every row ever given out. -/
structure Sheet where
  columns : List Column
  rules : List Sheet.Rule
  rows : List (Option Row)

namespace Sheet

variable (sheet : Sheet)

/-- A row that is not gone. -/
def row? (number : Nat) : Option Row := sheet.rows[number]?.join

/-- Whether a column or a rule has the name. -/
def isTaken (name : String) : Bool :=
  (columnNamed sheet.columns name).isSome || (sheet.rules.map Rule.name).contains name

/-! ## Reading -/

/-- The number of rows that are not gone. -/
def count : Nat := sheet.rows.countP Option.isSome

/-- The fields of a row, in the order of the columns. -/
def fetch (number : Nat) : Option Record :=
  (sheet.row? number).map fun row =>
    sheet.columns.filterMap fun column => (row column.name).map (column.name, ·)

/-- The field of a row. -/
def valueAt (name : String) (number : Nat) : Except Error (Option Value) :=
  if (columnNamed sheet.columns name).isNone then .error (.unknownColumn name)
  else if number < sheet.rows.length then .ok ((sheet.row? number).bind fun row => row name)
  else .error (.outOfRange number sheet.rows.length)

/-- Whether a selector keeps a row. -/
def keeps (name : String) (row : Row) : Bool :=
  match columnNamed sheet.columns name with
  | some column =>
    if column.kind = .bool then (row name).any fun v => v.asBool? == some true
    else (row name).isSome
  | none =>
    match sheet.rules.find? fun rule => rule.name == name with
    | some rule => (row rule.source).any rule.predicate
    | none => false

/-- Whether a row satisfies a filter. -/
def satisfies : Filter → Row → Bool
  | .select names, row => names.all fun name => sheet.keeps name row
  | .whereFloat column f, row => (row column).any fun v => v.asFloat64?.any f
  | .whereString column f, row => (row column).any fun v => v.asString?.any f
  | .whereValue column f, row => (row column).any f

/-! ## Writing -/

/-- Adds a column. -/
def createColumn (name : String) (kind : Kind) : Except Error Unit × Sheet :=
  if sheet.isTaken name then (.error (.duplicateName name), sheet)
  else (.ok (), { sheet with columns := sheet.columns ++ [⟨name, kind⟩] })

/-- Adds a rule. -/
def createIndex (name source : String) (predicate : Value → Bool) : Except Error Unit × Sheet :=
  if (columnNamed sheet.columns source).isNone then (.error (.unknownColumn source), sheet)
  else if sheet.isTaken name then (.error (.duplicateName name), sheet)
  else (.ok (), { sheet with rules := sheet.rules ++ [⟨name, source, predicate⟩] })

/-- The error for a field that its column cannot store; a field of no column is ignored. -/
def fieldFault? (field : String × Value) : Option Error :=
  (columnNamed sheet.columns field.1).bind fun column =>
    if column.kind.accepts field.2 then none else some (column.mismatch field.2)

/-- Appends a record, unless one of its fields cannot be stored. -/
def insert (record : Record) : Except Error Nat × Sheet :=
  match record.findSome? sheet.fieldFault? with
  | some e => (.error e, sheet)
  | none =>
    (.ok sheet.rows.length,
      { sheet with rows := sheet.rows ++ [some (Row.ofRecord sheet.columns record)] })

/-- Takes a row out. -/
def deleteAt (number : Nat) : Except Error Bool × Sheet :=
  if number < sheet.rows.length then
    (.ok (sheet.row? number).isSome, { sheet with rows := sheet.rows.set number none })
  else (.error (.outOfRange number sheet.rows.length), sheet)

/-- Takes the listed rows out and says how many there were. -/
def deleteRows (numbers : List Nat) : Nat × Sheet :=
  (numbers.countP fun number => (sheet.row? number).isSome,
    { sheet with
      rows := sheet.rows.mapIdx fun number row => if number ∈ numbers then none else row })

/-- A query with every row selected that is not gone. -/
def query : Query :=
  ⟨sheet.columns, sheet.rules.map Rule.name,
    (List.range sheet.rows.length).filter fun number => (sheet.row? number).isSome⟩

/-- Narrows the selection of a query to the rows that satisfy a filter. -/
def narrow (query : Query) (filter : Filter) : Except Error Query :=
  match filter.fault? query.columns query.rules with
  | some e => .error e
  | none =>
    .ok { query with
      selected := query.selected.filter fun number =>
        sheet.satisfies filter ((sheet.row? number).getD Row.blank) }

/-- Visits the selected rows of a query. -/
def pass {σ : Type} (query : Query) (name : String) (visitor : Transaction.Visitor σ) (state : σ) :
    (σ × Except Error Unit) × Sheet :=
  match columnNamed query.columns name with
  | none => ((state, .error (.unknownSelector name)), sheet)
  | some column =>
    let ((state, ended), rows) :=
      visitRows visitor sheet.columns column query.selected state sheet.rows
    ((state, ended.map fun _ => ()), { sheet with rows })

end Sheet

/-- A sheet and the queries opened on it. -/
structure Notebook where
  sheet : Sheet
  queries : Array Sheet.Query

namespace Notebook

/-- Nothing at all. -/
def empty : Notebook := ⟨⟨[], [], []⟩, #[]⟩

/-- Carries out an operation. A load has no reading on a sheet, and is left out. -/
def step (n : Notebook) : (op : Op) → op.Answer × Notebook
  | .createColumn name kind =>
    let (answer, sheet) := n.sheet.createColumn name kind
    (answer, { n with sheet })
  | .createIndex name source predicate =>
    let (answer, sheet) := n.sheet.createIndex name source predicate
    (answer, { n with sheet })
  | .insert record =>
    let (answer, sheet) := n.sheet.insert record
    (answer, { n with sheet })
  | .deleteAt row =>
    let (answer, sheet) := n.sheet.deleteAt row
    (answer, { n with sheet })
  | .load _ => (.ok (), n)
  | .begin => ((), { n with queries := n.queries.push n.sheet.query })
  | .filter id filter =>
    match n.queries[id]? with
    | none => (none, n)
    | some query =>
      match n.sheet.narrow query filter with
      | .error e => (some (.error e), n)
      | .ok query => (some (.ok ()), { n with queries := n.queries.setIfInBounds id query })
  | .pass id column visitor state =>
    match n.queries[id]? with
    | none => (none, n)
    | some query =>
      let (ended, sheet) := n.sheet.pass query column visitor state
      (some ended, { n with sheet })
  | .deleteAll id =>
    match n.queries[id]? with
    | none => (none, n)
    | some query =>
      let (removed, sheet) := n.sheet.deleteRows query.selected
      (some removed, ⟨sheet, n.queries.setIfInBounds id { query with selected := [] }⟩)

/-- Carries out operations in order. -/
def run (n : Notebook) (ops : List Op) : Notebook := ops.foldl (fun n op => (n.step op).2) n

end Notebook

end ColumnStore
