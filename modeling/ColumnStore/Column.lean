import ColumnStore.Dictionary
import ColumnStore.Error
import ColumnStore.Update
import ColumnStore.Value

/-!
# Columns

A column has a name and a kind. What a row stores for it is a `Cell`: a number, a truth value, the
id of a text, or a value as it came. `null` is never stored; a row either has a cell or has none.

The texts behind the ids are in a dictionary that belongs to the column's contents and grows as new
texts are written, so the operations that need it take it as an argument. Columns of other kinds
have an empty one.
-/

namespace ColumnStore

/-- A value as it is stored. -/
inductive Cell where
  | float64 (x : Binary64)
  | bool (b : Bool)
  | enum (id : Nat)
  | any (v : Value)
deriving Inhabited

/-- The kind of column that stores the cell (`kind`). -/
def Cell.kind : Cell → Kind
  | .float64 _ => .float64
  | .bool _ => .bool
  | .enum _ => .enum
  | .any _ => .any

/-- Whether a column of the kind can store a value. Every kind takes `null`, and stores nothing
    then. -/
def Kind.accepts : Kind → Value → Bool
  | _, .null => true
  | .float64, .float64 _ => true
  | .bool, .bool _ => true
  | .enum, .string _ => true
  | .any, _ => true
  | _, _ => false

/-- A named column of one kind. -/
structure Column where
  name : String
  kind : Kind
deriving DecidableEq, Inhabited

namespace Column

/-- The error for a value that the column cannot store (`mismatch`). -/
def mismatch (column : Column) (value : Value) : Error :=
  .typeMismatch column.name column.kind.name value.typeName

/-- Fails if the column cannot store the value (`check`). -/
def check (column : Column) (value : Value) : Except Error Unit :=
  if column.kind.accepts value then .ok () else .error (column.mismatch value)

/-- The cell that stores the value, none for `null`, and the dictionary then: a text that is new to
    the column gets an id (`encode`). -/
def encode (column : Column) (dictionary : Dictionary) (value : Value) :
    Except Error (Option Cell) × Dictionary :=
  match column.kind, value with
  | _, .null => (.ok none, dictionary)
  | .float64, .float64 x => (.ok (some (.float64 x)), dictionary)
  | .bool, .bool b => (.ok (some (.bool b)), dictionary)
  | .enum, .string s =>
    let (id, dictionary) := dictionary.intern s
    (.ok (some (.enum id)), dictionary)
  | .any, v => (.ok (some (.any v)), dictionary)
  | _, _ => (.error (column.mismatch value), dictionary)

/-- The cell that stores the value in the column of a slot, and the dictionaries of all slots
    then. -/
def encodeAt (column : Column) (dictionaries : Array Dictionary) (slot : Nat) (value : Value) :
    Except Error (Option Cell) × Array Dictionary :=
  match updateAt .empty dictionaries slot fun dictionary => column.encode dictionary value with
  | (some cell, dictionaries) => (cell, dictionaries)
  | (none, dictionaries) => ((column.encode .empty value).1, dictionaries)

/-- The value that a cell stores; `null` for an id that the dictionary does not have (`decode`). -/
def decode (dictionary : Dictionary) : Cell → Value
  | .float64 x => .float64 x
  | .bool b => .bool b
  | .enum id =>
    match dictionary.get? id with
    | some s => .string s
    | none => .null
  | .any v => v

/-- What `f` says of each text of a dictionary column, by id; nothing for other columns
    (`evaluate_dictionary`). -/
def evaluate (column : Column) (dictionary : Dictionary) (f : String → Bool) :
    Option (Array Bool) :=
  if column.kind = .enum then some (dictionary.evaluate f) else none

end Column

end ColumnStore
