/-!
# Column kinds

The four kinds of column and the byte each is stored as.
-/

namespace ColumnStore

/-- What a column holds: numbers, truth values, texts from a dictionary, or any value but `null`
    (`ColumnKind`). -/
inductive Kind where
  | float64
  | bool
  | enum
  | any
deriving DecidableEq, Inhabited

namespace Kind

/-- The byte a kind is stored as. -/
def code : Kind → Nat
  | float64 => 0
  | bool => 1
  | enum => 2
  | any => 3

/-- The kind stored as a byte (`from_u8`). -/
def ofCode? : Nat → Option Kind
  | 0 => some float64
  | 1 => some bool
  | 2 => some enum
  | 3 => some any
  | _ => none

/-- The kind's name, as errors give it (`name`). A dictionary column is a column of strings. -/
def name : Kind → String
  | float64 => "float64"
  | bool => "bool"
  | enum => "string"
  | any => "any"

end Kind

end ColumnStore
