import ColumnStore.Binary64
import ColumnStore.Entries

/-!
# Values

A value is what a record gives for one column: nothing, a truth value, a number, a text, or a list
or map of values. A record is a list of named values. Columns hold typed data; a value is checked
against its column's kind once, when it is written.
-/

namespace ColumnStore

/-- A loosely typed value. The entries of a map are in key order, one per key. -/
inductive Value where
  | null
  | bool (b : Bool)
  | float64 (x : Binary64)
  | string (s : String)
  | list (items : List Value)
  | map (entries : List (String × Value))
deriving Inhabited

/-- A record: column names and the values given for them, one per name. -/
abbrev Record := List (String × Value)

namespace Value

/-- The name of the value's type, as errors give it (`type_name`). -/
def typeName : Value → String
  | null => "null"
  | bool _ => "bool"
  | float64 _ => "float64"
  | string _ => "string"
  | list _ => "list"
  | map _ => "map"

/-- The number, if it is one (`as_f64`). -/
def asFloat64? : Value → Option Binary64
  | float64 x => some x
  | _ => none

/-- The truth value, if it is one (`as_bool`). -/
def asBool? : Value → Option Bool
  | bool b => some b
  | _ => none

/-- The text, if it is one (`as_str`). -/
def asString? : Value → Option String
  | string s => some s
  | _ => none

/-- Whether the value is `null`. -/
def isNull : Value → Bool
  | null => true
  | _ => false

mutual

/-- Equality of values: numbers compare as numbers, so that a value holding what is not a number
    differs from itself; lists and maps compare by content. -/
def eq : Value → Value → Bool
  | null, null => true
  | bool a, bool b => a == b
  | float64 x, float64 y => x.eq y
  | string s, string t => s == t
  | list xs, list ys => eqItems xs ys
  | map xs, map ys => eqEntries xs ys
  | _, _ => false

/-- Equality of lists, place by place. -/
def eqItems : List Value → List Value → Bool
  | [], [] => true
  | x :: xs, y :: ys => eq x y && eqItems xs ys
  | _, _ => false

/-- Equality of entries, place by place. -/
def eqEntries : List (String × Value) → List (String × Value) → Bool
  | [], [] => true
  | (k, x) :: xs, (l, y) :: ys => k == l && eq x y && eqEntries xs ys
  | _, _ => false

end

/-- The value of an integer: the double nearest to it. -/
def ofInt (n : Int) : Value := float64 (Binary64.ofInt n)

/-- The value of a number that may be missing. -/
def ofFloat64? : Option Binary64 → Value
  | some x => float64 x
  | none => null

/-- The value of a text that may be missing. -/
def ofString? : Option String → Value
  | some s => string s
  | none => null

end Value

end ColumnStore
