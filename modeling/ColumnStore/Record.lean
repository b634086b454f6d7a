import ColumnStore.Error
import ColumnStore.Json
import ColumnStore.Value

/-!
# Records from JSON

A JSON object is a record, its members the fields. Every JSON number becomes a double, integers
included.
-/

namespace ColumnStore

mutual

/-- The value of a JSON document. -/
def Value.ofJson : Json → Value
  | .null => .null
  | .bool b => .bool b
  | .number n => .float64 n.toBinary64
  | .string s => .string s
  | .array items => .list (Value.ofJsonItems items)
  | .object members => .map (Value.ofJsonMembers members)

/-- The values of the items of an array. -/
def Value.ofJsonItems : List Json → List Value
  | [] => []
  | item :: rest => Value.ofJson item :: Value.ofJsonItems rest

/-- The values of the members of an object. -/
def Value.ofJsonMembers : List (String × Json) → List (String × Value)
  | [] => []
  | (name, item) :: rest => (name, Value.ofJson item) :: Value.ofJsonMembers rest

end

namespace Record

/-- The record of a JSON object (`record_from_json`). Fails for any other document. -/
def ofJson : Json → Except Error Record
  | .object members => .ok (Value.ofJsonMembers members)
  | other => .error (.typeMismatch "" "object" other.typeName)

/-- The records of a JSON array of objects, given as text (`records_from_json_str`). -/
def listOfText (text : String) : Except Error (List Record) :=
  match Json.parse? text with
  | some (.array items) => items.mapM ofJson
  | _ => .error .json

end Record

end ColumnStore
