import ColumnStore.Config
import ColumnStore.Corruption

/-!
# Errors

The ways an operation can fail, each with a stable code for callers that branch on it and a text
for people.
-/

namespace ColumnStore

/-- Why an operation failed. -/
inductive Error where
  | duplicateName (name : String)
  | unknownColumn (name : String)
  | unknownSelector (name : String)
  | typeMismatch (column expected found : String)
  | outOfRange (row capacity : Nat)
  | corruptSnapshot (cause : Corruption)
  | invalidConfig (cause : Config.Fault)
  /-- A reader or writer failed, with the text it gave. -/
  | io (cause : String)
  /-- A text is not the JSON that was asked for. -/
  | json
deriving DecidableEq

namespace Error

/-- The code that callers branch on (`code`). -/
def code : Error → String
  | duplicateName _ => "DUPLICATE_NAME"
  | unknownColumn _ => "UNKNOWN_COLUMN"
  | unknownSelector _ => "UNKNOWN_SELECTOR"
  | typeMismatch .. => "TYPE_MISMATCH"
  | outOfRange .. => "OUT_OF_RANGE"
  | corruptSnapshot _ => "CORRUPT_SNAPSHOT"
  | invalidConfig _ => "INVALID_CONFIG"
  | io _ => "INTERNAL_ERROR"
  | json => "INTERNAL_ERROR"

/-- The text that explains the error. -/
def message : Error → String
  | duplicateName name => s!"Name '{name}' already exists"
  | unknownColumn name => s!"Column '{name}' not found"
  | unknownSelector name => s!"Unknown selector '{name}'"
  | typeMismatch column expected found =>
    s!"Type mismatch on column '{column}': expected {expected}, found {found}"
  | outOfRange row capacity => s!"Row {row} is out of range (capacity {capacity})"
  | corruptSnapshot cause => s!"Corrupt snapshot: {cause.message}"
  | invalidConfig cause => s!"Invalid configuration: {cause.message}"
  | io cause => s!"IO error: {cause}"
  | json => "JSON error"

/-- The error with the column named, for a mismatch found where the name was not known
    (`on_column`). -/
def onColumn (name : String) : Error → Error
  | typeMismatch _ expected found => typeMismatch name expected found
  | other => other

end Error

end ColumnStore
