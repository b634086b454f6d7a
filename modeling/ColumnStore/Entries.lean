/-!
# Named entries in key order

A list of named entries, one per name, ascending in the order of names. The order of strings is by
code point, which for their UTF-8 encodings is the order by bytes.
-/

namespace ColumnStore

namespace Entries

variable {α : Type}

/-- The entries with `key` bound to `value`; an earlier binding of `key` is replaced. -/
def insert (key : String) (value : α) : List (String × α) → List (String × α)
  | [] => [(key, value)]
  | (k, v) :: rest =>
    if key < k then (key, value) :: (k, v) :: rest
    else if key = k then (key, value) :: rest
    else (k, v) :: insert key value rest

/-- The entries of a list in key order; of two with one name the later stays. -/
def ofList (entries : List (String × α)) : List (String × α) :=
  entries.foldl (fun sorted entry => insert entry.1 entry.2 sorted) []

/-- The value bound to `key`. -/
def get? (key : String) (entries : List (String × α)) : Option α :=
  (entries.find? fun entry => entry.1 == key).map Prod.snd

end Entries

end ColumnStore
