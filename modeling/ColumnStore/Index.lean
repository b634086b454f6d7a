import ColumnStore.Segment

/-!
# Indexes

An index names a source column and a predicate on its values. In each chunk a bitmap holds the
offsets whose source cell is present and satisfies the predicate; it is brought up to date by every
write to the source.

An index that a snapshot brought along has no predicate until one is attached: it is *detached*, and
its bitmaps stay as they came except that a write takes the written row out.
-/

namespace ColumnStore

/-- A named predicate over the values of one column, given by name and position. A detached index
    has no predicate. -/
structure Index where
  name : String
  source : String
  sourceSlot : Nat
  predicate : Option (Value → Bool)

namespace Index

/-- Whether the index has a predicate (`is_attached`). -/
def isAttached (index : Index) : Bool := index.predicate.isSome

/-- The same index with a predicate (`attach`). -/
def attach (index : Index) (predicate : Value → Bool) : Index :=
  { index with predicate := some predicate }

/-- For a dictionary source, what the predicate says of each text, by id (`lookup_table`). -/
def table? (index : Index) (column : Column) (dictionary : Dictionary) : Option (Array Bool) :=
  index.predicate.bind fun predicate => column.evaluate dictionary fun s => predicate (.string s)

/-- The offsets of a segment that satisfy the predicate, by the table if there is one and by value
    otherwise; none when detached (`compute`). -/
def compute (index : Index) (dictionary : Dictionary) (segment : Segment)
    (table : Option (Array Bool)) : Option Bitmap :=
  index.predicate.map fun predicate =>
    let hit (offset : Nat) : Bool :=
      match table with
      | some table => (segment.enumAt offset).any fun id => table[id]?.getD false
      | none =>
        match segment.valueAt offset with
        | .ok (some cell) => predicate (Column.decode dictionary cell)
        | _ => false
    (segment.presence.toList.filter hit).foldl Bitmap.set (.withCapacity segment.capacity)

/-- What the predicate says of one row's cell; a row without one is never in the index
    (`evaluate_cell`). None when detached. -/
def evaluateCell (index : Index) (dictionary : Dictionary) (cell : Option Cell) : Option Bool :=
  index.predicate.map fun predicate =>
    cell.any fun cell => predicate (Column.decode dictionary cell)

end Index

end ColumnStore
