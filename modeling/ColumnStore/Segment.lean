import ColumnStore.Bitmap
import ColumnStore.Column

/-!
# Segments

A segment is one column's part of one chunk. It has room for `capacity` rows; a bitmap marks the
offsets that hold a cell, and the cells lie in an array of the column's own type, truth values in a
bitmap. Where an offset is not marked, what the array holds there means nothing.

`Segment.cell?` is the view as a map from offsets to cells. Filters narrow a selection of offsets to
those that are marked and pass a test.
-/

namespace ColumnStore

/-- The cells of a segment, one array for each kind (`SegmentData`). -/
inductive Cells where
  | float64 (values : Array Binary64)
  | bool (values : Bitmap)
  | enum (ids : Array Nat)
  | any (values : Array Value)

namespace Cells

/-- The kind of the cells. -/
def kind : Cells → Kind
  | float64 _ => .float64
  | bool _ => .bool
  | enum _ => .enum
  | any _ => .any

/-- Room for `capacity` cells of a kind. -/
def withCapacity : Kind → Nat → Cells
  | .float64, capacity => float64 (Array.replicate capacity .zero)
  | .bool, capacity => bool (.withCapacity capacity)
  | .enum, capacity => enum (Array.replicate capacity 0)
  | .any, capacity => any (Array.replicate capacity .null)

/-- An array made longer with a filler, never shorter. -/
def extend {α : Type} (values : Array α) (capacity : Nat) (filler : α) : Array α :=
  values ++ Array.replicate (capacity - values.size) filler

/-- Room for at least `capacity` cells. -/
def grow (cells : Cells) (capacity : Nat) : Cells :=
  match cells with
  | float64 values => float64 (extend values capacity .zero)
  | bool values => bool (values.grow capacity)
  | enum ids => enum (extend ids capacity 0)
  | any values => any (extend values capacity .null)

/-- The cell at an offset, marked or not. -/
def get? (cells : Cells) (offset : Nat) : Option Cell :=
  match cells with
  | float64 values => values[offset]?.map Cell.float64
  | bool values => some (.bool (values.contains offset))
  | enum ids => ids[offset]?.map Cell.enum
  | any values => values[offset]?.map Cell.any

/-- Puts a cell of the same kind at an offset; a cell of another kind changes nothing. -/
def put (cells : Cells) (offset : Nat) (cell : Cell) : Cells :=
  match cells, cell with
  | float64 values, .float64 x => float64 (values.modify offset fun _ => x)
  | bool values, .bool b => bool (values.assign offset b)
  | enum ids, .enum id => enum (ids.modify offset fun _ => id)
  | any values, .any v => any (values.modify offset fun _ => v)
  | cells, _ => cells

/-- Drops what an offset holds where holding on to it would keep a value alive. -/
def forget (cells : Cells) (offset : Nat) : Cells :=
  match cells with
  | any values => any (values.modify offset fun _ => .null)
  | cells => cells

end Cells

/-- One column's rows within one chunk (`ColumnSegment`). -/
structure Segment where
  capacity : Nat
  presence : Bitmap
  cells : Cells

namespace Segment

/-- No row present, with room for `capacity` rows (`new`). -/
def withCapacity (kind : Kind) (capacity : Nat) : Segment :=
  ⟨capacity, .withCapacity capacity, .withCapacity kind capacity⟩

/-- The kind of the segment's column (`kind`). -/
def kind (s : Segment) : Kind := s.cells.kind

/-- Room for at least `capacity` rows (`grow`). Never shrinks. -/
def grow (s : Segment) (capacity : Nat) : Segment :=
  if capacity ≤ s.capacity then s
  else ⟨capacity, s.presence.grow capacity, s.cells.grow capacity⟩

/-- Whether an offset holds a cell (`is_present`). -/
def isPresent (s : Segment) (offset : Nat) : Bool := s.presence.contains offset

/-- The cell at an offset that holds one. -/
def cell? (s : Segment) (offset : Nat) : Option Cell :=
  if s.isPresent offset then s.cells.get? offset else none

/-- Fails for an offset past the capacity (`check_range`). -/
def checkRange (s : Segment) (offset : Nat) : Except Error Unit :=
  if offset < s.capacity then .ok () else .error (.outOfRange offset s.capacity)

/-- Fails if the cell cannot be put at the offset: past the capacity, or of another kind. A segment
    does not know its column's name, and the error leaves it empty. -/
def checkPut (s : Segment) (offset : Nat) (cell : Cell) : Except Error Unit := do
  s.checkRange offset
  if cell.kind = s.kind then .ok ()
  else .error (.typeMismatch "" s.kind.name cell.kind.name)

/-- Marks an offset and puts a cell there. -/
def put (s : Segment) (offset : Nat) (cell : Cell) : Segment :=
  ⟨s.capacity, s.presence.set offset, s.cells.put offset cell⟩

/-- Unmarks an offset. -/
def remove (s : Segment) (offset : Nat) : Segment :=
  ⟨s.capacity, s.presence.clear offset, s.cells.forget offset⟩

/-- Writes a cell (`set_at`). -/
def setAt (s : Segment) (offset : Nat) (cell : Cell) : Except Error Segment := do
  s.checkPut offset cell
  pure (s.put offset cell)

/-- Makes an offset hold nothing (`clear_at`). -/
def clearAt (s : Segment) (offset : Nat) : Except Error Segment := do
  s.checkRange offset
  pure (s.remove offset)

/-- Fails if the cell, or nothing, cannot be written at the offset. -/
def checkWrite (s : Segment) (offset : Nat) : Option Cell → Except Error Unit
  | some cell => s.checkPut offset cell
  | none => s.checkRange offset

/-- Writes a cell, or nothing. -/
def write (s : Segment) (offset : Nat) : Option Cell → Segment
  | some cell => s.put offset cell
  | none => s.remove offset

/-- The cell at an offset, none if it holds nothing (`value_at`). -/
def valueAt (s : Segment) (offset : Nat) : Except Error (Option Cell) := do
  s.checkRange offset
  pure (s.cell? offset)

/-- The number at an offset of a segment of numbers (`float_at`). -/
def floatAt (s : Segment) (offset : Nat) : Option Binary64 :=
  match s.cells with
  | .float64 values => if s.isPresent offset then values[offset]? else none
  | _ => none

/-- The id at an offset of a dictionary segment (`enum_at`). -/
def enumAt (s : Segment) (offset : Nat) : Option Nat :=
  match s.cells with
  | .enum ids => if s.isPresent offset then ids[offset]? else none
  | _ => none

/-- The offsets a selector keeps: those holding `true` in a segment of truth values, those present
    in any other (`truthy`). -/
def truthy (s : Segment) : Bitmap :=
  match s.cells with
  | .bool values => values.and s.presence
  | _ => s.presence

/-! ## Filters -/

/-- The selected offsets that are present and pass `keep` (`retain`). -/
def retain (s : Segment) (keep : Nat → Bool) (selection : Bitmap) : Bitmap :=
  let present := selection.and s.presence
  present.and ((present.toList.filter keep).foldl Bitmap.set (.withCapacity s.capacity))

/-- The selected offsets whose number passes `f` (`filter_float`). -/
def filterFloat (s : Segment) (f : Binary64 → Bool) (selection : Bitmap) : Bitmap :=
  match s.cells with
  | .float64 values => s.retain (fun offset => values[offset]?.any f) selection
  | _ => selection.reset

/-- The selected offsets whose id is marked in a table; an id past its end is not
    (`filter_enum`). -/
def filterEnum (s : Segment) (table : Array Bool) (selection : Bitmap) : Bitmap :=
  match s.cells with
  | .enum ids => s.retain (fun offset => ids[offset]?.any fun id => table[id]?.getD false) selection
  | _ => selection.reset

/-- The selected offsets whose value passes `f` (`filter_value`). -/
def filterValue (s : Segment) (dictionary : Dictionary) (f : Value → Bool) (selection : Bitmap) :
    Bitmap :=
  s.retain (fun offset => (s.cell? offset).any fun cell => f (Column.decode dictionary cell))
    selection

end Segment

end ColumnStore
