import ColumnStore.Segment
import ColumnStore.Proofs.Bitmap

/-!
# Segments as maps from offsets to cells

`Segment.cell?` is the meaning of a segment. `Segment.WellFormed` is the form a segment has in a
chunk: cells of one kind, room for the chunk's capacity in every part. Results, each for a
well-formed segment:

* `cell?_put`, `cell?_remove`, `cell?_grow`: writing is the update of a map at one offset, and
  growing changes nothing;
* `checkWrite_eq_ok_iff`: a write is refused only past the capacity or for a cell of another kind;
* `contains_truthy`, `contains_filterFloat`, `contains_filterEnum`, `contains_filterValue`: a filter
  keeps a selected offset exactly if its cell passes.
-/

namespace ColumnStore

/-- The number in a cell of numbers. -/
def Cell.number? : Cell → Option Binary64
  | .float64 x => some x
  | _ => none

/-- The id in a dictionary cell. -/
def Cell.id? : Cell → Option Nat
  | .enum id => some id
  | _ => none

/-- Whether a selector over the cell's column keeps the cell: `true`, or anything in a column of
    another kind. -/
def Cell.isTruthy : Cell → Bool
  | .bool b => b
  | _ => true

namespace Cells

/-- Every array has `capacity` places. -/
def Room (capacity : Nat) : Cells → Prop
  | float64 values => values.size = capacity
  | bool values => values.words.size = Bitmap.wordCount capacity
  | enum ids => ids.size = capacity
  | any values => values.size = capacity

theorem kind_withCapacity (kind : Kind) (capacity : Nat) :
    (withCapacity kind capacity).kind = kind := by
  cases kind <;> rfl

theorem room_withCapacity (kind : Kind) (capacity : Nat) :
    (withCapacity kind capacity).Room capacity := by
  cases kind <;> exact Array.size_replicate ..

theorem kind_grow (cells : Cells) (capacity : Nat) : (cells.grow capacity).kind = cells.kind := by
  cases cells <;> rfl

theorem kind_put (cells : Cells) (offset : Nat) (cell : Cell) :
    (cells.put offset cell).kind = cells.kind := by
  cases cells <;> cases cell <;> rfl

theorem kind_forget (cells : Cells) (offset : Nat) : (cells.forget offset).kind = cells.kind := by
  cases cells <;> rfl

theorem size_extend {α : Type} (values : Array α) (capacity : Nat) (filler : α) :
    (extend values capacity filler).size = max values.size capacity := by
  rw [extend, Array.size_append, Array.size_replicate]
  omega

theorem getElem?_extend {α : Type} {values : Array α} {offset : Nat} (h : offset < values.size)
    (capacity : Nat) (filler : α) : (extend values capacity filler)[offset]? = values[offset]? := by
  rw [extend, Array.getElem?_append_left h]

theorem Room.grow {cells : Cells} {capacity capacity' : Nat} (h : cells.Room capacity)
    (hle : capacity ≤ capacity') : (cells.grow capacity').Room capacity' := by
  cases cells with
  | bool values =>
    show (values.grow capacity').words.size = Bitmap.wordCount capacity'
    have hsize : values.words.size = Bitmap.wordCount capacity := h
    rw [Bitmap.size_grow, hsize]
    simp only [Bitmap.wordCount]
    omega
  | _ =>
    rw [Cells.grow, Room, size_extend]
    rw [Room] at h
    omega

theorem Room.put {cells : Cells} {capacity offset : Nat} (h : cells.Room capacity)
    (hlt : offset < capacity) (cell : Cell) : (cells.put offset cell).Room capacity := by
  cases cells with
  | bool values =>
    cases cell with
    | bool b =>
      have hsize : values.words.size = Bitmap.wordCount capacity := h
      have hroom : offset < values.words.size * 64 := by
        rw [hsize, Bitmap.wordCount]
        omega
      exact (Bitmap.size_assign_of_lt hroom).trans hsize
    | _ => exact h
  | float64 values => cases cell <;> first | exact h | exact (Array.size_modify ..).trans h
  | enum ids => cases cell <;> first | exact h | exact (Array.size_modify ..).trans h
  | any values => cases cell <;> first | exact h | exact (Array.size_modify ..).trans h

theorem Room.forget {cells : Cells} {capacity : Nat} (h : cells.Room capacity) (offset : Nat) :
    (cells.forget offset).Room capacity := by
  cases cells with
  | any values => exact (Array.size_modify ..).trans h
  | _ => exact h

/-! ## What an offset holds -/

theorem get?_isSome {cells : Cells} {capacity offset : Nat} (h : cells.Room capacity)
    (hlt : offset < capacity) : (cells.get? offset).isSome := by
  cases cells with
  | bool values => rfl
  | _ =>
    rw [Room] at h
    rw [get?, Option.isSome_map, Array.getElem?_eq_getElem (by omega)]
    rfl

theorem kind_of_get? {cells : Cells} {offset : Nat} {cell : Cell}
    (h : cells.get? offset = some cell) : cell.kind = cells.kind := by
  cases cells with
  | bool values =>
    cases h
    rfl
  | _ =>
    obtain ⟨x, -, rfl⟩ := Option.map_eq_some_iff.mp h
    rfl

theorem get?_grow {cells : Cells} {capacity offset : Nat} (h : cells.Room capacity)
    (hlt : offset < capacity) (capacity' : Nat) :
    (cells.grow capacity').get? offset = cells.get? offset := by
  cases cells with
  | bool values =>
    show some (Cell.bool ((values.grow capacity').contains offset)) = _
    rw [Bitmap.contains_grow]
    rfl
  | _ =>
    rw [Room] at h
    rw [grow, get?, get?, getElem?_extend (by omega)]

theorem getElem?_modify_const {α : Type} {values : Array α} {offset : Nat}
    (h : offset < values.size)
    (x : α) (other : Nat) :
    (values.modify offset fun _ => x)[other]? =
      if offset = other then some x else values[other]? := by
  rw [Array.getElem?_modify]
  split_ifs with heq
  · rw [← heq, Array.getElem?_eq_getElem h]
    rfl
  · rfl

theorem get?_put {cells : Cells} {capacity offset : Nat} (h : cells.Room capacity)
    (hlt : offset < capacity) {cell : Cell} (hkind : cell.kind = cells.kind) (other : Nat) :
    (cells.put offset cell).get? other =
      if offset = other then some cell else cells.get? other := by
  cases cells with
  | float64 values =>
    cases cell <;> try cases hkind
    rw [put, get?, get?, getElem?_modify_const (lt_of_lt_of_eq hlt h.symm)]
    split_ifs <;> rfl
  | bool values =>
    cases cell <;> try cases hkind
    rw [put, get?, get?, Bitmap.contains_assign]
    split_ifs <;> rfl
  | enum ids =>
    cases cell <;> try cases hkind
    rw [put, get?, get?, getElem?_modify_const (lt_of_lt_of_eq hlt h.symm)]
    split_ifs <;> rfl
  | any values =>
    cases cell <;> try cases hkind
    rw [put, get?, get?, getElem?_modify_const (lt_of_lt_of_eq hlt h.symm)]
    split_ifs <;> rfl

theorem get?_forget (cells : Cells) {offset other : Nat} (hne : offset ≠ other) :
    (cells.forget offset).get? other = cells.get? other := by
  cases cells with
  | any values => rw [forget, get?, get?, Array.getElem?_modify, if_neg hne]
  | _ => rfl

end Cells

namespace Segment

/-- The segment has cells of a kind, and every part of it has room for `capacity` rows. -/
structure WellFormed (kind : Kind) (capacity : Nat) (s : Segment) : Prop where
  kind_eq : s.kind = kind
  capacity_eq : s.capacity = capacity
  presence : s.presence.Fits capacity
  room : s.cells.Room capacity

variable {kind : Kind} {capacity : Nat} {s : Segment}

theorem wellFormed_withCapacity (kind : Kind) (capacity : Nat) :
    (withCapacity kind capacity).WellFormed kind capacity where
  kind_eq := Cells.kind_withCapacity kind capacity
  capacity_eq := rfl
  presence := Bitmap.fits_withCapacity capacity
  room := Cells.room_withCapacity kind capacity

/-! ## Cells -/

theorem cell?_of_isPresent {offset : Nat} (h : s.isPresent offset = true) :
    s.cell? offset = s.cells.get? offset := if_pos h

theorem cell?_of_not_isPresent {offset : Nat} (h : s.isPresent offset = false) :
    s.cell? offset = none := by
  rw [cell?, h]
  rfl

@[simp]
theorem cell?_withCapacity (kind : Kind) (capacity offset : Nat) :
    (withCapacity kind capacity).cell? offset = none :=
  cell?_of_not_isPresent (Bitmap.contains_withCapacity capacity offset)

theorem isPresent_of_cell? {offset : Nat} {cell : Cell} (h : s.cell? offset = some cell) :
    s.isPresent offset = true := by
  by_contra hnot
  rw [cell?_of_not_isPresent (by simpa using hnot)] at h
  cases h

theorem kind_of_cell? {offset : Nat} {cell : Cell} (h : s.cell? offset = some cell) :
    cell.kind = s.kind := by
  rw [cell?_of_isPresent (isPresent_of_cell? h)] at h
  exact Cells.kind_of_get? h

theorem WellFormed.isSome_cell? (hs : s.WellFormed kind capacity) (offset : Nat) :
    (s.cell? offset).isSome = s.isPresent offset := by
  cases h : s.isPresent offset
  · rw [cell?_of_not_isPresent h]
    rfl
  · rw [cell?_of_isPresent h]
    exact Cells.get?_isSome hs.room (hs.presence.lt offset h)

/-! ## Writing -/

theorem WellFormed.grow (hs : s.WellFormed kind capacity) {capacity' : Nat}
    (hle : capacity ≤ capacity') : (s.grow capacity').WellFormed kind capacity' := by
  unfold Segment.grow
  split_ifs with h
  · have : capacity' = capacity := by
      have := hs.capacity_eq
      omega
    rwa [this]
  · exact ⟨(Cells.kind_grow _ _).trans hs.kind_eq, rfl, hs.presence.grow hle, hs.room.grow hle⟩

theorem WellFormed.cell?_grow (hs : s.WellFormed kind capacity) (capacity' offset : Nat) :
    (s.grow capacity').cell? offset = s.cell? offset := by
  unfold Segment.grow
  split_ifs with h
  · rfl
  · cases hp : s.isPresent offset with
    | false =>
      rw [cell?_of_not_isPresent hp, cell?_of_not_isPresent]
      rwa [isPresent, Bitmap.contains_grow]
    | true =>
      rw [cell?_of_isPresent hp, cell?_of_isPresent (by rwa [isPresent, Bitmap.contains_grow])]
      exact Cells.get?_grow hs.room (hs.presence.lt offset hp) capacity'

theorem WellFormed.put (hs : s.WellFormed kind capacity) {offset : Nat} (hlt : offset < capacity)
    (cell : Cell) : (s.put offset cell).WellFormed kind capacity where
  kind_eq := (Cells.kind_put ..).trans hs.kind_eq
  capacity_eq := hs.capacity_eq
  presence := hs.presence.set hlt
  room := hs.room.put hlt cell

theorem WellFormed.remove (hs : s.WellFormed kind capacity) (offset : Nat) :
    (s.remove offset).WellFormed kind capacity where
  kind_eq := (Cells.kind_forget ..).trans hs.kind_eq
  capacity_eq := hs.capacity_eq
  presence := hs.presence.clear offset
  room := hs.room.forget offset

theorem WellFormed.cell?_put (hs : s.WellFormed kind capacity) {offset : Nat}
    (hlt : offset < capacity) {cell : Cell} (hkind : cell.kind = kind) (other : Nat) :
    (s.put offset cell).cell? other = if offset = other then some cell else s.cell? other := by
  have hget := Cells.get?_put hs.room hlt (hkind.trans hs.kind_eq.symm) other
  have hpresent : (s.put offset cell).isPresent other =
      (decide (offset = other) || s.isPresent other) := Bitmap.contains_set ..
  by_cases heq : offset = other
  · rw [if_pos heq] at hget ⊢
    rw [cell?_of_isPresent (by rw [hpresent]; simp [heq])]
    exact hget
  · rw [cell?, cell?, hpresent, decide_eq_false heq, Bool.false_or, if_neg heq]
    rw [if_neg heq] at hget
    show (if s.isPresent other then (s.cells.put offset cell).get? other else none) = _
    rw [hget]

theorem cell?_remove (s : Segment) (offset other : Nat) :
    (s.remove offset).cell? other = if offset = other then none else s.cell? other := by
  have hpresent : (s.remove offset).isPresent other =
      (s.isPresent other && !decide (offset = other)) := Bitmap.contains_clear ..
  split_ifs with heq
  · exact cell?_of_not_isPresent (by rw [hpresent]; simp [heq])
  · rw [cell?, cell?, hpresent, decide_eq_false heq, Bool.not_false, Bool.and_true]
    show (if s.isPresent other then (s.cells.forget offset).get? other else none) = _
    rw [Cells.get?_forget _ heq]

/-- Writing a cell, or nothing, is the update of a map at one offset. -/
theorem WellFormed.cell?_write (hs : s.WellFormed kind capacity) {offset : Nat}
    (hlt : offset < capacity) {cell : Option Cell} (hkind : ∀ c ∈ cell, c.kind = kind)
    (other : Nat) :
    (s.write offset cell).cell? other = if offset = other then cell else s.cell? other := by
  cases cell with
  | none => exact cell?_remove s offset other
  | some cell => exact hs.cell?_put hlt (hkind cell rfl) other

theorem WellFormed.write (hs : s.WellFormed kind capacity) {offset : Nat} (hlt : offset < capacity)
    (cell : Option Cell) : (s.write offset cell).WellFormed kind capacity := by
  cases cell with
  | none => exact hs.remove offset
  | some cell => exact hs.put hlt cell

theorem WellFormed.checkRange_of_lt (hs : s.WellFormed kind capacity) {offset : Nat}
    (hlt : offset < capacity) : s.checkRange offset = .ok () := by
  rw [checkRange, hs.capacity_eq, if_pos hlt]

theorem WellFormed.checkWrite_of_lt (hs : s.WellFormed kind capacity) {offset : Nat}
    (hlt : offset < capacity) {cell : Option Cell} (hkind : ∀ c ∈ cell, c.kind = kind) :
    s.checkWrite offset cell = .ok () := by
  cases cell with
  | none => exact hs.checkRange_of_lt hlt
  | some cell =>
    show s.checkPut offset cell = .ok ()
    unfold checkPut
    rw [hs.checkRange_of_lt hlt, if_pos ((hkind cell rfl).trans hs.kind_eq.symm)]
    rfl

theorem WellFormed.valueAt_of_lt (hs : s.WellFormed kind capacity) {offset : Nat}
    (hlt : offset < capacity) : s.valueAt offset = .ok (s.cell? offset) := by
  unfold valueAt
  rw [hs.checkRange_of_lt hlt]
  rfl

/-! ## Typed reading -/

theorem floatAt_eq (s : Segment) (offset : Nat) :
    s.floatAt offset = (s.cell? offset).bind Cell.number? := by
  unfold floatAt cell? Cells.get?
  cases s.cells with
  | bool values => cases s.isPresent offset <;> rfl
  | float64 values =>
    simp only
    generalize values[offset]? = x
    cases s.isPresent offset <;> cases x <;> rfl
  | enum ids =>
    simp only
    generalize ids[offset]? = x
    cases s.isPresent offset <;> cases x <;> rfl
  | any values =>
    simp only
    generalize values[offset]? = x
    cases s.isPresent offset <;> cases x <;> rfl

theorem enumAt_eq (s : Segment) (offset : Nat) :
    s.enumAt offset = (s.cell? offset).bind Cell.id? := by
  unfold enumAt cell? Cells.get?
  cases s.cells with
  | bool values => cases s.isPresent offset <;> rfl
  | float64 values =>
    simp only
    generalize values[offset]? = x
    cases s.isPresent offset <;> cases x <;> rfl
  | enum ids =>
    simp only
    generalize ids[offset]? = x
    cases s.isPresent offset <;> cases x <;> rfl
  | any values =>
    simp only
    generalize values[offset]? = x
    cases s.isPresent offset <;> cases x <;> rfl

/-! ## Filters -/

theorem WellFormed.contains_truthy (hs : s.WellFormed kind capacity) (offset : Nat) :
    s.truthy.contains offset = (s.cell? offset).any Cell.isTruthy := by
  have hsome := hs.isSome_cell? offset
  unfold truthy
  cases hcells : s.cells with
  | bool values =>
    rw [Bitmap.contains_and, cell?, hcells]
    show (values.contains offset && s.isPresent offset) = _
    cases s.isPresent offset <;> simp [Cells.get?, Cell.isTruthy]
  | _ =>
    show s.isPresent offset = _
    rw [← hsome]
    cases hcell : s.cell? offset with
    | none => rfl
    | some cell =>
      have hkind := kind_of_cell? hcell
      rw [Segment.kind, hcells] at hkind
      cases cell <;> first | rfl | cases hkind

theorem contains_retain (s : Segment) (keep : Nat → Bool) (selection : Bitmap) (offset : Nat) :
    (s.retain keep selection).contains offset =
      (selection.contains offset && (s.isPresent offset && keep offset)) := by
  unfold retain
  simp only
  rw [Bitmap.contains_and, Bitmap.contains_foldl_set, Bitmap.contains_withCapacity, Bool.or_false]
  have hmem : offset ∈ ((selection.and s.presence).toList.filter keep) ↔
      (selection.contains offset = true ∧ s.isPresent offset = true) ∧ keep offset = true := by
    rw [List.mem_filter, Bitmap.mem_toList, Bitmap.contains_and, Bool.and_eq_true]
    rfl
  rw [Bool.eq_iff_iff, Bool.and_eq_true, decide_eq_true_eq, hmem, Bitmap.contains_and]
  simp only [Bool.and_eq_true, isPresent]
  tauto

theorem size_retain (s : Segment) (keep : Nat → Bool) (selection : Bitmap) :
    (s.retain keep selection).words.size = selection.words.size := by
  rw [retain, Bitmap.size_and, Bitmap.size_and]

theorem contains_filterFloat (s : Segment) (f : Binary64 → Bool) (selection : Bitmap)
    (offset : Nat) :
    (s.filterFloat f selection).contains offset =
      (selection.contains offset && ((s.cell? offset).bind Cell.number?).any f) := by
  rw [← floatAt_eq]
  unfold filterFloat floatAt
  cases s.cells with
  | float64 values =>
    simp only
    rw [contains_retain]
    cases s.isPresent offset <;> rfl
  | _ => simp

theorem size_filterFloat (s : Segment) (f : Binary64 → Bool) (selection : Bitmap) :
    (s.filterFloat f selection).words.size = selection.words.size := by
  unfold filterFloat
  cases s.cells with
  | float64 values => exact size_retain ..
  | _ => exact Bitmap.size_reset selection

theorem contains_filterEnum (s : Segment) (table : Array Bool) (selection : Bitmap) (offset : Nat) :
    (s.filterEnum table selection).contains offset =
      (selection.contains offset &&
        ((s.cell? offset).bind Cell.id?).any fun id => table[id]?.getD false) := by
  rw [← enumAt_eq]
  unfold filterEnum enumAt
  cases s.cells with
  | enum ids =>
    simp only
    rw [contains_retain]
    cases s.isPresent offset <;> rfl
  | _ => simp

theorem size_filterEnum (s : Segment) (table : Array Bool) (selection : Bitmap) :
    (s.filterEnum table selection).words.size = selection.words.size := by
  unfold filterEnum
  cases s.cells with
  | enum ids => exact size_retain ..
  | _ => exact Bitmap.size_reset selection

theorem contains_filterValue (s : Segment) (dictionary : Dictionary) (f : Value → Bool)
    (selection : Bitmap) (offset : Nat) :
    (s.filterValue dictionary f selection).contains offset =
      (selection.contains offset &&
        (s.cell? offset).any fun cell => f (Column.decode dictionary cell)) := by
  unfold filterValue
  rw [contains_retain]
  cases hp : s.isPresent offset with
  | false => simp [cell?_of_not_isPresent hp]
  | true => rw [Bool.true_and]

theorem size_filterValue (s : Segment) (dictionary : Dictionary) (f : Value → Bool)
    (selection : Bitmap) :
    (s.filterValue dictionary f selection).words.size = selection.words.size := size_retain ..

end Segment

end ColumnStore
