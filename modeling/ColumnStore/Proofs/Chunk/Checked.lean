import ColumnStore.Proofs.Chunk.History
import ColumnStore.Proofs.Chunk.Write
import ColumnStore.Proofs.Scanner

/-!
# Places of a chunk

A write looks up segments and places in them without asking whether they are there, a filter does so
with the cells of the rows it asks about, and a deletion does not ask whether an offset could be
cleared. The forms of these operations here do ask: they stop at a place that is not there
(`Stop.bounds`) and wherever a segment refuses to write or to clear (`Stop.refused`).

In a chunk whose parts are in step they come to what the others come to:

* `Segment.WellFormed.filterFloatChecked_eq`, `filterEnumChecked_eq`, `filterValueChecked_eq`: a
  filter never stops;
* `Lockstep.deleteSelectedChecked_eq`: a deletion never stops;
* `Lockstep.insertChecked_eq`: a row is inserted, or refused, and no place is missing;
* `Lockstep.inBounds`: all of this together.
-/

namespace ColumnStore

namespace Checked

/-- A loop that never stops. The invariant is kept by every round. -/
theorem foldlM_of_forall {ι σ : Type} {f : σ → ι → Checked σ} {g : σ → ι → σ} {items : List ι}
    (P : σ → Prop) (h : ∀ s, P s → ∀ i ∈ items, f s i = .ok (g s i) ∧ P (g s i)) {s : σ}
    (hs : P s) : items.foldlM f s = .ok (items.foldl g s) := by
  induction items generalizing s with
  | nil => rfl
  | cons i rest ih =>
    obtain ⟨hstep, hnext⟩ := h s hs i List.mem_cons_self
    rw [List.foldlM_cons, hstep, ok_bind, List.foldl_cons]
    exact ih (fun s hs j hj => h s hs j (List.mem_cons_of_mem _ hj)) hnext

end Checked

/-! ## Segments -/

namespace Segment

/-- The cell at an offset, none if it holds nothing or lies past the capacity (`value_at`). -/
def valueAtChecked (s : Segment) (offset : Nat) : Checked (Option Cell) :=
  if offset < s.capacity ∧ s.isPresent offset = true then
    (Checked.place (s.cells.get? offset)).map some
  else pure none

/-- Writes a cell (`set_at`). -/
def setAtChecked (s : Segment) (offset : Nat) (cell : Cell) : Checked Segment := do
  (s.checkPut offset cell).mapError Stop.refused
  let _ ← Checked.place (s.cells.get? offset)
  pure (s.put offset cell)

/-- Makes an offset hold nothing (`clear_at`). Only a segment of any values has something to
    drop. -/
def clearAtChecked (s : Segment) (offset : Nat) : Checked Segment := do
  (s.checkRange offset).mapError Stop.refused
  match s.cells with
  | .any values => do
    let _ ← Checked.place values[offset]?
    pure (s.remove offset)
  | _ => pure (s.remove offset)

/-- The selected offsets that are present and pass `keep` (`retain`). -/
def retainChecked (s : Segment) (keep : Nat → Checked Bool) (selection : Bitmap) :
    Checked Bitmap := do
  let present := selection.and s.presence
  let passed ← present.toList.foldlM (fun passed offset => do
    let kept ← keep offset
    pure (if kept then passed.set offset else passed)) (Bitmap.withCapacity s.capacity)
  pure (present.and passed)

/-- The selected offsets whose number passes `f` (`filter_float`). -/
def filterFloatChecked (s : Segment) (f : Binary64 → Bool) (selection : Bitmap) :
    Checked Bitmap :=
  match s.cells with
  | .float64 values =>
    s.retainChecked (fun offset => (Checked.place values[offset]?).map f) selection
  | _ => pure selection.reset

/-- The selected offsets whose id is marked in a table; an id past its end is not
    (`filter_enum`). -/
def filterEnumChecked (s : Segment) (table : Array Bool) (selection : Bitmap) : Checked Bitmap :=
  match s.cells with
  | .enum ids =>
    s.retainChecked (fun offset =>
      (Checked.place ids[offset]?).map fun id => table[id]?.getD false) selection
  | _ => pure selection.reset

/-- The selected offsets whose value passes `f` (`filter_value`). A segment of any values is asked
    directly. -/
def filterValueChecked (s : Segment) (dictionary : Dictionary) (f : Value → Bool)
    (selection : Bitmap) : Checked Bitmap :=
  match s.cells with
  | .any values =>
    s.retainChecked (fun offset => (Checked.place values[offset]?).map f) selection
  | _ =>
    s.retainChecked (fun offset => (s.valueAtChecked offset).map fun cell =>
      cell.any fun cell => f (Column.decode dictionary cell)) selection

variable {kind : Kind} {capacity : Nat} {s : Segment}

theorem WellFormed.place_get? (hs : s.WellFormed kind capacity) {offset : Nat}
    (hlt : offset < capacity) :
    ∃ cell, s.cells.get? offset = some cell ∧ Checked.place (s.cells.get? offset) = .ok cell := by
  obtain ⟨cell, hcell⟩ := Option.isSome_iff_exists.mp (Cells.get?_isSome hs.room hlt)
  exact ⟨cell, hcell, by rw [hcell]; rfl⟩

theorem WellFormed.valueAtChecked_eq (hs : s.WellFormed kind capacity) (offset : Nat) :
    s.valueAtChecked offset = .ok (s.valueAt offset).toOption.join := by
  unfold valueAtChecked
  rw [hs.capacity_eq]
  by_cases hlt : offset < capacity
  · rw [hs.valueAt_of_lt hlt]
    cases hpresent : s.isPresent offset with
    | false =>
      rw [if_neg (by simp), cell?_of_not_isPresent hpresent]
      rfl
    | true =>
      obtain ⟨cell, hcell, hplace⟩ := hs.place_get? hlt
      rw [if_pos ⟨hlt, rfl⟩, hplace, cell?_of_isPresent hpresent, hcell]
      rfl
  · rw [if_neg fun h => hlt h.1, valueAt, checkRange, hs.capacity_eq, if_neg hlt]
    rfl

/-- A write is refused as it was, and no place is missing. -/
theorem WellFormed.setAtChecked_eq (hs : s.WellFormed kind capacity) (offset : Nat) (cell : Cell) :
    s.setAtChecked offset cell = (s.setAt offset cell).mapError Stop.refused := by
  unfold setAtChecked setAt checkPut
  by_cases hlt : offset < capacity
  · obtain ⟨old, -, hplace⟩ := hs.place_get? hlt
    rw [hs.checkRange_of_lt hlt, hplace]
    by_cases hkind : cell.kind = s.kind
    · rw [if_pos hkind]
      rfl
    · rw [if_neg hkind]
      rfl
  · rw [checkRange, hs.capacity_eq, if_neg hlt]
    rfl

/-- An offset in reach is cleared. -/
theorem WellFormed.clearAtChecked_eq (hs : s.WellFormed kind capacity) {offset : Nat}
    (hlt : offset < capacity) : s.clearAtChecked offset = .ok (s.remove offset) := by
  have hroom := hs.room
  unfold clearAtChecked
  rw [hs.checkRange_of_lt hlt]
  cases hcells : s.cells with
  | any values =>
    rw [hcells] at hroom
    show (Checked.place values[offset]? >>= fun _ => pure (s.remove offset) : Checked Segment) = _
    rw [Array.getElem?_eq_getElem (hlt.trans_eq hroom.symm)]
    rfl
  | _ => rfl

theorem retainChecked_eq {keep : Nat → Checked Bool} {kept : Nat → Bool}
    (h : ∀ offset, s.isPresent offset = true → keep offset = .ok (kept offset))
    (selection : Bitmap) :
    s.retainChecked keep selection = .ok (s.retain kept selection) := by
  have hloop : ∀ (offsets : List Nat) (passed : Bitmap),
      (∀ offset ∈ offsets, s.isPresent offset = true) →
      offsets.foldlM (fun passed offset => do
        let kept ← keep offset
        pure (if kept then passed.set offset else passed)) passed =
          (.ok ((offsets.filter kept).foldl Bitmap.set passed) : Checked Bitmap) := by
    intro offsets
    induction offsets with
    | nil => exact fun _ _ => rfl
    | cons offset rest ih =>
      intro passed hpresent
      rw [List.forall_mem_cons] at hpresent
      rw [List.foldlM_cons, h offset hpresent.1, List.filter_cons]
      cases kept offset with
      | false => exact ih passed hpresent.2
      | true => exact ih (passed.set offset) hpresent.2
  unfold retainChecked
  dsimp only
  rw [hloop _ _ fun offset hmem => ?_]
  · rfl
  · rw [Bitmap.mem_toList, Bitmap.contains_and, Bool.and_eq_true] at hmem
    exact hmem.2

/-- Looking at the cells of present offsets only, in an array with room for all rows. -/
theorem WellFormed.place_present (hs : s.WellFormed kind capacity) {α : Type} {values : Array α}
    (hroom : values.size = capacity) (f : α → Bool) {offset : Nat}
    (hpresent : s.isPresent offset = true) :
    (Checked.place values[offset]?).map f = .ok (values[offset]?.any f) := by
  rw [Array.getElem?_eq_getElem ((hs.presence.lt offset hpresent).trans_eq hroom.symm)]
  rfl

theorem WellFormed.filterFloatChecked_eq (hs : s.WellFormed kind capacity) (f : Binary64 → Bool)
    (selection : Bitmap) : s.filterFloatChecked f selection = .ok (s.filterFloat f selection) := by
  have hroom := hs.room
  unfold filterFloatChecked filterFloat
  cases hcells : s.cells with
  | float64 values =>
    rw [hcells] at hroom
    exact retainChecked_eq (fun offset => hs.place_present hroom f) selection
  | _ => rfl

theorem WellFormed.filterEnumChecked_eq (hs : s.WellFormed kind capacity) (table : Array Bool)
    (selection : Bitmap) :
    s.filterEnumChecked table selection = .ok (s.filterEnum table selection) := by
  have hroom := hs.room
  unfold filterEnumChecked filterEnum
  cases hcells : s.cells with
  | enum ids =>
    rw [hcells] at hroom
    exact retainChecked_eq (fun offset => hs.place_present hroom _) selection
  | _ => rfl

theorem WellFormed.filterValueChecked_eq (hs : s.WellFormed kind capacity)
    (dictionary : Dictionary) (f : Value → Bool) (selection : Bitmap) :
    s.filterValueChecked dictionary f selection =
      .ok (s.filterValue dictionary f selection) := by
  have hroom := hs.room
  have hvalue : ∀ offset, s.isPresent offset = true →
      (s.valueAtChecked offset).map (fun cell =>
        cell.any fun cell => f (Column.decode dictionary cell)) =
          .ok ((s.cell? offset).any fun cell => f (Column.decode dictionary cell)) := by
    intro offset hpresent
    rw [hs.valueAtChecked_eq, hs.valueAt_of_lt (hs.presence.lt offset hpresent)]
    rfl
  unfold filterValueChecked filterValue
  cases hcells : s.cells with
  | any values =>
    rw [hcells] at hroom
    refine retainChecked_eq (fun offset hpresent => ?_) selection
    rw [hs.place_present hroom f hpresent, cell?_of_isPresent hpresent, hcells, Cells.get?,
      Option.any_map]
    rfl
  | _ => exact retainChecked_eq hvalue selection

theorem lt_of_checkPut {offset : Nat} {cell : Cell} (h : s.checkPut offset cell = .ok ()) :
    offset < s.capacity := by
  by_contra hge
  unfold checkPut at h
  rw [checkRange, if_neg hge] at h
  cases h

/-- A segment's own errors name no column. -/
theorem onColumn_of_checkPut {offset : Nat} {cell : Cell} {e : Error}
    (h : s.checkPut offset cell = .error e) : e.onColumn "" = e := by
  unfold checkPut checkRange at h
  split_ifs at h with hrange hkind
  · cases h
  · cases h
    rfl
  · cases h
    rfl
  · cases h
    rfl

end Segment

/-! ## Chunks -/

namespace Chunk

/-- The chunk after an operation that may be refused. -/
def ofAnswer : Except Error Unit × Chunk → Checked Chunk
  | (.ok (), chunk) => .ok chunk
  | (.error e, _) => .error (.refused e)

/-- Writes cells into their slots, in order. -/
def writeCellsChecked (chunk : Chunk) (offset : Nat) : List (Nat × Cell) → Checked Chunk
  | [] => pure chunk
  | (slot, cell) :: rest => do
    let segment ← Checked.place chunk.columns[slot]?
    let segment ← segment.setAtChecked offset cell
    let chunk := { chunk with columns := chunk.columns.setIfInBounds slot segment }
    chunk.writeCellsChecked offset rest

/-- Brings every index over a source column up to date for one row (`reindex`). -/
def reindexChecked (chunk : Chunk) (schema : Schema) (dictionaries : Array Dictionary)
    (offset source : Nat) : Checked Chunk := do
  match chunk.columns[source]? with
  | some segment => do
    let _ ← segment.valueAtChecked offset
    pure (chunk.reindex schema dictionaries offset source)
  | none => pure (chunk.reindex schema dictionaries offset source)

/-- Makes an offset a live row with the given cells and brings the indexes over their columns up to
    date (`insert`). -/
def insertChecked (chunk : Chunk) (schema : Schema) (dictionaries : Array Dictionary) (offset : Nat)
    (cells : List (Nat × Cell)) : Checked Chunk := do
  let chunk ← ofAnswer ((chunk.sync schema).growFor offset)
  let chunk ← chunk.writeCellsChecked offset cells
  cells.foldlM (fun chunk entry => chunk.reindexChecked schema dictionaries offset entry.1)
    { chunk with fill := chunk.fill.set offset }

/-- Removes the live rows of a selection, with their cells and index bits, and counts them
    (`delete_selected`). -/
def deleteSelectedChecked (chunk : Chunk) (selection : Bitmap) : Checked (Nat × Chunk) :=
  let doomed := selection.and chunk.fill
  if doomed.count = 0 then pure (0, chunk)
  else do
    let columns ← chunk.columns.toList.mapM fun segment =>
      doomed.toList.foldlM Segment.clearAtChecked segment
    pure (doomed.count,
      { chunk with
        fill := chunk.fill.andNot doomed
        columns := columns.toArray
        indexes := chunk.indexes.map (·.andNot doomed) })

variable {chunkSize : Nat} {schema newest : Schema} {chunk : Chunk}

/-- Every offset that is deleted can be cleared in every segment. -/
theorem Lockstep.deleteSelectedChecked_eq (h : chunk.Lockstep chunkSize newest)
    (selection : Bitmap) :
    chunk.deleteSelectedChecked selection = .ok (chunk.deleteSelected selection) := by
  have hlt : ∀ offset ∈ (selection.and chunk.fill).toList, offset < chunk.capacity := by
    intro offset hmem
    rw [Bitmap.mem_toList, Bitmap.contains_and, Bool.and_eq_true] at hmem
    exact h.fill.lt offset hmem.2
  have hclear : ∀ segment ∈ chunk.columns.toList,
      (selection.and chunk.fill).toList.foldlM Segment.clearAtChecked segment =
        .ok ((selection.and chunk.fill).toList.foldl
          (fun s offset => if offset < s.capacity then s.remove offset else s) segment) := by
    intro segment hsegment
    obtain ⟨kind, hs⟩ := h.exists_segment_wellFormed segment (Array.mem_toList_iff.mp hsegment)
    refine Checked.foldlM_of_forall (Segment.WellFormed kind chunk.capacity)
      (fun s hs offset hoffset => ?_) hs
    rw [hs.clearAtChecked_eq (hlt offset hoffset), if_pos (hs.capacity_eq ▸ hlt offset hoffset)]
    exact ⟨rfl, hs.remove offset⟩
  unfold deleteSelectedChecked deleteSelected
  simp only
  split_ifs
  · rfl
  · rw [Checked.mapM_of_forall hclear, Checked.ok_bind, ← Array.toList_map, Array.toArray_toList]
    rfl

/-- Cells for columns of the chunk are written, or refused, and none of their places is missing. -/
theorem Lockstep.writeCellsChecked_eq (h : chunk.Lockstep chunkSize newest) (offset : Nat)
    {cells : List (Nat × Cell)} (hcells : ∀ entry ∈ cells, entry.1 < chunk.columns.size) :
    chunk.writeCellsChecked offset cells = ofAnswer (chunk.writeCells offset cells) ∧
      (chunk.writeCells offset cells).2.Lockstep chunkSize newest := by
  induction cells generalizing chunk with
  | nil => exact ⟨rfl, h⟩
  | cons entry rest ih =>
    obtain ⟨slot, cell⟩ := entry
    rw [List.forall_mem_cons] at hcells
    have hsegment := Array.getElem?_eq_getElem hcells.1
    obtain ⟨column, -, hs⟩ := h.column slot _ hsegment
    rw [writeCellsChecked, hsegment, writeCells, writeCell, hsegment]
    simp only [Checked.place, Checked.ok_bind, hs.setAtChecked_eq, Segment.setAt,
      Segment.checkWrite]
    cases hcheck : (chunk.columns[slot]).checkPut offset cell with
    | error e =>
      simp only [Segment.onColumn_of_checkPut hcheck]
      exact ⟨rfl, h⟩
    | ok _ =>
      have hlt := (Segment.lt_of_checkPut hcheck).trans_eq hs.capacity_eq
      have hput : ({ chunk with columns :=
          chunk.columns.setIfInBounds slot (chunk.columns[slot].put offset cell) } : Chunk) =
            chunk.putCell slot offset (some cell) := by
        refine congrArg (fun columns => { chunk with columns }) (Array.ext_getElem? fun other => ?_)
        rw [Array.getElem?_setIfInBounds, Array.getElem?_modify]
        split_ifs with heq hin
        · rw [← heq, hsegment]
          rfl
        · exact absurd (heq ▸ hcells.1) hin
        · rfl
      show Chunk.writeCellsChecked { chunk with columns := _ } offset rest =
        ofAnswer ((chunk.putCell slot offset (some cell)).writeCells offset rest) ∧
          ((chunk.putCell slot offset (some cell)).writeCells offset rest).2.Lockstep _ _
      rw [hput]
      exact ih (h.putCell hlt slot (some cell)) fun entry hmem =>
        (hcells.2 entry hmem).trans_eq (Array.size_modify ..).symm

theorem reindexChecked_eq (h : ∀ segment ∈ chunk.columns, ∃ kind capacity,
      segment.WellFormed kind capacity) (schema : Schema) (dictionaries : Array Dictionary)
    (offset source : Nat) :
    chunk.reindexChecked schema dictionaries offset source =
      .ok (chunk.reindex schema dictionaries offset source) := by
  unfold reindexChecked
  cases hsegment : chunk.columns[source]? with
  | none => rfl
  | some segment =>
    obtain ⟨kind, capacity, hs⟩ := h segment (Array.mem_of_getElem? hsegment)
    show (segment.valueAtChecked offset >>= fun _ => _ : Checked Chunk) = _
    rw [hs.valueAtChecked_eq]
    rfl

/-- A row with cells for columns of the schema is inserted, or refused, and no place that is looked
    up on the way is missing. -/
theorem Lockstep.insertChecked_eq (h : chunk.Lockstep chunkSize newest)
    (hext : newest.Extends schema) {cells : List (Nat × Cell)}
    (hcells : ∀ entry ∈ cells, entry.1 < schema.columns.size) (dictionaries : Array Dictionary)
    (offset : Nat) :
    chunk.insertChecked schema dictionaries offset cells =
      ofAnswer (chunk.insert schema dictionaries offset cells) := by
  have hgrown := ((h.sync hext (Schema.Extends.refl schema)).growFor offset).1
  have hsize : ((chunk.sync schema).growFor offset).2.columns.size ≥ schema.columns.size := by
    have hsizes := congrArg Prod.fst ((chunk.sync schema).sizes_growFor offset)
    rw [sizes_sync] at hsizes
    exact (le_max_right ..).trans_eq hsizes.symm
  unfold insertChecked Chunk.insert
  generalize (chunk.sync schema).growFor offset = grown at hgrown hsize ⊢
  obtain ⟨_ | _, grown⟩ := grown
  · rfl
  · obtain ⟨hwrite, hwritten⟩ := hgrown.writeCellsChecked_eq offset
      fun entry hmem => (hcells entry hmem).trans_le hsize
    dsimp only [ofAnswer]
    rw [Checked.ok_bind, hwrite]
    generalize grown.writeCells offset cells = written at hwritten ⊢
    obtain ⟨_ | _, written⟩ := written
    · rfl
    · -- asking the indexes leaves the segments as they are
      have hask : ∀ chunk : Chunk, chunk.columns = written.columns → ∀ entry ∈ cells,
          chunk.reindexChecked schema dictionaries offset entry.1 =
              .ok (chunk.reindex schema dictionaries offset entry.1) ∧
            (chunk.reindex schema dictionaries offset entry.1).columns = written.columns := by
        intro chunk hcolumns entry _
        refine ⟨reindexChecked_eq (fun segment hmem => ?_) schema dictionaries offset entry.1,
          hcolumns⟩
        rw [hcolumns] at hmem
        exact (hwritten.exists_segment_wellFormed segment hmem).imp fun _ hs => ⟨_, hs⟩
      exact Checked.foldlM_of_forall (fun chunk : Chunk => chunk.columns = written.columns) hask rfl

/-! ## Chunks without a missing place -/

/-- Whatever is asked of the chunk, no place is missing: its filters and its deletions never stop,
    and an insertion under a schema that extends a given one stops only where the row is refused. -/
structure InBounds (newest : Schema) (chunk : Chunk) : Prop where
  filterFloat : ∀ segment ∈ chunk.columns, ∀ f selection,
    segment.filterFloatChecked f selection = .ok (segment.filterFloat f selection)
  filterEnum : ∀ segment ∈ chunk.columns, ∀ table selection,
    segment.filterEnumChecked table selection = .ok (segment.filterEnum table selection)
  filterValue : ∀ segment ∈ chunk.columns, ∀ dictionary f selection,
    segment.filterValueChecked dictionary f selection =
      .ok (segment.filterValue dictionary f selection)
  deleteSelected : ∀ selection,
    chunk.deleteSelectedChecked selection = .ok (chunk.deleteSelected selection)
  insert : ∀ schema, newest.Extends schema → ∀ cells : List (Nat × Cell),
    (∀ entry ∈ cells, entry.1 < schema.columns.size) → ∀ dictionaries offset,
      chunk.insertChecked schema dictionaries offset cells =
        ofAnswer (chunk.insert schema dictionaries offset cells)

theorem Lockstep.inBounds (h : chunk.Lockstep chunkSize newest) : chunk.InBounds newest where
  filterFloat segment hsegment f selection :=
    let ⟨_, hs⟩ := h.exists_segment_wellFormed segment hsegment
    hs.filterFloatChecked_eq f selection
  filterEnum segment hsegment table selection :=
    let ⟨_, hs⟩ := h.exists_segment_wellFormed segment hsegment
    hs.filterEnumChecked_eq table selection
  filterValue segment hsegment dictionary f selection :=
    let ⟨_, hs⟩ := h.exists_segment_wellFormed segment hsegment
    hs.filterValueChecked_eq dictionary f selection
  deleteSelected := h.deleteSelectedChecked_eq
  insert _ hext _ hcells := h.insertChecked_eq hext hcells

end Chunk

end ColumnStore
