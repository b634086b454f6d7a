import ColumnStore.Proofs.Index
import ColumnStore.Proofs.Schema

/-!
# What a chunk holds

Row by row, a chunk holds three things: which offsets are live (`fill`), a cell or none for every
column (`Chunk.cell?`) and a bit for every index (`Chunk.marks`). `Chunk.WellFormed` is the form
that lets those be read: all parts have room for the chunk's capacity, segments are of their
column's kind, and ids are known to the dictionaries. `Chunk.Indexed` says that every attached index
marks exactly the offsets whose source cell its predicate accepts.

`Chunk.Lockstep` is the part of the form that a chunk keeps by itself, whatever the dictionaries and
whether or not it has caught up with the table: its parts have its capacity, and the segments are
those of columns of a schema.

Results here:

* `sync_same`, `growTo_same`: catching up with the schema and growing change none of the three;
* `Lockstep.sync`, `Lockstep.growFor`: they keep the parts in step;
* `WellFormed.sync`, `WellFormed.growFor`: they keep the form, and make the room that a write needs.
-/

namespace ColumnStore

namespace Chunk

/-! ## The contents of a chunk -/

/-- The cell of the column in a slot at an offset. -/
def cell? (chunk : Chunk) (slot offset : Nat) : Option Cell :=
  chunk.columns[slot]?.bind fun segment => segment.cell? offset

/-- Whether the index in a slot has an offset. -/
def marks (chunk : Chunk) (slot offset : Nat) : Bool :=
  chunk.indexes[slot]?.any fun bits => bits.contains offset

/-- Two chunks with the same live offsets, cells and index bits. -/
structure Same (a b : Chunk) : Prop where
  fill : ∀ offset, b.fill.contains offset = a.fill.contains offset
  cell? : ∀ slot offset, b.cell? slot offset = a.cell? slot offset
  marks : ∀ slot offset, b.marks slot offset = a.marks slot offset

theorem Same.refl (chunk : Chunk) : Same chunk chunk :=
  ⟨fun _ => rfl, fun _ _ => rfl, fun _ _ => rfl⟩

theorem Same.trans {a b c : Chunk} (h : Same a b) (h' : Same b c) : Same a c :=
  ⟨fun o => (h'.fill o).trans (h.fill o), fun s o => (h'.cell? s o).trans (h.cell? s o),
    fun s o => (h'.marks s o).trans (h.marks s o)⟩

/-! ## Well-formed chunks -/

/-- The form of a chunk in a table with a schema and dictionaries. -/
structure WellFormed (chunkSize : Nat) (schema : Schema) (dictionaries : Array Dictionary)
    (chunk : Chunk) : Prop where
  chunkSize_eq : chunk.chunkSize = chunkSize
  le_capacity : minCapacity ≤ chunk.capacity
  capacity_le : chunk.capacity ≤ chunkSize
  fill : chunk.fill.Fits chunk.capacity
  column : ∀ (slot : Nat) segment, chunk.columns[slot]? = some segment →
    ∃ column, schema.columns[slot]? = some column ∧
      segment.WellFormed column.kind chunk.capacity
  known : ∀ slot offset cell, chunk.cell? slot offset = some cell →
    cell.Known (dictionaryOf dictionaries slot)
  indexes_size : chunk.indexes.size = schema.indexes.size
  index : ∀ (slot : Nat) bits, chunk.indexes[slot]? = some bits → bits.Fits chunk.capacity

/-- All parts of the chunk have its capacity, and it has no more segments and bitmaps than a schema
    has columns and indexes, each segment of its column's kind. -/
structure Lockstep (chunkSize : Nat) (newest : Schema) (chunk : Chunk) : Prop where
  chunkSize_eq : chunk.chunkSize = chunkSize
  le_capacity : minCapacity ≤ chunk.capacity
  capacity_le : chunk.capacity ≤ chunkSize
  fill : chunk.fill.Fits chunk.capacity
  column : ∀ (slot : Nat) segment, chunk.columns[slot]? = some segment →
    ∃ column, newest.columns[slot]? = some column ∧
      segment.WellFormed column.kind chunk.capacity
  index : ∀ (slot : Nat) bits, chunk.indexes[slot]? = some bits → bits.Fits chunk.capacity
  columns_size_le : chunk.columns.size ≤ newest.columns.size
  indexes_size_le : chunk.indexes.size ≤ newest.indexes.size

/-- Every attached index marks exactly the offsets whose source cell its predicate accepts. -/
def Indexed (schema : Schema) (dictionaries : Array Dictionary) (chunk : Chunk) : Prop :=
  ∀ (slot : Nat) index predicate, schema.indexes[slot]? = some index →
    index.predicate = some predicate → ∀ offset,
      chunk.marks slot offset =
        Index.hits predicate (dictionaryOf dictionaries index.sourceSlot)
          (chunk.cell? index.sourceSlot offset)

variable {chunkSize : Nat} {schema : Schema} {dictionaries : Array Dictionary} {chunk : Chunk}

theorem WellFormed.columns_size_le (h : chunk.WellFormed chunkSize schema dictionaries) :
    chunk.columns.size ≤ schema.columns.size := by
  by_contra hlt
  obtain ⟨column, hcolumn, -⟩ :=
    h.column schema.columns.size _ (Array.getElem?_eq_getElem (by omega))
  rw [Array.getElem?_eq_none le_rfl] at hcolumn
  cases hcolumn

theorem WellFormed.lockstep (h : chunk.WellFormed chunkSize schema dictionaries) :
    chunk.Lockstep chunkSize schema where
  chunkSize_eq := h.chunkSize_eq
  le_capacity := h.le_capacity
  capacity_le := h.capacity_le
  fill := h.fill
  column := h.column
  index := h.index
  columns_size_le := h.columns_size_le
  indexes_size_le := h.indexes_size.le

/-- A chunk is in step with an earlier schema that has as many columns and indexes as the chunk. -/
theorem Lockstep.of_extends {newest : Schema} (h : chunk.Lockstep chunkSize schema)
    (hext : newest.Extends schema) (hcolumns : chunk.columns.size ≤ newest.columns.size)
    (hindexes : chunk.indexes.size ≤ newest.indexes.size) : chunk.Lockstep chunkSize newest :=
  { h with
    column := fun slot segment hsegment => by
      obtain ⟨column, hcolumn, hs⟩ := h.column slot segment hsegment
      have hlt := (Array.getElem?_eq_some_iff.mp hsegment).1
      have hnewest := Array.getElem?_eq_getElem (hlt.trans_le hcolumns)
      rw [hext.columns slot _ hnewest] at hcolumn
      exact ⟨_, hnewest, by rwa [Option.some.inj hcolumn]⟩
    columns_size_le := hcolumns
    indexes_size_le := hindexes }

theorem Lockstep.exists_segment_wellFormed (h : chunk.Lockstep chunkSize schema) :
    ∀ segment ∈ chunk.columns, ∃ kind, segment.WellFormed kind chunk.capacity := by
  intro segment hsegment
  obtain ⟨slot, hslot⟩ := Array.mem_iff_getElem?.mp hsegment
  obtain ⟨column, -, hs⟩ := h.column slot segment hslot
  exact ⟨column.kind, hs⟩

/-- The bitmaps of a chunk: that of its live rows, those of the rows present in its segments and
    those of its indexes. -/
def bitmaps (chunk : Chunk) : List Bitmap :=
  chunk.fill :: (chunk.columns.toList.map Segment.presence ++ chunk.indexes.toList)

theorem Lockstep.fits (h : chunk.Lockstep chunkSize schema) :
    ∀ bits ∈ chunk.bitmaps, bits.Fits chunk.capacity := by
  intro bits hmem
  rw [bitmaps, List.mem_cons, List.mem_append, List.mem_map] at hmem
  rcases hmem with rfl | ⟨segment, hsegment, rfl⟩ | hindex
  · exact h.fill
  · obtain ⟨kind, hs⟩ := h.exists_segment_wellFormed segment (Array.mem_toList_iff.mp hsegment)
    exact hs.presence
  · obtain ⟨slot, hslot⟩ := Array.mem_iff_getElem?.mp (Array.mem_toList_iff.mp hindex)
    exact h.index slot bits hslot

theorem WellFormed.kind_of_cell? (h : chunk.WellFormed chunkSize schema dictionaries)
    {slot offset : Nat} {cell : Cell} (hcell : chunk.cell? slot offset = some cell) :
    ∃ column, schema.columns[slot]? = some column ∧ cell.kind = column.kind := by
  obtain ⟨segment, hsegment, hcell⟩ := Option.bind_eq_some_iff.mp hcell
  obtain ⟨column, hcolumn, hs⟩ := h.column slot segment hsegment
  exact ⟨column, hcolumn, (Segment.kind_of_cell? hcell).trans hs.kind_eq⟩

theorem WellFormed.lt_of_cell? (h : chunk.WellFormed chunkSize schema dictionaries)
    {slot offset : Nat} {cell : Cell} (hcell : chunk.cell? slot offset = some cell) :
    offset < chunkSize := by
  obtain ⟨segment, hsegment, hcell⟩ := Option.bind_eq_some_iff.mp hcell
  obtain ⟨column, -, hs⟩ := h.column slot segment hsegment
  unfold Segment.cell? at hcell
  split_ifs at hcell with hpresent
  exact (hs.presence.lt offset hpresent).trans_le h.capacity_le

/-- The dictionaries may grow under a chunk. -/
theorem WellFormed.of_allExtend (h : chunk.WellFormed chunkSize schema dictionaries)
    {dictionaries' : Array Dictionary} (hext : Column.AllExtend dictionaries dictionaries') :
    chunk.WellFormed chunkSize schema dictionaries' :=
  { h with
    known := fun slot offset cell hcell =>
      (h.known slot offset cell hcell).mono (hext.extends_ slot) }

theorem Indexed.of_allExtend (h : chunk.Indexed schema dictionaries)
    (hwf : chunk.WellFormed chunkSize schema dictionaries) {dictionaries' : Array Dictionary}
    (hext : Column.AllExtend dictionaries dictionaries') : chunk.Indexed schema dictionaries' := by
  intro slot index predicate hindex hpredicate offset
  rw [h slot index predicate hindex hpredicate offset]
  refine (Index.hits_of_extends predicate (hext.extends_ index.sourceSlot) ?_).symm
  intro cell hcell
  exact hwf.known index.sourceSlot offset cell hcell

theorem Indexed.of_same {chunk' : Chunk} (h : chunk.Indexed schema dictionaries)
    (hsame : Same chunk chunk') : chunk'.Indexed schema dictionaries := by
  intro slot index predicate hindex hpredicate offset
  rw [hsame.marks, hsame.cell?]
  exact h slot index predicate hindex hpredicate offset

/-! ## Catching up with the schema -/

/-- The segments that a chunk is missing. -/
theorem getElem?_sync_columns (chunk : Chunk) (schema : Schema) (slot : Nat) :
    (chunk.sync schema).columns[slot]? =
      if slot < chunk.columns.size then chunk.columns[slot]?
      else (schema.columns[slot]?).map fun column =>
        Segment.withCapacity column.kind chunk.capacity := by
  unfold sync
  simp only
  split_ifs with h
  · rw [Array.getElem?_append_left h]
  · rw [Array.getElem?_append_right (by omega), Array.getElem?_map, Array.getElem?_extract]
    simp only [Nat.min_self]
    rw [show chunk.columns.size + (slot - chunk.columns.size) = slot by omega]
    split_ifs with hlt
    · rfl
    · rw [Array.getElem?_eq_none (show schema.columns.size ≤ slot by omega)]

theorem getElem?_sync_indexes (chunk : Chunk) (schema : Schema) (slot : Nat) :
    (chunk.sync schema).indexes[slot]? =
      if slot < chunk.indexes.size then chunk.indexes[slot]?
      else if slot < schema.indexes.size then some (.withCapacity chunk.capacity) else none := by
  unfold sync
  simp only
  split_ifs with h hslot
  · rw [Array.getElem?_append_left h]
  · rw [Array.getElem?_append_right (by omega), Array.getElem?_replicate, if_pos (by omega)]
  · rw [Array.getElem?_append_right (by omega), Array.getElem?_replicate, if_neg (by omega)]

/-- Catching up changes nothing that the chunk holds. -/
theorem sync_same (chunk : Chunk) (schema : Schema) : Same chunk (chunk.sync schema) where
  fill _ := rfl
  cell? slot offset := by
    rw [cell?, cell?, getElem?_sync_columns]
    split_ifs with h
    · rfl
    · rw [Array.getElem?_eq_none (show chunk.columns.size ≤ slot by omega)]
      cases schema.columns[slot]? <;> simp
  marks slot offset := by
    rw [marks, marks, getElem?_sync_indexes]
    split_ifs with h hslot
    · rfl
    · rw [Array.getElem?_eq_none (show chunk.indexes.size ≤ slot by omega)]
      simp
    · rw [Array.getElem?_eq_none (show chunk.indexes.size ≤ slot by omega)]

theorem sync_columns_size (chunk : Chunk) (schema : Schema) :
    (chunk.sync schema).columns.size = max chunk.columns.size schema.columns.size := by
  simp only [sync, Array.size_append, Array.size_map, Array.size_extract]
  omega

theorem sync_indexes_size (chunk : Chunk) (schema : Schema) :
    (chunk.sync schema).indexes.size = max chunk.indexes.size schema.indexes.size := by
  simp only [sync, Array.size_append, Array.size_replicate]
  omega

/-- A chunk that catches up with a schema is in step with any that extends this one and its own. -/
theorem Lockstep.sync {under target : Schema} (h : chunk.Lockstep chunkSize schema)
    (hext : schema.Extends target) (hunder : under.Extends target) :
    (chunk.sync under).Lockstep chunkSize target where
  chunkSize_eq := h.chunkSize_eq
  le_capacity := h.le_capacity
  capacity_le := h.capacity_le
  fill := h.fill
  column slot segment hsegment := by
    rw [getElem?_sync_columns] at hsegment
    split_ifs at hsegment with hlt
    · obtain ⟨column, hcolumn, hs⟩ := h.column slot segment hsegment
      exact ⟨column, hext.columns slot column hcolumn, hs⟩
    · obtain ⟨column, hcolumn, rfl⟩ := Option.map_eq_some_iff.mp hsegment
      exact ⟨column, hunder.columns slot column hcolumn,
        Segment.wellFormed_withCapacity column.kind chunk.capacity⟩
  index slot bits hbits := by
    rw [getElem?_sync_indexes] at hbits
    split_ifs at hbits
    · exact h.index slot bits hbits
    · cases hbits
      exact Bitmap.fits_withCapacity chunk.capacity
  columns_size_le := by
    rw [sync_columns_size]
    exact max_le (h.columns_size_le.trans hext.columns_size_le) hunder.columns_size_le
  indexes_size_le := by
    rw [sync_indexes_size]
    exact max_le (h.indexes_size_le.trans hext.indexes_size_le) hunder.indexes_size_le

/-- A chunk that catches up with a schema is well formed under any that extends this one and its
    own and has no further indexes. -/
theorem WellFormed.sync_under {under target : Schema}
    (h : chunk.WellFormed chunkSize schema dictionaries) (hext : schema.Extends target)
    (hunder : under.Extends target)
    (hindexes : target.indexes.size ≤ max schema.indexes.size under.indexes.size) :
    (chunk.sync under).WellFormed chunkSize target dictionaries :=
  { h.lockstep.sync hext hunder with
    known := fun slot offset cell hcell => by
      rw [(sync_same chunk under).cell?] at hcell
      exact h.known slot offset cell hcell
    indexes_size := by
      have := hext.indexes_size_le
      have := hunder.indexes_size_le
      rw [sync_indexes_size, h.indexes_size]
      omega }

/-- A chunk that catches up with a newer schema is well formed under it. -/
theorem WellFormed.sync {schema' : Schema} (h : chunk.WellFormed chunkSize schema dictionaries)
    (hext : schema.Extends schema') :
    (chunk.sync schema').WellFormed chunkSize schema' dictionaries :=
  h.sync_under hext (Schema.Extends.refl schema') (le_max_right ..)

/-- Catching up with an older schema adds at most some of the segments that are missing. -/
theorem WellFormed.sync_older {older : Schema} (h : chunk.WellFormed chunkSize schema dictionaries)
    (hext : older.Extends schema) :
    (chunk.sync older).WellFormed chunkSize schema dictionaries :=
  h.sync_under (Schema.Extends.refl schema) hext (le_max_left ..)

/-- Catching up with its own schema leaves a chunk with a segment for every column. -/
theorem WellFormed.sync_self (h : chunk.WellFormed chunkSize schema dictionaries) :
    (chunk.sync schema).WellFormed chunkSize schema dictionaries :=
  h.sync (Schema.Extends.refl schema)

theorem WellFormed.sync_columns_size (h : chunk.WellFormed chunkSize schema dictionaries) :
    (chunk.sync schema).columns.size = schema.columns.size := by
  have := h.columns_size_le
  rw [Chunk.sync_columns_size]
  omega

/-- A chunk of a table is a chunk of the table with one more column. -/
theorem WellFormed.addColumn (h : chunk.WellFormed chunkSize schema dictionaries) (column : Column)
    (hsize : dictionaries.size = schema.columns.size) :
    chunk.WellFormed chunkSize { schema with columns := schema.columns.push column }
      (dictionaries.push .empty) :=
  { h with
    column := fun slot segment hsegment => by
      obtain ⟨found, hfound, hs⟩ := h.column slot segment hsegment
      exact ⟨found, Schema.getElem?_push_of_some hfound column, hs⟩
    known := fun slot offset cell hcell => by
      obtain ⟨found, hfound, -⟩ := h.kind_of_cell? hcell
      have hlt := (Array.getElem?_eq_some_iff.mp hfound).1
      have := h.known slot offset cell hcell
      rwa [dictionaryOf, Array.getElem?_push, if_neg (by omega)] }

/-! ## Growing -/

theorem getElem?_growTo_columns (chunk : Chunk) (capacity slot : Nat) :
    (chunk.growTo capacity).columns[slot]? = (chunk.columns[slot]?).map (·.grow capacity) :=
  Array.getElem?_map ..

theorem getElem?_growTo_indexes (chunk : Chunk) (capacity slot : Nat) :
    (chunk.growTo capacity).indexes[slot]? = (chunk.indexes[slot]?).map (·.grow capacity) :=
  Array.getElem?_map ..

/-- Growing changes nothing that the chunk holds. -/
theorem growTo_same (hcolumns : ∀ segment ∈ chunk.columns, ∃ kind capacity,
      segment.WellFormed kind capacity) (capacity : Nat) : Same chunk (chunk.growTo capacity) where
  fill offset := Bitmap.contains_grow ..
  cell? slot offset := by
    rw [cell?, cell?, getElem?_growTo_columns]
    cases hsegment : chunk.columns[slot]? with
    | none => rfl
    | some segment =>
      obtain ⟨kind, room, hs⟩ := hcolumns segment (Array.mem_of_getElem? hsegment)
      exact hs.cell?_grow capacity offset
  marks slot offset := by
    rw [marks, marks, getElem?_growTo_indexes]
    cases chunk.indexes[slot]? <;> simp

theorem Lockstep.growTo_same (h : chunk.Lockstep chunkSize schema) (capacity : Nat) :
    Same chunk (chunk.growTo capacity) :=
  Chunk.growTo_same (fun segment hmem =>
    (h.exists_segment_wellFormed segment hmem).imp fun _ hs => ⟨chunk.capacity, hs⟩) capacity

theorem Lockstep.growTo (h : chunk.Lockstep chunkSize schema) {capacity : Nat}
    (hle : chunk.capacity ≤ capacity) (hsize : capacity ≤ chunkSize) :
    (chunk.growTo capacity).Lockstep chunkSize schema where
  chunkSize_eq := h.chunkSize_eq
  le_capacity := h.le_capacity.trans hle
  capacity_le := hsize
  fill := h.fill.grow hle
  column slot segment hsegment := by
    rw [getElem?_growTo_columns] at hsegment
    obtain ⟨old, hold, rfl⟩ := Option.map_eq_some_iff.mp hsegment
    obtain ⟨column, hcolumn, hs⟩ := h.column slot old hold
    exact ⟨column, hcolumn, hs.grow hle⟩
  index slot bits hbits := by
    rw [getElem?_growTo_indexes] at hbits
    obtain ⟨old, hold, rfl⟩ := Option.map_eq_some_iff.mp hbits
    exact (h.index slot old hold).grow hle
  columns_size_le := (Array.size_map ..).trans_le h.columns_size_le
  indexes_size_le := (Array.size_map ..).trans_le h.indexes_size_le

theorem WellFormed.growTo (h : chunk.WellFormed chunkSize schema dictionaries) {capacity : Nat}
    (hle : chunk.capacity ≤ capacity) (hsize : capacity ≤ chunkSize) :
    (chunk.growTo capacity).WellFormed chunkSize schema dictionaries :=
  { h.lockstep.growTo hle hsize with
    known := fun slot offset cell hcell => by
      rw [(h.lockstep.growTo_same capacity).cell?] at hcell
      exact h.known slot offset cell hcell
    indexes_size := (Array.size_map ..).trans h.indexes_size }

theorem le_powerOfTwoFrom (n : Nat) : n ≤ powerOfTwoFrom n := by
  unfold powerOfTwoFrom
  split_ifs with h
  · exact h
  · have := Nat.lt_log2_self (n := n - 1)
    omega

theorem powerOfTwoFrom_le {n k : Nat} (h : n ≤ 2 ^ k) : powerOfTwoFrom n ≤ 2 ^ k := by
  unfold powerOfTwoFrom
  split_ifs with hsmall
  · exact Nat.one_le_two_pow
  · rw [Nat.one_shiftLeft]
    apply Nat.pow_le_pow_right Nat.two_pos
    exact (Nat.log2_lt (by omega)).mpr (by omega)

/-- The capacity that a chunk grows to for an offset below the chunk size. -/
theorem Lockstep.growFor_cases (h : chunk.Lockstep chunkSize schema) (offset : Nat) :
    offset < chunk.capacity ∧ chunk.growFor offset = (.ok (), chunk) ∨
      chunkSize ≤ offset ∧
        chunk.growFor offset = (.error (.outOfRange offset chunkSize), chunk) ∨
      ∃ capacity, chunk.capacity ≤ capacity ∧ capacity ≤ chunkSize ∧ offset < capacity ∧
        chunk.growFor offset = (.ok (), chunk.growTo capacity) := by
  have hsize := h.chunkSize_eq
  unfold Chunk.growFor
  by_cases hroom : offset < chunk.capacity
  · exact .inl ⟨hroom, if_pos hroom⟩
  · rw [if_neg hroom, hsize]
    by_cases hout : chunkSize ≤ offset
    · exact .inr (.inl ⟨hout, if_pos hout⟩)
    · have := le_powerOfTwoFrom (offset + 1)
      have := h.capacity_le
      refine .inr (.inr ⟨_, ?_, ?_, ?_, if_neg hout⟩) <;> omega

/-- Growing for an offset keeps the parts in step and changes nothing that the chunk holds; below
    the chunk size the offset is addressable then. -/
theorem Lockstep.growFor (h : chunk.Lockstep chunkSize schema) (offset : Nat) :
    (chunk.growFor offset).2.Lockstep chunkSize schema ∧ Same chunk (chunk.growFor offset).2 ∧
      (offset < chunkSize → (chunk.growFor offset).1 = .ok () ∧
        offset < (chunk.growFor offset).2.capacity) := by
  rcases h.growFor_cases offset with ⟨hroom, hgrow⟩ | ⟨hout, hgrow⟩ |
    ⟨capacity, hle, hsize, hroom, hgrow⟩
  · rw [hgrow]
    exact ⟨h, Same.refl chunk, fun _ => ⟨rfl, hroom⟩⟩
  · rw [hgrow]
    exact ⟨h, Same.refl chunk, fun hlt => absurd hlt (Nat.not_lt.mpr hout)⟩
  · rw [hgrow]
    exact ⟨h.growTo hle hsize, h.growTo_same capacity, fun _ => ⟨rfl, hroom⟩⟩

/-- An offset below the chunk size can be made addressable. -/
theorem WellFormed.growFor (h : chunk.WellFormed chunkSize schema dictionaries) {offset : Nat}
    (hlt : offset < chunkSize) :
    ∃ chunk', chunk.growFor offset = (.ok (), chunk') ∧
      chunk'.WellFormed chunkSize schema dictionaries ∧ Same chunk chunk' ∧
      chunk'.columns.size = chunk.columns.size ∧ offset < chunk'.capacity := by
  rcases h.lockstep.growFor_cases offset with ⟨hroom, hgrow⟩ | ⟨hout, -⟩ |
    ⟨capacity, hle, hsize, hroom, hgrow⟩
  · exact ⟨chunk, hgrow, h, Same.refl chunk, rfl, hroom⟩
  · exact absurd hlt (Nat.not_lt.mpr hout)
  · exact ⟨_, hgrow, h.growTo hle hsize, h.lockstep.growTo_same capacity, Array.size_map .., hroom⟩

/-! ## Reading -/

/-- Reading a row gives the value of its cell if the row is live. -/
theorem WellFormed.value_eq (h : chunk.WellFormed chunkSize schema dictionaries) {offset : Nat}
    (hlt : offset < chunkSize) (slot : Nat) :
    chunk.value dictionaries slot offset =
      .ok (if chunk.fill.contains offset then
        (chunk.cell? slot offset).map (Column.decode (dictionaryOf dictionaries slot))
        else none) := by
  have hsize := h.chunkSize_eq
  unfold value
  rw [if_neg (by omega)]
  cases hlive : chunk.fill.contains offset with
  | false => rfl
  | true =>
    unfold cell?
    cases hsegment : chunk.columns[slot]? with
    | none => rfl
    | some segment =>
      obtain ⟨column, -, hs⟩ := h.column slot segment hsegment
      have hroom := h.fill.lt offset hlive
      simp only [Bool.not_true, Bool.false_eq_true, if_false, if_true, Option.bind_some,
        hs.capacity_eq, hroom, hs.valueAt_of_lt hroom]
      rfl

end Chunk

end ColumnStore
