import ColumnStore.Proofs.Chunk

/-!
# New chunks and index bitmaps computed anew

* `wellFormed_new`, `same_new`: a new chunk is well-formed and stores nothing;
* `lockstep_restore`, `wellFormed_restore`, `restore_same`: parts read from bytes make a well-formed
  chunk that holds what the parts hold;
* `Lockstep.setIndex`, `Lockstep.rebuildIndex`: the bitmap of one index can be replaced, and nothing
  else changes then (`SameBut`);
* `WellFormed.rebuildIndex`: an attached index that is computed anew marks what its predicate
  accepts, and nothing else in the chunk changes (`Rebuilt`).
-/

namespace ColumnStore

namespace Chunk

variable {chunkSize : Nat} {schema : Schema} {dictionaries : Array Dictionary} {chunk : Chunk}

/-! ## New chunks -/

theorem le_clampCapacity (h : minCapacity ≤ chunkSize) (capacity : Nat) :
    minCapacity ≤ clampCapacity chunkSize capacity := by
  unfold clampCapacity
  omega

theorem clampCapacity_le (chunkSize capacity : Nat) :
    clampCapacity chunkSize capacity ≤ chunkSize := by
  unfold clampCapacity
  omega

theorem wellFormed_bare {capacity : Nat} (hle : minCapacity ≤ capacity)
    (hsize : capacity ≤ chunkSize) (dictionaries : Array Dictionary) :
    (⟨chunkSize, capacity, .withCapacity capacity, #[], #[]⟩ : Chunk).WellFormed chunkSize .empty
      dictionaries where
  chunkSize_eq := rfl
  le_capacity := hle
  capacity_le := hsize
  fill := Bitmap.fits_withCapacity capacity
  column slot segment h := by simp at h
  known slot offset cell h := by simp [Chunk.cell?] at h
  indexes_size := rfl
  index slot bits h := by simp at h

theorem extends_empty (schema : Schema) : Schema.empty.Extends schema :=
  ⟨fun slot column h => by simp [Schema.empty] at h,
    fun slot index h => by simp [Schema.empty] at h⟩

theorem wellFormed_new (h : minCapacity ≤ chunkSize) (capacity : Nat) (schema : Schema)
    (dictionaries : Array Dictionary) :
    (Chunk.new chunkSize capacity schema).WellFormed chunkSize schema dictionaries :=
  (wellFormed_bare (le_clampCapacity h capacity) (clampCapacity_le chunkSize capacity)
    dictionaries).sync (extends_empty schema)

/-- A new chunk is live nowhere, holds no cell and is in no index. -/
theorem same_new (chunkSize capacity : Nat) (schema : Schema) :
    Same ⟨0, 0, .empty, #[], #[]⟩ (Chunk.new chunkSize capacity schema) := by
  have hsame := sync_same ⟨chunkSize, clampCapacity chunkSize capacity,
    .withCapacity (clampCapacity chunkSize capacity), #[], #[]⟩ schema
  refine ⟨fun offset => ?_, fun slot offset => ?_, fun slot offset => ?_⟩
  · rw [Chunk.new, hsame.fill, Bitmap.contains_withCapacity, Bitmap.contains_empty]
  · rw [Chunk.new, hsame.cell?, cell?, cell?]
  · rw [Chunk.new, hsame.marks, marks, marks]

theorem indexed_of_empty (schema : Schema) (dictionaries : Array Dictionary) :
    (⟨0, 0, .empty, #[], #[]⟩ : Chunk).Indexed schema dictionaries := by
  intro slot index predicate _ _ offset
  simp [marks, cell?, Index.hits]

/-! ## Chunks made of parts -/

theorem foldl_max_spec {α : Type} (size : α → Nat) (xs : List α) (least : Nat) :
    least ≤ xs.foldl (fun n x => max n (size x)) least ∧
      (∀ x ∈ xs, size x ≤ xs.foldl (fun n x => max n (size x)) least) ∧
      ∀ limit, least ≤ limit → (∀ x ∈ xs, size x ≤ limit) →
        xs.foldl (fun n x => max n (size x)) least ≤ limit := by
  induction xs generalizing least with
  | nil => simp
  | cons x rest ih =>
    obtain ⟨hleast, hrest, hlimit⟩ := ih (max least (size x))
    simp only [List.foldl_cons, List.mem_cons]
    refine ⟨by omega, ?_, fun limit hle hall => ?_⟩
    · rintro y (rfl | hy)
      · omega
      · exact hrest y hy
    · have hx := hall x (Or.inl rfl)
      exact hlimit limit (by omega) fun y hy => hall y (Or.inr hy)

variable {fill : Bitmap} {columns : Array Segment} {indexes : Array Bitmap}

/-- The capacity that parts are given together is enough for each of them. -/
theorem capacity_restore (h : minCapacity ≤ chunkSize) (hfill : fill.capacity ≤ chunkSize)
    (hcolumns : ∀ segment ∈ columns, segment.capacity ≤ chunkSize)
    (hindexes : ∀ bits ∈ indexes, bits.capacity ≤ chunkSize) :
    minCapacity ≤ (restore chunkSize fill columns indexes).capacity ∧
      (restore chunkSize fill columns indexes).capacity ≤ chunkSize ∧
      fill.capacity ≤ (restore chunkSize fill columns indexes).capacity ∧
      (∀ segment ∈ columns, segment.capacity ≤ (restore chunkSize fill columns indexes).capacity) ∧
      ∀ bits ∈ indexes, bits.capacity ≤ (restore chunkSize fill columns indexes).capacity := by
  obtain ⟨hc, hcs, hclimit⟩ := foldl_max_spec Segment.capacity columns.toList fill.capacity
  obtain ⟨-, his, hilimit⟩ := foldl_max_spec Bitmap.capacity indexes.toList 0
  have hcmax := hclimit chunkSize hfill fun s hs => hcolumns s (by simpa using hs)
  have himax := hilimit chunkSize (Nat.zero_le _) fun b hb => hindexes b (by simpa using hb)
  rw [Array.foldl_toList] at hc hcmax himax
  simp only [Array.foldl_toList, Array.mem_toList_iff] at hcs his
  have hpow := le_powerOfTwoFrom
    (max (columns.foldl (fun n segment => max n segment.capacity) fill.capacity)
      (indexes.foldl (fun n bits => max n bits.capacity) 0))
  unfold restore growTo clampCapacity
  simp only
  refine ⟨by omega, by omega, by omega, fun s hs => ?_, fun b hb => ?_⟩
  · have := hcs s hs
    omega
  · have := his b hb
    omega

/-- Putting parts together changes nothing that they hold. -/
theorem restore_same (hcolumns : ∀ segment ∈ columns, ∃ kind capacity,
      segment.WellFormed kind capacity) (chunkSize : Nat) (fill : Bitmap) (indexes : Array Bitmap) :
    Same ⟨0, 0, fill, columns, indexes⟩ (restore chunkSize fill columns indexes) := by
  have hsame : ∀ capacity, Same ⟨0, 0, fill, columns, indexes⟩
      (growTo ⟨chunkSize, 0, fill, columns, indexes⟩ capacity) := fun capacity => by
    have h : Same ⟨chunkSize, 0, fill, columns, indexes⟩ (growTo _ capacity) :=
      growTo_same hcolumns capacity
    exact ⟨h.fill, h.cell?, h.marks⟩
  exact hsame _

theorem fits_capacity (b : Bitmap) : b.Fits b.capacity where
  size := by
    unfold Bitmap.capacity Bitmap.wordCount
    omega
  lt _ h := Bitmap.lt_of_contains h

/-- Parts of the columns and indexes of a schema come together in step. -/
theorem lockstep_restore (h : minCapacity ≤ chunkSize) (hfill : fill.capacity ≤ chunkSize)
    (hcolumns : ∀ (slot : Nat) segment, columns[slot]? = some segment →
      ∃ column, schema.columns[slot]? = some column ∧
        segment.WellFormed column.kind segment.capacity ∧ segment.capacity ≤ chunkSize)
    (hsize : indexes.size ≤ schema.indexes.size)
    (hindexes : ∀ bits ∈ indexes, bits.capacity ≤ chunkSize) :
    (restore chunkSize fill columns indexes).Lockstep chunkSize schema ∧
      Same ⟨0, 0, fill, columns, indexes⟩ (restore chunkSize fill columns indexes) := by
  have hsegment : ∀ segment ∈ columns, ∃ kind, segment.WellFormed kind segment.capacity ∧
      segment.capacity ≤ chunkSize := by
    intro segment hmem
    obtain ⟨slot, hslot, rfl⟩ := Array.mem_iff_getElem.mp hmem
    obtain ⟨column, -, hs, hle⟩ := hcolumns slot _ (Array.getElem?_eq_getElem hslot)
    exact ⟨column.kind, hs, hle⟩
  obtain ⟨hmin, hmax, hcfill, hccolumns, hcindexes⟩ := capacity_restore h hfill
    (fun s hs => (hsegment s hs).choose_spec.2) hindexes
  refine ⟨?_, restore_same (fun s hs => ⟨_, _, (hsegment s hs).choose_spec.1⟩) chunkSize fill
    indexes⟩
  exact
    { chunkSize_eq := rfl
      le_capacity := hmin
      capacity_le := hmax
      fill := (fits_capacity fill).grow hcfill
      column := fun slot segment hs => by
        rw [restore, getElem?_growTo_columns] at hs
        obtain ⟨old, hold, rfl⟩ := Option.map_eq_some_iff.mp hs
        obtain ⟨column, hcolumn, hwf, -⟩ := hcolumns slot old hold
        exact ⟨column, hcolumn, hwf.grow (hccolumns old (Array.mem_of_getElem? hold))⟩
      index := fun slot bits hbits => by
        rw [restore, getElem?_growTo_indexes] at hbits
        obtain ⟨old, hold, rfl⟩ := Option.map_eq_some_iff.mp hbits
        exact (fits_capacity old).grow (hcindexes old (Array.mem_of_getElem? hold))
      columns_size_le := by
        refine (Array.size_map ..).trans_le ?_
        by_contra hlt
        obtain ⟨column, hcolumn, -⟩ :=
          hcolumns schema.columns.size _ (Array.getElem?_eq_getElem (Nat.lt_of_not_le hlt))
        rw [Array.getElem?_eq_none le_rfl] at hcolumn
        cases hcolumn
      indexes_size_le := (Array.size_map ..).trans_le hsize }

theorem wellFormed_restore (h : minCapacity ≤ chunkSize) (hfill : fill.capacity ≤ chunkSize)
    (hcolumns : ∀ (slot : Nat) segment, columns[slot]? = some segment →
      ∃ column, schema.columns[slot]? = some column ∧
        segment.WellFormed column.kind segment.capacity ∧ segment.capacity ≤ chunkSize)
    (hknown : ∀ (slot : Nat) segment, columns[slot]? = some segment →
      ∀ offset cell, segment.cell? offset = some cell → cell.Known (dictionaryOf dictionaries slot))
    (hsize : indexes.size = schema.indexes.size)
    (hindexes : ∀ bits ∈ indexes, bits.capacity ≤ chunkSize) :
    (restore chunkSize fill columns indexes).WellFormed chunkSize schema dictionaries := by
  obtain ⟨hlockstep, hsame⟩ := lockstep_restore h hfill hcolumns hsize.le hindexes
  exact
    { hlockstep with
      known := fun slot offset cell hcell => by
        rw [hsame.cell?] at hcell
        obtain ⟨segment, hs, hcell⟩ := Option.bind_eq_some_iff.mp hcell
        exact hknown slot segment hs offset cell hcell
      indexes_size := (Array.size_map ..).trans hsize }

/-! ## Computing an index anew -/

/-- One index agrees with its predicate, if it has one. -/
def IndexedAt (schema : Schema) (dictionaries : Array Dictionary) (slot : Nat) (chunk : Chunk) :
    Prop :=
  ∀ index predicate, schema.indexes[slot]? = some index → index.predicate = some predicate →
    ∀ offset, chunk.marks slot offset =
      Index.hits predicate (dictionaryOf dictionaries index.sourceSlot)
        (chunk.cell? index.sourceSlot offset)

/-- A chunk in which the bits of one index were computed anew. -/
structure Rebuilt (slot : Nat) (chunk chunk' : Chunk) : Prop where
  fill : chunk'.fill = chunk.fill
  columns : chunk'.columns = chunk.columns
  marks : ∀ slot' offset, slot' ≠ slot → chunk'.marks slot' offset = chunk.marks slot' offset

theorem Rebuilt.refl (slot : Nat) (chunk : Chunk) : Rebuilt slot chunk chunk :=
  ⟨rfl, rfl, fun _ _ _ => rfl⟩

theorem Rebuilt.cell? {slot : Nat} {chunk' : Chunk} (h : Rebuilt slot chunk chunk')
    (slot' offset : Nat) : chunk'.cell? slot' offset = chunk.cell? slot' offset := by
  rw [Chunk.cell?, Chunk.cell?, h.columns]

theorem Rebuilt.indexedAt {slot slot' : Nat} {chunk' : Chunk} (h : Rebuilt slot chunk chunk')
    (hne : slot' ≠ slot) (hold : chunk.IndexedAt schema dictionaries slot') :
    chunk'.IndexedAt schema dictionaries slot' := by
  intro index predicate hindex hpredicate offset
  rw [h.marks slot' offset hne, h.cell?]
  exact hold index predicate hindex hpredicate offset

theorem setIndex_eq {slot : Nat} (hslot : slot < chunk.indexes.size) (bits : Bitmap) :
    chunk.setIndex slot bits =
      { chunk with indexes := chunk.indexes.modify slot fun _ => bits } := by
  unfold Chunk.setIndex
  simp only
  rw [show slot + 1 - chunk.indexes.size = 0 by omega, Array.replicate_zero, Array.append_empty]

/-- A chunk that has another bitmap in the place of one index, and nothing else that is other. -/
structure SameBut (slot : Nat) (chunk chunk' : Chunk) : Prop where
  chunkSize : chunk'.chunkSize = chunk.chunkSize
  capacity : chunk'.capacity = chunk.capacity
  fill : chunk'.fill = chunk.fill
  columns : chunk'.columns = chunk.columns
  indexes_size : chunk'.indexes.size = chunk.indexes.size
  index : ∀ slot', slot' ≠ slot → chunk'.indexes[slot']? = chunk.indexes[slot']?

theorem SameBut.refl (slot : Nat) (chunk : Chunk) : SameBut slot chunk chunk :=
  ⟨rfl, rfl, rfl, rfl, rfl, fun _ _ => rfl⟩

theorem SameBut.rebuilt {slot : Nat} {chunk' : Chunk} (h : SameBut slot chunk chunk') :
    Rebuilt slot chunk chunk' where
  fill := h.fill
  columns := h.columns
  marks slot' offset hne := by rw [Chunk.marks, Chunk.marks, h.index slot' hne]

/-- Replacing the bitmap of an index that the chunk has changes no other. -/
theorem setIndex_sameBut {slot : Nat} (hslot : slot < chunk.indexes.size) (bits : Bitmap) :
    SameBut slot chunk (chunk.setIndex slot bits) := by
  rw [setIndex_eq hslot]
  refine ⟨rfl, rfl, rfl, rfl, Array.size_modify .., fun slot' hne => ?_⟩
  rw [Array.getElem?_modify, if_neg (Ne.symm hne)]

theorem getElem?_setIndex_self {slot : Nat} (hslot : slot < chunk.indexes.size) (bits : Bitmap) :
    (chunk.setIndex slot bits).indexes[slot]? = some bits := by
  rw [setIndex_eq hslot, Array.getElem?_modify, if_pos rfl, Array.getElem?_eq_getElem hslot,
    Option.map_some]

theorem Lockstep.setIndex (h : chunk.Lockstep chunkSize schema) {slot : Nat}
    (hslot : slot < chunk.indexes.size) {bits : Bitmap} (hbits : bits.Fits chunk.capacity) :
    (chunk.setIndex slot bits).Lockstep chunkSize schema := by
  rw [setIndex_eq hslot]
  exact
    { h with
      index := fun slot' found hfound => by
        rw [Array.getElem?_modify] at hfound
        split_ifs at hfound
        · obtain ⟨old, -, rfl⟩ := Option.map_eq_some_iff.mp hfound
          exact hbits
        · exact h.index slot' found hfound
      indexes_size_le := (Array.size_modify ..).trans_le h.indexes_size_le }

/-- Computing an index of the chunk anew keeps the parts in step and changes that index at most. A
    detached one stays as it is. -/
theorem Lockstep.rebuildIndex (h : chunk.Lockstep chunkSize schema) {slot : Nat}
    (hslot : slot < chunk.indexes.size) (index : Index) (dictionary : Dictionary)
    (answers : Option (Array Bool)) :
    (chunk.rebuildIndex slot index dictionary answers).Lockstep chunkSize schema ∧
      SameBut slot chunk (chunk.rebuildIndex slot index dictionary answers) := by
  unfold Chunk.rebuildIndex
  cases hsegment : chunk.columns[index.sourceSlot]? with
  | none => exact ⟨h, SameBut.refl slot chunk⟩
  | some segment =>
    obtain ⟨column, -, hs⟩ := h.column index.sourceSlot segment hsegment
    dsimp only
    cases hcompute : index.compute dictionary segment answers with
    | none => exact ⟨h, SameBut.refl slot chunk⟩
    | some bits =>
      refine ⟨h.setIndex hslot ?_, setIndex_sameBut hslot bits⟩
      obtain ⟨predicate, -, rfl⟩ := Option.map_eq_some_iff.mp hcompute
      rw [hs.capacity_eq]
      refine (Bitmap.fits_withCapacity chunk.capacity).foldl_set fun offset hoffset => ?_
      exact hs.presence.lt offset (Bitmap.mem_toList.mp (List.mem_filter.mp hoffset).1)

theorem WellFormed.setIndex (h : chunk.WellFormed chunkSize schema dictionaries) {slot : Nat}
    (hslot : slot < schema.indexes.size) {bits : Bitmap} (hbits : bits.Fits chunk.capacity) :
    (chunk.setIndex slot bits).WellFormed chunkSize schema dictionaries ∧
      Rebuilt slot chunk (chunk.setIndex slot bits) ∧
      ∀ offset, (chunk.setIndex slot bits).marks slot offset = bits.contains offset := by
  have hlt : slot < chunk.indexes.size := hslot.trans_eq h.indexes_size.symm
  have hsame := setIndex_sameBut hlt bits
  refine ⟨{ h.lockstep.setIndex hlt hbits with
    known := fun slot' offset cell hcell => ?_
    indexes_size := hsame.indexes_size.trans h.indexes_size }, hsame.rebuilt, fun offset => ?_⟩
  · rw [hsame.rebuilt.cell?] at hcell
    exact h.known slot' offset cell hcell
  · rw [marks, getElem?_setIndex_self hlt, Option.any_some]

/-- The bitmap computed for an attached index of a chunk that has its source. -/
theorem WellFormed.compute (h : chunk.WellFormed chunkSize schema dictionaries) {index : Index}
    {predicate : Value → Bool} (hpredicate : index.predicate = some predicate) {column : Column}
    (hcolumn : schema.columns[index.sourceSlot]? = some column) {segment : Segment}
    (hsegment : chunk.columns[index.sourceSlot]? = some segment) :
    ∃ bits, index.compute (dictionaryOf dictionaries index.sourceSlot) segment
        (index.table? column (dictionaryOf dictionaries index.sourceSlot)) = some bits ∧
      bits.Fits chunk.capacity ∧
      ∀ offset, bits.contains offset = Index.hits predicate
        (dictionaryOf dictionaries index.sourceSlot) (chunk.cell? index.sourceSlot offset) := by
  obtain ⟨found, hfound, hs⟩ := h.column index.sourceSlot segment hsegment
  rw [hcolumn] at hfound
  cases hfound
  have hcell : ∀ offset, chunk.cell? index.sourceSlot offset = segment.cell? offset := by
    intro offset
    rw [cell?, hsegment, Option.bind_some]
  have hknown : ∀ offset cell, segment.cell? offset = some cell →
      cell.Known (dictionaryOf dictionaries index.sourceSlot) :=
    fun offset cell hc => h.known index.sourceSlot offset cell ((hcell offset).trans hc)
  obtain ⟨bits, hcompute, hfits, hcontains⟩ := Index.compute_of_attached hpredicate hs hknown
  refine ⟨bits, hcompute, hfits, fun offset => ?_⟩
  rw [hcontains, hcell]

/-- Computing an attached index anew makes it agree with its predicate. -/
theorem WellFormed.rebuildIndex (h : chunk.WellFormed chunkSize schema dictionaries)
    (hcolumns : chunk.columns.size = schema.columns.size) {slot : Nat} {index : Index}
    (hindex : schema.indexes[slot]? = some index) {predicate : Value → Bool}
    (hpredicate : index.predicate = some predicate) {column : Column}
    (hcolumn : schema.columns[index.sourceSlot]? = some column) :
    (chunk.rebuildIndex slot index (dictionaryOf dictionaries index.sourceSlot)
        (index.table? column (dictionaryOf dictionaries index.sourceSlot))).WellFormed chunkSize
          schema dictionaries ∧
      Rebuilt slot chunk (chunk.rebuildIndex slot index
        (dictionaryOf dictionaries index.sourceSlot)
        (index.table? column (dictionaryOf dictionaries index.sourceSlot))) ∧
      (chunk.rebuildIndex slot index (dictionaryOf dictionaries index.sourceSlot)
        (index.table? column (dictionaryOf dictionaries index.sourceSlot))).IndexedAt schema
          dictionaries slot := by
  have hlt : index.sourceSlot < chunk.columns.size := by
    rw [hcolumns]
    exact (Array.getElem?_eq_some_iff.mp hcolumn).1
  have hsegment : chunk.columns[index.sourceSlot]? = some chunk.columns[index.sourceSlot] :=
    Array.getElem?_eq_getElem hlt
  obtain ⟨bits, hcompute, hfits, hcontains⟩ := h.compute hpredicate hcolumn hsegment
  obtain ⟨hwf, hrebuilt, hmarks⟩ := h.setIndex (Array.getElem?_eq_some_iff.mp hindex).1 hfits
  unfold Chunk.rebuildIndex
  simp only [hsegment, hcompute]
  refine ⟨hwf, hrebuilt, fun found p hfound hp offset => ?_⟩
  rw [hindex] at hfound
  cases hfound
  rw [hpredicate] at hp
  cases hp
  rw [hmarks, hcontains, hrebuilt.cell?]

end Chunk

end ColumnStore
