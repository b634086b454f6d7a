import ColumnStore.Proofs.Snapshot.Encode

/-!
# What a snapshot keeps

The table that is read from the snapshot of another has its columns and indexes in other slots and
its segments with other capacities. `Restores` says what stays whatever the slots are: the columns
and the indexes by their names, the rows with their values, the dictionaries, and the bits of
indexes that come back without a predicate. `restores_restored`: so it is for every well-formed
table that fits, and `wellFormed_restored`: what is read is well-formed.
-/

namespace ColumnStore

/-- A table that holds what another did, with the predicates that were registered for its
    indexes. -/
structure Table.Restores (registered : Schema) (config config' : Config) (table table' : Table) :
    Prop where
  columns : table'.schema.columns.toList.Perm table.schema.columns.toList
  sorted : (table'.schema.columns.toList.map Column.name).Pairwise (· < ·)
  indexes : (table'.schema.indexes.toList.map fun index => (index.name, index.source)).Perm
    (table.schema.indexes.toList.map fun index => (index.name, index.source))
  nextRow : table'.nextRow = table.nextRow
  live : table'.live = table.live
  isLive : ∀ row, table'.isLive config' row = table.isLive config row
  column : ∀ (slot : Nat) column, table.schema.columns[slot]? = some column →
    ∃ slot' : Nat, table'.schema.columns[slot']? = some column ∧
      (∀ row, table'.cellValue? config' slot' row = table.cellValue? config slot row) ∧
      (column.kind = .enum → table'.dictionary slot' = table.dictionary slot)
  index : ∀ (slot : Nat) index, table.schema.indexes[slot]? = some index →
    ∃ (slot' : Nat) (index' : Index), table'.schema.indexes[slot']? = some index' ∧
      index'.name = index.name ∧ index'.source = index.source ∧
      index'.predicate = Snapshot.registered? registered index.name index.source ∧
      (index'.predicate = none →
        ∀ row, table'.marks config' slot' row = table.marks config slot row)

namespace Snapshot

variable {config : Config} {table : Table}

/-! ## The parts -/

/-- The parts of a snapshot go together. -/
theorem partsOk_restored (h : table.WellFormed config) (hfits : Fits table) (registered : Schema) :
    PartsOk config.chunkSize table.chunks.size table.nextRow (restoredSchema registered table)
      (restoredColumns table) (restoredIndexes registered table) (restoredFills table) := by
  have hcolumns := (reads_sortedColumns h hfits).of_yields
    (yields_readColumns config.chunkSize table.chunks.size table.schema.columns.size
      Schema.wellFormed_empty)
  have hindexes := (reads_sortedIndexes h hfits registered).of_yields
    (yields_readIndexes registered config.chunkSize table.chunks.size table.schema.indexes.size
      hcolumns.1)
  have hfills := (reads_restoredFills h).of_yields
    (yields_readFills config.chunkSize table.nextRow table.chunks.size 0)
  exact partsOk_of_read hcolumns hindexes hfills

theorem getElem?_restoredColumns (registered : Schema) (table : Table) (slot : Nat) :
    (restoredSchema registered table).columns[slot]? =
      table.schema.sortedColumns[slot]?.map Prod.snd := by
  rw [restoredSchema, columnSchema, List.getElem?_toArray, List.getElem?_map]

theorem getElem?_restoredIndexes (registered : Schema) (table : Table) (slot : Nat) :
    (restoredSchema registered table).indexes[slot]? =
      table.schema.sortedIndexes[slot]?.map fun place =>
        (storedIndex registered (columnSchema table) table place).index := by
  rw [restoredSchema, restoredIndexes, List.getElem?_toArray, List.map_map, List.getElem?_map]
  rfl

section Slots

variable (chunkSize : Nat) (registered : Schema) {table : Table} {slot : Nat}

/-- The column that a slot of a restored table has. -/
theorem column_restored {place : Nat × Column}
    (hplace : table.schema.sortedColumns[slot]? = some place) :
    (restored chunkSize registered table).schema.columns[slot]? = some place.2 := by
  refine (getElem?_restoredColumns registered table slot).trans ?_
  rw [hplace, Option.map_some]

/-- The index that a slot of a restored table has. -/
theorem index_restored {place : Nat × Index}
    (hplace : table.schema.sortedIndexes[slot]? = some place) :
    (restored chunkSize registered table).schema.indexes[slot]? =
      some (storedIndex registered (columnSchema table) table place).index := by
  refine (getElem?_restoredIndexes registered table slot).trans ?_
  rw [hplace, Option.map_some]

end Slots

/-- The dictionary of a restored column. -/
theorem dictionary_restored (chunkSize : Nat) (registered : Schema) (table : Table) {slot : Nat}
    {place : Nat × Column} (hplace : table.schema.sortedColumns[slot]? = some place) :
    (restored chunkSize registered table).dictionary slot =
      if place.2.kind = .enum then table.dictionary place.1 else .empty := by
  show Chunk.dictionaryOf (dictionariesOf (restoredColumns table)) slot = _
  rw [Chunk.dictionaryOf, dictionariesOf, List.getElem?_toArray, restoredColumns, List.getElem?_map,
    List.getElem?_map, hplace]
  rfl

/-! ## The chunks -/

/-- A chunk of a restored table. -/
structure ChunkRestores (registered : Schema) (table : Table) (chunk chunk' : Chunk) : Prop where
  fill : ∀ offset, chunk'.fill.contains offset = chunk.fill.contains offset
  cell? : ∀ (slot : Nat) place, table.schema.sortedColumns[slot]? = some place →
    ∀ offset, chunk'.cell? slot offset = chunk.cell? place.1 offset
  marks : ∀ (slot : Nat) place, table.schema.sortedIndexes[slot]? = some place →
    registered? registered place.2.name place.2.source = none →
    ∀ offset, chunk'.marks slot offset = chunk.marks place.1 offset

/-- Every chunk is restored: segments that were read have the cells they had when they were written,
    and only an index with a predicate is computed anew. -/
theorem exists_chunkRestores (h : table.WellFormed config) (hfits : Fits table)
    (registered : Schema) {id : Nat} {chunk : Chunk} (hchunk : table.chunks[id]? = some chunk) :
    ∃ chunk', (restored config.chunkSize registered table).chunks[id]? = some chunk' ∧
      ChunkRestores registered table chunk chunk' := by
  have hparts := partsOk_restored h hfits registered
  have hlist : table.chunks.toList[id]? = some chunk := by
    rw [Array.getElem?_toList]
    exact hchunk
  have hfill : (restoredFills table)[id]? = some chunk.fill := by
    rw [restoredFills, List.getElem?_map, hlist, Option.map_some]
  obtain ⟨chunk', hfound, -, -, hlive, hcell, hmarks⟩ := hparts.chunk_revalidate h.usable hfill
  refine ⟨chunk', hfound, hlive, fun slot place hplace offset => ?_,
    fun slot place hplace hnone offset => ?_⟩
  · have hcolumn : table.schema.columns[place.1]? = some place.2 :=
      h.schema.mem_sortedColumns.mp (List.mem_of_getElem? hplace)
    obtain ⟨capacity, hs, -, hsame⟩ :=
      segmentOf_spec h (Array.mem_of_getElem? hchunk) hcolumn
    have hsegment : ((restoredColumns table)[slot]?.bind fun stored => stored.segments[id]?) =
        some (segmentOf chunk place.1 place.2.kind).reread := by
      rw [restoredColumns, List.getElem?_map, hplace, Option.map_some, Option.bind_some,
        storedColumn, List.getElem?_map, hlist, Option.map_some]
    rw [hcell, hsegment, Option.bind_some, hs.reread.2.2, hsame]
  · have hindex := index_restored config.chunkSize registered hplace
    have hbits : ((restoredIndexes registered table)[slot]?.bind fun stored =>
        stored.bitmaps[id]?) = some (chunk.indexes[place.1]?.getD .empty) := by
      rw [restoredIndexes, List.getElem?_map, hplace, Option.map_some, Option.bind_some,
        storedIndex, List.getElem?_map, hlist, Option.map_some]
    rw [hmarks slot _ hindex hnone, hbits, Option.any_some]
    exact (bitmapOf_spec h (Array.mem_of_getElem? hchunk) place.1).2.2 offset

theorem size_restored (chunkSize : Nat) (registered : Schema) (table : Table) :
    (restored chunkSize registered table).chunks.size = table.chunks.size := by
  rw [restored, Table.size_revalidate, tableOf, size_chunksOf, length_restoredFills]

/-- A restored table has a chunk where the table has one, and that one is restored. -/
theorem chunk_restored (h : table.WellFormed config) (hfits : Fits table) (registered : Schema)
    (id : Nat) :
    (table.chunks[id]? = none ∧
        (restored config.chunkSize registered table).chunks[id]? = none) ∨
      ∃ chunk chunk', table.chunks[id]? = some chunk ∧
        (restored config.chunkSize registered table).chunks[id]? = some chunk' ∧
        ChunkRestores registered table chunk chunk' := by
  cases hchunk : table.chunks[id]? with
  | none =>
    refine Or.inl ⟨rfl, ?_⟩
    rw [Array.getElem?_eq_none_iff] at hchunk ⊢
    rw [size_restored]
    exact hchunk
  | some chunk =>
    obtain ⟨chunk', hfound, hrestores⟩ := exists_chunkRestores h hfits registered hchunk
    exact Or.inr ⟨chunk, chunk', rfl, hfound, hrestores⟩

/-! ## The rows -/

/-- What a cell stands for does not depend on a dictionary unless it is an id. -/
theorem decode_of_kind {column : Column} {cell : Cell} (hkind : cell.kind = column.kind)
    (d : Dictionary) :
    Column.decode (if column.kind = .enum then d else .empty) cell = Column.decode d cell := by
  rw [← hkind]
  cases cell <;> rfl

section Rows

variable {config' : Config} (h : table.WellFormed config) (hfits : Fits table)
  (hsize : config'.chunkSize = config.chunkSize) (registered : Schema)

include h hfits hsize

theorem isLive_restored (row : Nat) :
    (restored config.chunkSize registered table).isLive config' row = table.isLive config row := by
  unfold Table.isLive
  rw [hsize]
  rcases chunk_restored h hfits registered (row / config.chunkSize) with
    ⟨hnone, hnone'⟩ | ⟨chunk, chunk', hchunk, hchunk', hrestores⟩
  · rw [hnone, hnone']
  · rw [hchunk, hchunk', Option.any_some, Option.any_some, hrestores.fill]

theorem cellValue?_restored {slot : Nat} {place : Nat × Column}
    (hplace : table.schema.sortedColumns[slot]? = some place) (row : Nat) :
    (restored config.chunkSize registered table).cellValue? config' slot row =
      table.cellValue? config place.1 row := by
  have hcolumn : table.schema.columns[place.1]? = some place.2 :=
    h.schema.mem_sortedColumns.mp (List.mem_of_getElem? hplace)
  have hcell : (restored config.chunkSize registered table).cell? config' slot row =
      table.cell? config place.1 row := by
    unfold Table.cell?
    rw [hsize]
    rcases chunk_restored h hfits registered (row / config.chunkSize) with
      ⟨hnone, hnone'⟩ | ⟨chunk, chunk', hchunk, hchunk', hrestores⟩
    · rw [hnone, hnone', Option.bind_none, Option.bind_none]
    · rw [hchunk, hchunk', Option.bind_some, Option.bind_some, hrestores.cell? slot place hplace]
  rw [Table.cellValue?, Table.cellValue?, hcell, dictionary_restored _ _ _ hplace]
  cases hfound : table.cell? config place.1 row with
  | none => rfl
  | some cell =>
    obtain ⟨⟨column, hc, hkind⟩, -⟩ := h.kind_of_cell? hfound
    rw [hcolumn] at hc
    cases hc
    rw [Option.map_some, Option.map_some, decode_of_kind hkind]

theorem marks_restored {slot : Nat} {place : Nat × Index}
    (hplace : table.schema.sortedIndexes[slot]? = some place)
    (hnone : registered? registered place.2.name place.2.source = none) (row : Nat) :
    (restored config.chunkSize registered table).marks config' slot row =
      table.marks config place.1 row := by
  unfold Table.marks
  rw [hsize]
  rcases chunk_restored h hfits registered (row / config.chunkSize) with
    ⟨hnone', hnone''⟩ | ⟨chunk, chunk', hchunk, hchunk', hrestores⟩
  · rw [hnone', hnone'', Option.any_none, Option.any_none]
  · rw [hchunk, hchunk', Option.any_some, Option.any_some, hrestores.marks slot place hplace hnone]

/-- The snapshot of a table that fits holds what the table does. -/
theorem restores_restored :
    table.Restores registered config config' (restored config.chunkSize registered table) where
  columns := h.schema.map_sortedColumns
  sorted := by
    show ((table.schema.sortedColumns.map Prod.snd).map Column.name).Pairwise (· < ·)
    rw [List.map_map]
    exact h.schema.sortedColumns_pairwise
  indexes := by
    have hperm := h.schema.map_sortedIndexes.map fun index => (index.name, index.source)
    show (((restoredIndexes registered table).map StoredIndex.index).map _).Perm _
    rw [restoredIndexes, List.map_map, List.map_map]
    rwa [List.map_map] at hperm
  nextRow := rfl
  live := by
    show ((restoredFills table).map Bitmap.count).sum = table.live
    rw [h.live_eq, restoredFills, List.map_map]
    rfl
  isLive := isLive_restored h hfits hsize registered
  column slot column hcolumn := by
    obtain ⟨slot', hslot'⟩ := List.mem_iff_getElem?.mp (h.schema.mem_sortedColumns.mpr hcolumn)
    have hvalues := cellValue?_restored h hfits hsize registered hslot'
    refine ⟨slot', column_restored _ registered hslot', hvalues, fun hkind => ?_⟩
    rw [dictionary_restored _ _ _ hslot', if_pos hkind]
  index slot index hindex := by
    obtain ⟨slot', hslot'⟩ := List.mem_iff_getElem?.mp (h.schema.mem_sortedIndexes.mpr hindex)
    have hmarks := marks_restored h hfits hsize registered hslot'
    exact ⟨slot', (storedIndex registered (columnSchema table) table (slot, index)).index,
      index_restored _ registered hslot', rfl, rfl, rfl, hmarks⟩

/-- A restored table is well-formed. -/
theorem wellFormed_restored (husable : config'.fault? = none) :
    (restored config.chunkSize registered table).WellFormed config' := by
  have hparts := partsOk_restored h hfits registered
  rw [← hsize] at hparts
  have hwatermark : table.nextRow ≤ table.chunks.size * config'.chunkSize := by
    rw [hsize]
    exact h.nextRow_le
  rw [← hsize, restored]
  exact hparts.wellFormed_revalidate husable hwatermark

end Rows

end Snapshot

end ColumnStore
