import ColumnStore.Proofs.Snapshot.Accepted
import ColumnStore.Proofs.Snapshot.RoundTrip

/-!
# Snapshots taken again

The table that is read from the snapshot of another has its columns and indexes in the order of
their names, and segments that were stored come back with what arrays held at absent offsets gone.
None of it is written: for a table that was itself read from bytes, with the predicates it has
registered, the snapshot taken again is the same to the byte (`encode_restored`).

`ChunkReorders` is what becomes of a chunk. Its capacity is the one it had since that is a power of
two already, and with equal capacities equal sets of offsets are equal bitmaps.
-/

namespace ColumnStore

/-! ## Sorted names -/

namespace Schema

variable {schema : Schema}

theorem sorted_of_pairwise {α : Type} {key : α → String} {xs : List α}
    (h : (xs.map key).Pairwise (· < ·)) :
    (Entries.ofList (xs.zipIdx.map fun x => (key x.1, (x.2, x.1)))).map Prod.snd =
      xs.zipIdx.map Prod.swap := by
  rw [Entries.ofList_of_pairwise (by rwa [map_fst_zipIdx]), List.map_map]
  rfl

theorem getElem?_zipIdx_swap {α : Type} (xs : List α) (i : Nat) :
    (xs.zipIdx.map Prod.swap)[i]? = xs[i]?.map (i, ·) := by
  rw [List.getElem?_map, List.getElem?_zipIdx, Option.map_map, Nat.zero_add]
  rfl

/-- Columns that are in order are sorted to where they are. -/
theorem getElem?_sortedColumns (h : (schema.columns.toList.map Column.name).Pairwise (· < ·))
    (slot : Nat) : schema.sortedColumns[slot]? = schema.columns[slot]?.map (slot, ·) := by
  have hsorted : schema.sortedColumns = schema.columns.toList.zipIdx.map Prod.swap :=
    sorted_of_pairwise h
  rw [hsorted, getElem?_zipIdx_swap, Array.getElem?_toList]

/-- Indexes that are in order are sorted to where they are. -/
theorem getElem?_sortedIndexes (h : (schema.indexes.toList.map Index.name).Pairwise (· < ·))
    (slot : Nat) : schema.sortedIndexes[slot]? = schema.indexes[slot]?.map (slot, ·) := by
  have hsorted : schema.sortedIndexes = schema.indexes.toList.zipIdx.map Prod.swap :=
    sorted_of_pairwise h
  rw [hsorted, getElem?_zipIdx_swap, Array.getElem?_toList]

end Schema

/-! ## Segments -/

/-- Segments of one capacity with the same cells have the same stored form. -/
theorem Segment.WellFormed.encode_eq {kind : Kind} {capacity : Nat} {s s' : Segment}
    (hs : s.WellFormed kind capacity) (hs' : s'.WellFormed kind capacity)
    (hcell : ∀ offset, s'.cell? offset = s.cell? offset) : s'.encode = s.encode := by
  have hpresence : s'.presence = s.presence :=
    hs'.presence.eq_of_contains hs.presence fun offset _ => by
      have hsome := congrArg Option.isSome (hcell offset)
      rwa [hs'.isSome_cell?, hs.isSome_cell?] at hsome
  have hcells : ∀ offset ∈ s.presence.toList, s'.cells.get? offset = s.cells.get? offset := by
    intro offset hmem
    obtain ⟨cell, hget, hfound, -⟩ := hs.get?_of_mem hmem
    obtain ⟨cell', hget', hfound', -⟩ := hs'.get?_of_mem (hpresence ▸ hmem)
    rw [hget, hget', ← hfound, ← hfound', hcell]
  rw [encode, encode, hs'.kind_eq, hs.kind_eq, hs'.capacity_eq, hs.capacity_eq, hpresence]
  congr 1
  rw [List.flatMap_def, List.flatMap_def]
  congr 1
  exact List.map_congr_left fun offset hmem => by rw [hcells offset hmem]

namespace Snapshot

variable {config : Config} {table : Table}

/-! ## Capacities -/

/-- Every column has a segment in every chunk. -/
theorem Accepted.exists_segment (ha : Accepted table) (h : table.WellFormed config) {id : Nat}
    {chunk : Chunk} (hchunk : table.chunks[id]? = some chunk) {slot : Nat} {column : Column}
    (hcolumn : table.schema.columns[slot]? = some column) :
    ∃ segment, chunk.columns[slot]? = some segment ∧
      segment.WellFormed column.kind chunk.capacity := by
  have hlt : slot < chunk.columns.size := by
    rw [ha.columns_size chunk (Array.mem_of_getElem? hchunk)]
    exact (Array.getElem?_eq_some_iff.mp hcolumn).1
  obtain ⟨found, hfound, hs⟩ := (h.chunk id chunk hchunk).wellFormed.column slot _
    (Array.getElem?_eq_getElem hlt)
  rw [hcolumn] at hfound
  cases hfound
  exact ⟨_, Array.getElem?_eq_getElem hlt, hs⟩

/-- Every index has a bitmap in every chunk. -/
theorem exists_bitmap (h : table.WellFormed config) {id : Nat} {chunk : Chunk}
    (hchunk : table.chunks[id]? = some chunk) {slot : Nat} {index : Index}
    (hindex : table.schema.indexes[slot]? = some index) :
    ∃ bits, chunk.indexes[slot]? = some bits ∧ bits.Fits chunk.capacity := by
  have hok := (h.chunk id chunk hchunk).wellFormed
  have hlt : slot < chunk.indexes.size := by
    rw [hok.indexes_size]
    exact (Array.getElem?_eq_some_iff.mp hindex).1
  exact ⟨_, Array.getElem?_eq_getElem hlt, hok.index slot _ (Array.getElem?_eq_getElem hlt)⟩

/-- The capacity of a chunk is a whole number of words. -/
theorem Accepted.dvd_capacity (ha : Accepted table) (h : table.WellFormed config) {id : Nat}
    {chunk : Chunk} (hchunk : table.chunks[id]? = some chunk) : 64 ∣ chunk.capacity := by
  have hmin : 64 ≤ chunk.capacity := (h.chunk id chunk hchunk).wellFormed.le_capacity
  obtain ⟨k, hk⟩ := ha.capacity chunk (Array.mem_of_getElem? hchunk)
  rw [hk] at hmin ⊢
  exact dvd_two_pow hmin

section Capacities

variable (h : table.WellFormed config) (ha : Accepted table) (registered : Schema) {id : Nat}
  {chunk : Chunk} (hchunk : table.chunks[id]? = some chunk)

include h ha hchunk

/-- No segment of a chunk is read back with more room than the chunk had. -/
theorem capacity_segmentsAt_le {segment : Segment}
    (hmem : segment ∈ segmentsAt (restoredColumns table) id) :
    segment.capacity ≤ chunk.capacity := by
  have hlist : table.chunks.toList[id]? = some chunk := Array.getElem?_toList.trans hchunk
  obtain ⟨slot, hslot⟩ := Array.mem_iff_getElem?.mp hmem
  rw [(partsOk_restored h ha.fits .empty).getElem?_segmentsAt
    (Array.getElem?_eq_some_iff.mp hchunk).1, restoredColumns, List.getElem?_map] at hslot
  obtain ⟨stored, hstored, hs⟩ := Option.bind_eq_some_iff.mp hslot
  obtain ⟨place, hplace, rfl⟩ := Option.map_eq_some_iff.mp hstored
  obtain ⟨old, hold, hwf⟩ := ha.exists_segment h hchunk
    (h.schema.mem_sortedColumns.mp (List.mem_of_getElem? hplace))
  rw [storedColumn, List.getElem?_map, hlist, Option.map_some, Option.some.injEq, segmentOf, hold,
    Option.getD_some] at hs
  rw [← hs]
  exact hwf.reread.2.1

/-- No bitmap of a chunk is read back with more room than the chunk had. -/
theorem capacity_bitmapsAt_le {bits : Bitmap}
    (hmem : bits ∈ bitmapsAt (restoredIndexes registered table) id) :
    bits.capacity ≤ chunk.capacity := by
  have hlist : table.chunks.toList[id]? = some chunk := Array.getElem?_toList.trans hchunk
  obtain ⟨slot, hslot⟩ := Array.mem_iff_getElem?.mp hmem
  rw [(partsOk_restored h ha.fits registered).getElem?_bitmapsAt
    (Array.getElem?_eq_some_iff.mp hchunk).1, restoredIndexes, List.getElem?_map] at hslot
  obtain ⟨stored, hstored, hbits⟩ := Option.bind_eq_some_iff.mp hslot
  obtain ⟨place, hplace, rfl⟩ := Option.map_eq_some_iff.mp hstored
  obtain ⟨old, hold, hfits⟩ := exists_bitmap h hchunk
    (h.schema.mem_sortedIndexes.mp (List.mem_of_getElem? hplace))
  rw [storedIndex, List.getElem?_map, hlist, Option.map_some, Option.some.injEq, hold,
    Option.getD_some] at hbits
  rw [← hbits]
  exact hfits.capacity_le le_rfl (ha.dvd_capacity h hchunk)

/-- A chunk that is read back has the capacity it had. -/
theorem capacity_restored {chunk' : Chunk}
    (hchunk' : (restored config.chunkSize registered table).chunks[id]? = some chunk') :
    chunk'.capacity = chunk.capacity := by
  have hok := (h.chunk id chunk hchunk).wellFormed
  obtain ⟨k, hk⟩ := ha.capacity chunk (Array.mem_of_getElem? hchunk)
  have hfill : chunk.fill.capacity = chunk.capacity := by
    have hdvd := ha.dvd_capacity h hchunk
    rw [Bitmap.capacity, hok.fill.size, Bitmap.wordCount]
    omega
  have hsame := Table.capacity_revalidate (tableOf config.chunkSize table.nextRow
    (restoredSchema registered table) (restoredColumns table) (restoredIndexes registered table)
    (restoredFills table)) id
  have hget : (chunksOf config.chunkSize (restoredColumns table) (restoredIndexes registered table)
      (restoredFills table))[id]? = some (Chunk.restore config.chunkSize chunk.fill
        (segmentsAt (restoredColumns table) id)
        (bitmapsAt (restoredIndexes registered table) id)) := by
    rw [getElem?_chunksOf, restoredFills, List.getElem?_map, Array.getElem?_toList, hchunk]
    rfl
  rw [← restored, hchunk', tableOf, hget, Option.map_some, Option.map_some,
    Option.some.injEq] at hsame
  rw [hsame, hk]
  exact Chunk.capacity_restore_eq (hk ▸ hok.le_capacity) (hk ▸ hok.capacity_le) (hfill.trans hk)
    (fun segment hmem => hk ▸ capacity_segmentsAt_le h ha hchunk hmem)
    fun bits hmem => hk ▸ capacity_bitmapsAt_le h ha registered hchunk hmem

end Capacities

/-! ## Index bits -/

/-- A schema has registered what its own indexes have. -/
theorem registered?_self {schema : Schema} (h : schema.WellFormed) {slot : Nat} {index : Index}
    (hindex : schema.indexes[slot]? = some index) :
    registered? schema index.name index.source = index.predicate := by
  unfold registered?
  simp only [h.index?_eq_some_iff.mpr ⟨hindex, rfl⟩, if_true]

/-- The source of an index is where the order of names has put it. -/
theorem getElem?_sourceSlot (h : table.WellFormed config) {slot : Nat} {index : Index}
    (hindex : table.schema.indexes[slot]? = some index) (registered : Schema) :
    ∃ column, table.schema.sortedColumns[(storedIndex registered (columnSchema table) table
      (slot, index)).index.sourceSlot]? = some (index.sourceSlot, column) := by
  obtain ⟨column, hcolumn, hsource⟩ := h.schema.source index (Array.mem_of_getElem? hindex)
  have hname : index.source ∈ table.schema.columns.toList.map Column.name :=
    List.mem_map.mpr ⟨column, Array.mem_toList_iff.mpr (Array.mem_of_getElem? hcolumn), hsource⟩
  obtain ⟨⟨slot', column'⟩, hfound⟩ :=
    Option.isSome_iff_exists.mp (columnSchema_column?_isSome h hname)
  obtain ⟨hslot', hname'⟩ := Schema.exists_of_column? hfound
  rw [columnSchema, List.getElem?_toArray, List.getElem?_map] at hslot'
  obtain ⟨place, hplace, rfl⟩ := Option.map_eq_some_iff.mp hslot'
  -- both are the column of that name
  have hold := h.schema.mem_sortedColumns.mp (List.mem_of_getElem? hplace)
  have hsame := (h.schema.column?_eq_some_iff.mpr ⟨hold, hname'⟩).symm.trans
    (h.schema.column?_eq_some_iff.mpr ⟨hcolumn, hsource⟩)
  refine ⟨column, ?_⟩
  show table.schema.sortedColumns[((Schema.column? _ _).map Prod.fst).getD 0]? = _
  rw [hfound, ← Option.some.inj hsame]
  exact hplace

/-- With the predicates that a table has registered, every index marks the rows it marked. -/
theorem marks_restored_self (h : table.WellFormed config) (hfits : Fits table) {slot : Nat}
    {place : Nat × Index} (hplace : table.schema.sortedIndexes[slot]? = some place) (row : Nat) :
    (restored config.chunkSize table.schema table).marks config slot row =
      table.marks config place.1 row := by
  have hindex := h.schema.mem_sortedIndexes.mp (List.mem_of_getElem? hplace)
  have hregistered := registered?_self h.schema hindex
  cases hpredicate : place.2.predicate with
  | none => exact marks_restored h hfits rfl _ hplace (hregistered.trans hpredicate) row
  | some predicate =>
    have hwf := wellFormed_restored h hfits rfl table.schema h.usable
    obtain ⟨column, hsource⟩ := getElem?_sourceSlot h hindex table.schema
    have hindex' := index_restored config.chunkSize table.schema hplace
    rw [hwf.marks_eq hindex' (hregistered.trans hpredicate), h.marks_eq hindex hpredicate,
      cellValue?_restored h hfits rfl table.schema hsource]

/-! ## Chunks -/

/-- A chunk with the parts of another where the order of names puts them. -/
structure ChunkReorders (table : Table) (chunk chunk' : Chunk) : Prop where
  fill : chunk'.fill = chunk.fill
  column : ∀ (slot : Nat) place, table.schema.sortedColumns[slot]? = some place →
    ∃ s s', chunk.columns[place.1]? = some s ∧ chunk'.columns[slot]? = some s' ∧
      s'.encode = s.encode
  index : ∀ (slot : Nat) place, table.schema.sortedIndexes[slot]? = some place →
    ∃ bits, chunk.indexes[place.1]? = some bits ∧ chunk'.indexes[slot]? = some bits

theorem exists_chunkReorders (h : table.WellFormed config) (ha : Accepted table) {id : Nat}
    {chunk : Chunk} (hchunk : table.chunks[id]? = some chunk) :
    ∃ chunk', (restored config.chunkSize table.schema table).chunks[id]? = some chunk' ∧
      ChunkReorders table chunk chunk' := by
  obtain ⟨chunk', hchunk', hrestores⟩ := exists_chunkRestores h ha.fits table.schema hchunk
  have h' := wellFormed_restored h ha.fits rfl table.schema h.usable
  have ha' := accepted_of_decode h.usable (decode_encode h ha.fits table.schema)
  have hok := (h.chunk id chunk hchunk).wellFormed
  have hok' := (h'.chunk id chunk' hchunk').wellFormed
  have hcapacity := capacity_restored h ha table.schema hchunk hchunk'
  refine ⟨chunk', hchunk', ?_, fun slot place hplace => ?_, fun slot place hplace => ?_⟩
  · have hfits := hok'.fill
    rw [hcapacity] at hfits
    exact hfits.eq_of_contains hok.fill fun offset _ => hrestores.fill offset
  · have hcolumn := h.schema.mem_sortedColumns.mp (List.mem_of_getElem? hplace)
    obtain ⟨s, hs, hwf⟩ := ha.exists_segment h hchunk hcolumn
    have hcolumn' := column_restored config.chunkSize table.schema hplace
    obtain ⟨s', hs', hwf'⟩ := ha'.exists_segment h' hchunk' hcolumn'
    rw [hcapacity] at hwf'
    refine ⟨s, s', hs, hs', hwf.encode_eq hwf' fun offset => ?_⟩
    have hcell := hrestores.cell? slot place hplace offset
    rwa [Chunk.cell?, Chunk.cell?, hs, hs', Option.bind_some, Option.bind_some] at hcell
  · have hindex := h.schema.mem_sortedIndexes.mp (List.mem_of_getElem? hplace)
    obtain ⟨bits, hbits, hfits⟩ := exists_bitmap h hchunk hindex
    have hindex' := index_restored config.chunkSize table.schema hplace
    obtain ⟨bits', hbits', hfits'⟩ := exists_bitmap h' hchunk' hindex'
    rw [hcapacity] at hfits'
    have hsame : bits' = bits := by
      refine hfits'.eq_of_contains hfits fun offset hlt => ?_
      have hlt' : offset < config.chunkSize := hlt.trans_le hok.capacity_le
      have hmarks := marks_restored_self h ha.fits hplace (id * config.chunkSize + offset)
      rwa [Table.marks_of_chunk hchunk' hlt', Table.marks_of_chunk hchunk hlt', Chunk.marks,
        Chunk.marks, hbits, hbits', Option.any_some, Option.any_some] at hmarks
    exact ⟨bits, hbits, hsame ▸ hbits'⟩

/-! ## The whole -/

/-- Lists that are written alike place by place are written alike. -/
theorem flatMap_eq_of_getElem? {α β : Type} {xs : List α} {ys : List β} {f : α → Bytes}
    {g : β → Bytes} (h : ∀ i : Nat, xs[i]?.map f = ys[i]?.map g) : xs.flatMap f = ys.flatMap g := by
  rw [List.flatMap_def, List.flatMap_def]
  congr 1
  exact List.ext_getElem? fun i => by rw [List.getElem?_map, List.getElem?_map, h]

section Whole

variable (h : table.WellFormed config) (ha : Accepted table)

include h ha

/-- What is the same for every chunk is the same for all of them in a row. -/
theorem map_chunks_restored {α : Type} {f f' : Chunk → α}
    (hsame : ∀ chunk chunk', ChunkReorders table chunk chunk' → f' chunk' = f chunk) :
    (restored config.chunkSize table.schema table).chunks.toList.map f' =
      table.chunks.toList.map f := by
  refine List.ext_getElem? fun id => ?_
  rw [List.getElem?_map, List.getElem?_map, Array.getElem?_toList, Array.getElem?_toList]
  rcases chunk_restored h ha.fits table.schema id with
    ⟨hnone, hnone'⟩ | ⟨chunk, _, hchunk, -, -⟩
  · rw [hnone, hnone']
    rfl
  · obtain ⟨chunk', hchunk', hreorders⟩ := exists_chunkReorders h ha hchunk
    rw [hchunk, hchunk', Option.map_some, Option.map_some, hsame chunk chunk' hreorders]

theorem flatMap_chunks_restored {f f' : Chunk → Bytes}
    (hsame : ∀ chunk chunk', ChunkReorders table chunk chunk' → f' chunk' = f chunk) :
    (restored config.chunkSize table.schema table).chunks.toList.flatMap f' =
      table.chunks.toList.flatMap f := by
  rw [List.flatMap_def, List.flatMap_def, map_chunks_restored h ha hsame]

theorem encodeColumn_restored {slot : Nat} {place : Nat × Column}
    (hplace : table.schema.sortedColumns[slot]? = some place) :
    encodeColumn (restored config.chunkSize table.schema table) slot place.2 =
      encodeColumn table place.1 place.2 := by
  rw [encodeColumn, encodeColumn, dictionary_restored _ _ _ hplace]
  congr 1
  · by_cases hkind : place.2.kind = .enum
    · simp only [hkind, if_true]
    · simp only [hkind, if_false]
  · refine flatMap_chunks_restored h ha fun chunk chunk' hreorders => ?_
    obtain ⟨s, s', hs, hs', hencode⟩ := hreorders.column slot place hplace
    rw [hs, hs', Option.getD_some, Option.getD_some, hencode]

theorem encodeIndex_restored {slot : Nat} {place : Nat × Index}
    (hplace : table.schema.sortedIndexes[slot]? = some place) :
    encodeIndex (restored config.chunkSize table.schema table) slot
        (storedIndex table.schema (columnSchema table) table place).index =
      encodeIndex table place.1 place.2 := by
  rw [encodeIndex, encodeIndex]
  congr 1
  refine flatMap_chunks_restored h ha fun chunk chunk' hreorders => ?_
  obtain ⟨bits, hbits, hbits'⟩ := hreorders.index slot place hplace
  rw [hbits, hbits']

/-- All columns, in the order of their names. -/
theorem encodeColumns_restored :
    ((restored config.chunkSize table.schema table).schema.sortedColumns.flatMap fun place =>
        encodeColumn (restored config.chunkSize table.schema table) place.1 place.2) =
      table.schema.sortedColumns.flatMap fun place => encodeColumn table place.1 place.2 := by
  have hrestores : table.Restores table.schema config config
      (restored config.chunkSize table.schema table) := restores_restored h ha.fits rfl _
  refine flatMap_eq_of_getElem? fun slot => ?_
  have hcolumn : (restored config.chunkSize table.schema table).schema.columns[slot]? =
      table.schema.sortedColumns[slot]?.map Prod.snd :=
    getElem?_restoredColumns table.schema table slot
  rw [Schema.getElem?_sortedColumns hrestores.sorted, hcolumn]
  cases hplace : table.schema.sortedColumns[slot]? with
  | none => rfl
  | some place =>
    rw [Option.map_some, Option.map_some, Option.map_some, Option.map_some,
      encodeColumn_restored h ha hplace]

/-- All indexes, in the order of their names. -/
theorem encodeIndexes_restored :
    ((restored config.chunkSize table.schema table).schema.sortedIndexes.flatMap fun place =>
        encodeIndex (restored config.chunkSize table.schema table) place.1 place.2) =
      table.schema.sortedIndexes.flatMap fun place => encodeIndex table place.1 place.2 := by
  have hnames : ((restored config.chunkSize table.schema table).schema.indexes.toList.map
      Index.name).Pairwise (· < ·) := by
    show (((restoredIndexes table.schema table).map StoredIndex.index).map
      Index.name).Pairwise (· < ·)
    rw [restoredIndexes, List.map_map, List.map_map]
    exact h.schema.sortedIndexes_pairwise
  refine flatMap_eq_of_getElem? fun slot => ?_
  have hindex : (restored config.chunkSize table.schema table).schema.indexes[slot]? =
      table.schema.sortedIndexes[slot]?.map fun place =>
        (storedIndex table.schema (columnSchema table) table place).index :=
    getElem?_restoredIndexes table.schema table slot
  rw [Schema.getElem?_sortedIndexes hnames, hindex]
  cases hplace : table.schema.sortedIndexes[slot]? with
  | none => rfl
  | some place =>
    rw [Option.map_some, Option.map_some, Option.map_some, Option.map_some,
      encodeIndex_restored h ha hplace]

/-- The snapshot of a table that was read, read again with the predicates it has registered, has
    the same snapshot. -/
theorem encode_restored :
    encode config.chunkSize (restored config.chunkSize table.schema table) =
      encode config.chunkSize table := by
  have hchunks := size_restored config.chunkSize table.schema table
  have hcolumns : (restored config.chunkSize table.schema table).schema.columns.size =
      table.schema.columns.size := by
    show ((table.schema.sortedColumns.map Prod.snd).toArray).size = _
    rw [List.size_toArray, List.length_map, h.schema.length_sortedColumns]
  have hindexes : (restored config.chunkSize table.schema table).schema.indexes.size =
      table.schema.indexes.size := by
    show (((restoredIndexes table.schema table).map StoredIndex.index).toArray).size = _
    rw [List.size_toArray, List.length_map, restoredIndexes, List.length_map,
      h.schema.length_sortedIndexes]
  have hlive : liveRows (restored config.chunkSize table.schema table) = liveRows table := by
    rw [liveRows, liveRows, map_chunks_restored h ha fun chunk chunk' hreorders => by
      rw [hreorders.fill]]
  have hfills : ((restored config.chunkSize table.schema table).chunks.toList.flatMap fun chunk =>
      chunk.fill.encode) = table.chunks.toList.flatMap fun chunk => chunk.fill.encode :=
    flatMap_chunks_restored h ha fun chunk chunk' hreorders => by rw [hreorders.fill]
  have hnext : (restored config.chunkSize table.schema table).nextRow = table.nextRow := rfl
  rw [encode, encode, hchunks, hcolumns, hindexes, encodeColumns_restored h ha,
    encodeIndexes_restored h ha, hlive, hfills, hnext]

end Whole

end Snapshot

end ColumnStore
