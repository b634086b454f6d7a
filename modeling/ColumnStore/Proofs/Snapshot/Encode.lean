import ColumnStore.Proofs.Segment.Codec
import ColumnStore.Proofs.Snapshot.Load
import ColumnStore.Proofs.Table.Delete

/-!
# Snapshots read back

`decode_encode`: the snapshot of a well-formed table whose names, dictionaries, values and counts
fit the stored form (`Fits`) is accepted, and this is the table made of it: columns and indexes in
the order of their names, every column with its dictionary and its segments as they are read back,
every index with its bitmaps and with the predicate that is registered for it.
-/

namespace ColumnStore

open Reader (Reads)

/-- A power of two that is not less than a word is a whole number of words. -/
theorem dvd_two_pow {k : Nat} (h : 64 ≤ 2 ^ k) : 64 ∣ 2 ^ k := by
  have h : 2 ^ 6 ≤ 2 ^ k := h
  exact Nat.pow_dvd_pow 2 ((Nat.pow_le_pow_iff_right Nat.one_lt_two).mp h)

namespace Config

/-- A usable chunk size is a power of two. -/
theorem exists_pow_of_usable {config : Config} (h : config.fault? = none) :
    ∃ k, config.chunkSize = 2 ^ k := by
  unfold fault? at h
  simp only [Bool.or_eq_true, decide_eq_true_eq, Bool.not_eq_true'] at h
  split_ifs at h with hsize
  rw [not_or, not_or, Bool.not_eq_false] at hsize
  have hsame := (Bool.and_eq_true_iff.mp hsize.2).2
  refine ⟨config.chunkSize.log2, ?_⟩
  rw [← Nat.one_shiftLeft]
  exact (beq_iff_eq.mp hsame).symm

/-- A usable chunk size is a whole number of words. -/
theorem dvd_chunkSize_of_usable {config : Config} (h : config.fault? = none) :
    64 ∣ config.chunkSize := by
  have hmin : 64 ≤ config.chunkSize := (chunkSize_of_usable h).1
  obtain ⟨k, hk⟩ := exists_pow_of_usable h
  rw [hk] at hmin ⊢
  exact dvd_two_pow hmin

end Config

/-- A bitmap of a chunk has no more words than the chunk has. -/
theorem Bitmap.Fits.capacity_le {b : Bitmap} {capacity chunkSize : Nat} (h : b.Fits capacity)
    (hle : capacity ≤ chunkSize) (hdvd : 64 ∣ chunkSize) : b.capacity ≤ chunkSize := by
  obtain ⟨m, rfl⟩ := hdvd
  rw [Bitmap.capacity, h.size, Bitmap.wordCount]
  omega

/-! ## The order of names -/

namespace Schema

theorem map_fst_zipIdx {α : Type} (key : α → String) (xs : List α) :
    (xs.zipIdx.map fun x => (key x.1, (x.2, x.1))).map Prod.fst = xs.map key := by
  rw [List.map_map]
  conv_rhs => rw [← List.zipIdx_map_fst 0 xs, List.map_map]
  rfl

/-- Sorting by distinct names loses nothing. -/
theorem sorted_perm {α : Type} {key : α → String} {xs : List α} (h : (xs.map key).Nodup) :
    (Entries.ofList (xs.zipIdx.map fun x => (key x.1, (x.2, x.1)))).Perm
      (xs.zipIdx.map fun x => (key x.1, (x.2, x.1))) :=
  Entries.ofList_perm (map_fst_zipIdx key xs ▸ h)

variable {schema : Schema}

theorem WellFormed.sortedColumns_perm (h : schema.WellFormed) :
    schema.sortedColumns.Perm (schema.columns.toList.zipIdx.map Prod.swap) := by
  have hperm := (sorted_perm h.columns_nodup).map Prod.snd
  rwa [List.map_map] at hperm

theorem WellFormed.sortedIndexes_perm (h : schema.WellFormed) :
    schema.sortedIndexes.Perm (schema.indexes.toList.zipIdx.map Prod.swap) := by
  have hperm := (sorted_perm h.indexes_nodup).map Prod.snd
  rwa [List.map_map] at hperm

theorem mem_zipIdx_swap {α : Type} {xs : Array α} {slot : Nat} {x : α} :
    (slot, x) ∈ xs.toList.zipIdx.map Prod.swap ↔ xs[slot]? = some x := by
  rw [List.mem_map]
  constructor
  · rintro ⟨⟨y, i⟩, hmem, heq⟩
    cases heq
    exact mem_zipIdx_iff.mp hmem
  · intro hx
    exact ⟨(x, slot), mem_zipIdx_iff.mpr hx, rfl⟩

theorem WellFormed.mem_sortedColumns (h : schema.WellFormed) {slot : Nat} {column : Column} :
    (slot, column) ∈ schema.sortedColumns ↔ schema.columns[slot]? = some column := by
  rw [h.sortedColumns_perm.mem_iff, mem_zipIdx_swap]

theorem WellFormed.mem_sortedIndexes (h : schema.WellFormed) {slot : Nat} {index : Index} :
    (slot, index) ∈ schema.sortedIndexes ↔ schema.indexes[slot]? = some index := by
  rw [h.sortedIndexes_perm.mem_iff, mem_zipIdx_swap]

theorem map_snd_zipIdx_swap {α : Type} (xs : List α) :
    (xs.zipIdx.map Prod.swap).map Prod.snd = xs := by
  rw [List.map_map]
  exact List.zipIdx_map_fst 0 xs

theorem WellFormed.map_sortedColumns (h : schema.WellFormed) :
    (schema.sortedColumns.map Prod.snd).Perm schema.columns.toList := by
  have hperm := h.sortedColumns_perm.map Prod.snd
  rwa [map_snd_zipIdx_swap] at hperm

theorem WellFormed.map_sortedIndexes (h : schema.WellFormed) :
    (schema.sortedIndexes.map Prod.snd).Perm schema.indexes.toList := by
  have hperm := h.sortedIndexes_perm.map Prod.snd
  rwa [map_snd_zipIdx_swap] at hperm

theorem WellFormed.nodup_sortedColumns (h : schema.WellFormed) :
    (schema.sortedColumns.map fun place => place.2.name).Nodup := by
  have hnodup := (h.map_sortedColumns.map Column.name).nodup_iff.mpr h.columns_nodup
  rwa [List.map_map] at hnodup

theorem WellFormed.length_sortedColumns (h : schema.WellFormed) :
    schema.sortedColumns.length = schema.columns.size := by
  rw [h.sortedColumns_perm.length_eq, List.length_map, List.length_zipIdx, Array.length_toList]

theorem WellFormed.length_sortedIndexes (h : schema.WellFormed) :
    schema.sortedIndexes.length = schema.indexes.size := by
  rw [h.sortedIndexes_perm.length_eq, List.length_map, List.length_zipIdx, Array.length_toList]

/-- What is sorted by distinct names has its names in order. -/
theorem sorted_pairwise {α : Type} {key : α → String} {xs : List α} (h : (xs.map key).Nodup) :
    (((Entries.ofList (xs.zipIdx.map fun x => (key x.1, (x.2, x.1)))).map Prod.snd).map
      fun place => key place.2).Pairwise (· < ·) := by
  have hsorted := Entries.ofList_pairwise (xs.zipIdx.map fun x => (key x.1, (x.2, x.1)))
  rw [List.map_map]
  refine (List.map_congr_left fun entry hentry => ?_) ▸ hsorted
  obtain ⟨x, -, rfl⟩ := List.mem_map.mp ((sorted_perm h).mem_iff.mp hentry)
  rfl

/-- The names of sorted columns are in order. -/
theorem WellFormed.sortedColumns_pairwise (h : schema.WellFormed) :
    (schema.sortedColumns.map fun place => place.2.name).Pairwise (· < ·) :=
  sorted_pairwise h.columns_nodup

/-- The names of sorted indexes are in order. -/
theorem WellFormed.sortedIndexes_pairwise (h : schema.WellFormed) :
    (schema.sortedIndexes.map fun place => place.2.name).Pairwise (· < ·) :=
  sorted_pairwise h.indexes_nodup

theorem WellFormed.nodup_sortedIndexes (h : schema.WellFormed) :
    (schema.sortedIndexes.map fun place => place.2.name).Nodup := by
  have hnodup := (h.map_sortedIndexes.map Index.name).nodup_iff.mpr h.indexes_nodup
  rwa [List.map_map] at hnodup

end Schema

namespace Snapshot

variable {config : Config} {table : Table}

/-! ## What fits -/

/-- A table whose counts, names and dictionaries fit the four bytes that they are stored in, and
    whose cells of any values do. The maps in these are in key order, as every map is. -/
structure Fits (table : Table) : Prop where
  chunks : table.chunks.size < 2 ^ 32
  columns : table.schema.columns.size < 2 ^ 32
  indexes : table.schema.indexes.size < 2 ^ 32
  columnName : ∀ column ∈ table.schema.columns, column.name.utf8ByteSize < 2 ^ 32
  indexName : ∀ index ∈ table.schema.indexes, index.name.utf8ByteSize < 2 ^ 32
  dictionary : ∀ d ∈ table.dictionaries, d.entries.size < 2 ^ 32 ∧ d.data.size < 2 ^ 32
  value : ∀ chunk ∈ table.chunks, ∀ slot offset v, chunk.cell? slot offset = some (.any v) →
    v.Canonical ∧ v.encode.length < 2 ^ 32

theorem Fits.dictionaryOf (h : Fits table) (slot : Nat) :
    (table.dictionary slot).entries.size < 2 ^ 32 ∧ (table.dictionary slot).data.size < 2 ^ 32 := by
  rw [Table.dictionary, Chunk.dictionaryOf]
  cases hd : table.dictionaries[slot]? with
  | none => exact ⟨Nat.two_pow_pos 32, Nat.two_pow_pos 32⟩
  | some d => exact h.dictionary d (Array.mem_of_getElem? hd)

/-- Every cell of a chunk fits its stored form. -/
theorem Fits.encodable (h : Fits table) (hwf : table.WellFormed config) {chunk : Chunk}
    (hchunk : chunk ∈ table.chunks) {slot offset : Nat} {cell : Cell}
    (hcell : chunk.cell? slot offset = some cell) : cell.Encodable := by
  obtain ⟨id, hid, rfl⟩ := Array.mem_iff_getElem.mp hchunk
  have hok := (hwf.chunk id _ (Array.getElem?_eq_getElem hid)).wellFormed
  cases cell with
  | enum text =>
    have hknown : text < (table.dictionary slot).size := hok.known slot offset _ hcell
    have := (h.dictionaryOf slot).1
    exact hknown.trans this
  | any v => exact h.value _ hchunk slot offset v hcell
  | _ => trivial

/-! ## Columns -/

/-- The segment of a column in a chunk; an empty one if the chunk does not have the column yet. -/
def segmentOf (chunk : Chunk) (slot : Nat) (kind : Kind) : Segment :=
  chunk.columns[slot]?.getD (.withCapacity kind 0)

theorem segmentOf_spec (h : table.WellFormed config) {chunk : Chunk} (hchunk : chunk ∈ table.chunks)
    {slot : Nat} {column : Column} (hcolumn : table.schema.columns[slot]? = some column) :
    ∃ capacity, (segmentOf chunk slot column.kind).WellFormed column.kind capacity ∧
      capacity ≤ config.chunkSize ∧
      ∀ offset, (segmentOf chunk slot column.kind).cell? offset = chunk.cell? slot offset := by
  obtain ⟨id, hid, rfl⟩ := Array.mem_iff_getElem.mp hchunk
  have hok := (h.chunk id _ (Array.getElem?_eq_getElem hid)).wellFormed
  unfold segmentOf Chunk.cell?
  cases hsegment : table.chunks[id].columns[slot]? with
  | none =>
    exact ⟨0, Segment.wellFormed_withCapacity column.kind 0, Nat.zero_le _,
      fun offset => Segment.cell?_withCapacity column.kind 0 offset⟩
  | some segment =>
    obtain ⟨found, hfound, hs⟩ := hok.column slot segment hsegment
    rw [hcolumn] at hfound
    cases hfound
    exact ⟨_, hs, hok.capacity_le, fun _ => rfl⟩

/-- What a column becomes when its stored form is read. -/
def storedColumn (table : Table) (place : Nat × Column) : StoredColumn where
  column := place.2
  dictionary := if place.2.kind = .enum then table.dictionary place.1 else .empty
  segments := table.chunks.toList.map fun chunk =>
    (segmentOf chunk place.1 place.2.kind).reread

theorem reads_dictionary (h : table.WellFormed config) (hfits : Fits table) (slot : Nat)
    (kind : Kind) :
    Reads (readDictionary kind) (if kind = .enum then (table.dictionary slot).encode else [])
      (if kind = .enum then table.dictionary slot else .empty) := by
  unfold readDictionary
  split_ifs with hkind
  · obtain ⟨hentries, hdata⟩ := hfits.dictionaryOf slot
    exact Dictionary.reads_encode (Column.wellFormed_dictionaryOf h.dictionary slot) hentries hdata
  · exact Reads.pure _

theorem reads_segment (h : table.WellFormed config) (hfits : Fits table) {slot : Nat}
    {column : Column} (hcolumn : table.schema.columns[slot]? = some column) {chunk : Chunk}
    (hchunk : chunk ∈ table.chunks) :
    Reads (readSegment column (if column.kind = .enum then table.dictionary slot else .empty)
        config.chunkSize) (segmentOf chunk slot column.kind).encode
      (segmentOf chunk slot column.kind).reread := by
  obtain ⟨capacity, hs, hle, hcell⟩ := segmentOf_spec h hchunk hcolumn
  obtain ⟨hreread, -, hview⟩ := hs.reread
  have hsize := (Config.chunkSize_of_usable h.usable).2
  have hcells : ∀ offset cell, (segmentOf chunk slot column.kind).cell? offset = some cell →
      cell.Encodable := by
    intro offset cell hfound
    rw [hcell] at hfound
    exact hfits.encodable h hchunk hfound
  refine (hs.reads_encode hle (by omega) hcells).bind_pure ?_
  refine Reads.require_bind ?_ _ (Reads.pure _)
  by_cases hkind : column.kind = .enum
  · rw [if_pos hkind, Bool.or_eq_true]
    refine Or.inr (List.all_eq_true.mpr fun offset hmem => ?_)
    obtain ⟨cell, -, hfound, hcellKind⟩ := hreread.get?_of_mem hmem
    rw [Segment.enumAt_eq, hfound]
    rw [hview, hcell] at hfound
    obtain ⟨id, hid, rfl⟩ := Array.mem_iff_getElem.mp hchunk
    have hknown := (h.chunk id _ (Array.getElem?_eq_getElem hid)).wellFormed.known slot offset cell
      hfound
    rw [hkind] at hcellKind
    cases cell with
    | enum text => exact decide_eq_true hknown
    | _ => cases hcellKind
  · rw [Bool.or_eq_true, bne_iff_ne]
    exact Or.inl hkind

/-- A column is read back. -/
theorem reads_column (h : table.WellFormed config) (hfits : Fits table) {slot : Nat}
    {column : Column} (hcolumn : table.schema.columns[slot]? = some column) :
    Reads (readColumn config.chunkSize table.chunks.size) (encodeColumn table slot column)
      (storedColumn table (slot, column)) := by
  have hname := hfits.columnName column (Array.mem_of_getElem? hcolumn)
  unfold readColumn encodeColumn
  rw [List.append_assoc, List.append_assoc]
  refine (Reads.string hname _).bind ?_
  refine (Reads.nat (show column.kind.code < 256 ^ 1 by cases column.kind <;> decide) _).bind ?_
  simp only [Kind.ofCode?_code]
  refine (reads_dictionary h hfits slot column.kind).bind ?_
  rw [← Array.length_toList]
  refine (Reads.replicate fun chunk hmem => ?_).bind_pure (Reads.pure _)
  exact reads_segment h hfits hcolumn (Array.mem_toList_iff.mp hmem)

/-- Columns with new names are read back one after the other. -/
theorem reads_columns (h : table.WellFormed config) (hfits : Fits table)
    {places : List (Nat × Column)}
    (hplaces : ∀ place ∈ places, table.schema.columns[place.1]? = some place.2) {schema : Schema}
    (hindexes : schema.indexes = #[])
    (hnames : (schema.columns.toList.map Column.name ++
      places.map fun place => place.2.name).Nodup) :
    Reads (readColumns config.chunkSize table.chunks.size places.length schema)
      (places.flatMap fun place => encodeColumn table place.1 place.2)
      ({ schema with columns := schema.columns ++ (places.map Prod.snd).toArray },
        places.map (storedColumn table)) := by
  induction places generalizing schema with
  | nil =>
    have hsame : ({ schema with columns := schema.columns ++ #[] } : Schema) = schema := by
      rw [Array.append_empty]
    rw [List.map_nil, List.map_nil, List.flatMap_nil, hsame]
    exact Reads.pure _
  | cons place rest ih =>
    obtain ⟨slot, column⟩ := place
    have hcolumn := hplaces (slot, column) List.mem_cons_self
    rw [List.map_cons, List.nodup_append] at hnames
    have hfree : schema.isTaken column.name = false := by
      rw [Schema.isTaken_eq_false_iff, hindexes]
      refine ⟨fun hmem => ?_, by simp⟩
      exact hnames.2.2 column.name hmem column.name List.mem_cons_self rfl
    have hindexes' : ({ schema with columns := schema.columns.push column } : Schema).indexes =
        #[] := hindexes
    have hnames' : ((schema.columns.push column).toList.map Column.name ++
        rest.map fun place => place.2.name).Nodup := by
      rw [Array.toList_push, List.map_append, List.append_assoc, List.nodup_append]
      exact hnames
    have hrest := ih (fun place hmem => hplaces place (List.mem_cons_of_mem _ hmem)) hindexes'
      hnames'
    rw [List.flatMap_cons, List.length_cons]
    refine (reads_column h hfits hcolumn).bind ?_
    have hadd : schema.addColumn (storedColumn table (slot, column)).column =
        .ok { schema with columns := schema.columns.push column } :=
      Schema.addColumn_of_free hfree
    simp only [hadd]
    refine hrest.bind_pure ?_
    have hcolumns : schema.columns.push column ++ (rest.map Prod.snd).toArray =
        schema.columns ++ (column :: rest.map Prod.snd).toArray := by
      simp
    rw [List.map_cons, List.map_cons, ← hcolumns]
    exact Reads.pure _

/-! ## Indexes -/

/-- What an index becomes when its stored form is read. -/
def storedIndex (registered schema : Schema) (table : Table) (place : Nat × Index) :
    StoredIndex where
  index :=
    { name := place.2.name
      source := place.2.source
      sourceSlot := ((schema.column? place.2.source).map Prod.fst).getD 0
      predicate := registered? registered place.2.name place.2.source }
  bitmaps := table.chunks.toList.map fun chunk => chunk.indexes[place.1]?.getD .empty

/-- The bitmap of an index in a chunk; an empty one if the chunk does not have the index yet. -/
theorem bitmapOf_spec (h : table.WellFormed config) {chunk : Chunk} (hchunk : chunk ∈ table.chunks)
    (slot : Nat) :
    (chunk.indexes[slot]?.getD .empty).words.size < 2 ^ 32 ∧
      (chunk.indexes[slot]?.getD .empty).capacity ≤ config.chunkSize ∧
      ∀ offset, (chunk.indexes[slot]?.getD .empty).contains offset = chunk.marks slot offset := by
  obtain ⟨id, hid, rfl⟩ := Array.mem_iff_getElem.mp hchunk
  have hok := (h.chunk id _ (Array.getElem?_eq_getElem hid)).wellFormed
  have hdvd := Config.dvd_chunkSize_of_usable h.usable
  have hmax := (Config.chunkSize_of_usable h.usable).2
  unfold Chunk.marks
  cases hbits : table.chunks[id].indexes[slot]? with
  | none => exact ⟨Nat.two_pow_pos 32, Nat.zero_le _, fun offset => Bitmap.contains_empty offset⟩
  | some bits =>
    have hle := (hok.index slot bits hbits).capacity_le hok.capacity_le hdvd
    refine ⟨?_, hle, fun _ => rfl⟩
    rw [Bitmap.capacity] at hle
    show bits.words.size < 2 ^ 32
    omega

/-- An index is read back. -/
theorem reads_index (h : table.WellFormed config) (hfits : Fits table) {slot : Nat} {index : Index}
    (hindex : table.schema.indexes[slot]? = some index) (registered : Schema) {schema : Schema}
    (hsource : (schema.column? index.source).isSome) :
    Reads (readIndex registered schema config.chunkSize table.chunks.size)
      (encodeIndex table slot index) (storedIndex registered schema table (slot, index)) := by
  have hmem := Array.mem_of_getElem? hindex
  have hname := hfits.indexName index hmem
  have hsourceName : index.source.utf8ByteSize < 2 ^ 32 := by
    obtain ⟨column, hcolumn, hsame⟩ := h.schema.source index hmem
    rw [← hsame]
    exact hfits.columnName column (Array.mem_of_getElem? hcolumn)
  obtain ⟨⟨sourceSlot, column⟩, hcolumn⟩ := Option.isSome_iff_exists.mp hsource
  unfold readIndex encodeIndex
  rw [List.append_assoc]
  refine (Reads.string hname _).bind ((Reads.string hsourceName _).bind ?_)
  rw [storedIndex, hcolumn]
  simp only [Option.map_some, Option.getD_some]
  rw [← Array.length_toList]
  refine (Reads.replicate fun chunk hchunk => ?_).bind_pure (Reads.pure _)
  obtain ⟨hwords, hcapacity, -⟩ := bitmapOf_spec h (Array.mem_toList_iff.mp hchunk) slot
  refine (Bitmap.reads_encode hwords).bind_pure ?_
  exact Reads.require_bind (decide_eq_true hcapacity) _ (Reads.pure _)

/-- Indexes with new names are read back one after the other. -/
theorem reads_indexes (h : table.WellFormed config) (hfits : Fits table) (registered : Schema)
    {places : List (Nat × Index)}
    (hplaces : ∀ place ∈ places, table.schema.indexes[place.1]? = some place.2) {schema : Schema}
    (hsource : ∀ place ∈ places, (schema.column? place.2.source).isSome)
    (hcolumns : ∀ place ∈ places, place.2.name ∉ schema.columns.toList.map Column.name)
    (hnames : (schema.indexes.toList.map Index.name ++
      places.map fun place => place.2.name).Nodup) :
    Reads (readIndexes registered config.chunkSize table.chunks.size places.length schema)
      (places.flatMap fun place => encodeIndex table place.1 place.2)
      ({ schema with
          indexes := schema.indexes ++
            (places.map fun place => (storedIndex registered schema table place).index).toArray },
        places.map (storedIndex registered schema table)) := by
  induction places generalizing schema with
  | nil =>
    have hsame : ({ schema with indexes := schema.indexes ++ #[] } : Schema) = schema := by
      rw [Array.append_empty]
    rw [List.map_nil, List.map_nil, List.flatMap_nil, hsame]
    exact Reads.pure _
  | cons place rest ih =>
    obtain ⟨slot, index⟩ := place
    have hindex := hplaces (slot, index) List.mem_cons_self
    rw [List.map_cons, List.nodup_append] at hnames
    have hfree : schema.isTaken index.name = false := by
      rw [Schema.isTaken_eq_false_iff]
      refine ⟨hcolumns (slot, index) List.mem_cons_self, fun hmem => ?_⟩
      exact hnames.2.2 index.name hmem index.name List.mem_cons_self rfl
    generalize hstored : storedIndex registered schema table (slot, index) = stored
    have hstoredName : stored.index.name = index.name := by
      rw [← hstored]
      rfl
    -- the columns, and with them the source slots, stay as they are
    have hsame : ∀ name, ({ schema with indexes := schema.indexes.push stored.index } :
        Schema).column? name = schema.column? name := fun _ => rfl
    have hnames' : ((schema.indexes.push stored.index).toList.map Index.name ++
        rest.map fun place => place.2.name).Nodup := by
      rw [Array.toList_push, List.map_append, List.append_assoc, List.map_singleton, hstoredName,
        List.nodup_append]
      exact hnames
    have hsource' : ∀ place ∈ rest,
        (({ schema with indexes := schema.indexes.push stored.index } : Schema).column?
          place.2.source).isSome :=
      fun place hmem => hsource place (List.mem_cons_of_mem _ hmem)
    have hrest := ih (fun place hmem => hplaces place (List.mem_cons_of_mem _ hmem)) hsource'
      (fun place hmem => hcolumns place (List.mem_cons_of_mem _ hmem)) hnames'
    have hread := reads_index h hfits hindex registered (hsource _ List.mem_cons_self)
    rw [hstored] at hread
    rw [List.flatMap_cons, List.length_cons]
    refine hread.bind ?_
    have hadd : schema.addIndex stored.index =
        .ok { schema with indexes := schema.indexes.push stored.index } :=
      Schema.addIndex_of_free (by rw [hstoredName, hfree])
    simp only [hadd]
    refine hrest.bind_pure ?_
    rw [List.map_cons, List.map_cons, hstored]
    have hindexes : schema.indexes.push stored.index ++
        (rest.map fun place => (storedIndex registered schema table place).index).toArray =
        schema.indexes ++ (stored.index ::
          rest.map fun place => (storedIndex registered schema table place).index).toArray := by
      simp
    rw [← hindexes]
    exact Reads.pure _

/-! ## Live rows -/

theorem reads_fills {chunkSize watermark : Nat} {fills : List Bitmap} {id : Nat}
    (h : ∀ (i : Nat) fill, fills[i]? = some fill → fill.words.size < 2 ^ 32 ∧
      fill.capacity ≤ chunkSize ∧
      ∀ offset, fill.contains offset = true → (id + i) * chunkSize + offset < watermark) :
    Reads (readFills chunkSize watermark fills.length id) (fills.flatMap Bitmap.encode) fills := by
  induction fills generalizing id with
  | nil => exact Reads.pure _
  | cons fill rest ih =>
    obtain ⟨hwords, hcapacity, hbelow⟩ := h 0 fill rfl
    have hall : (fill.toList.all fun offset => id * chunkSize + offset < watermark) = true := by
      rw [List.all_eq_true]
      intro offset hmem
      exact decide_eq_true (hbelow offset (Bitmap.mem_toList.mp hmem))
    have hfill : Reads (readFill chunkSize watermark id) fill.encode fill := by
      refine (Bitmap.reads_encode hwords).bind_pure ?_
      refine Reads.require_bind (decide_eq_true hcapacity) _ ?_
      exact Reads.require_bind hall _ (Reads.pure _)
    have hrest : Reads (readFills chunkSize watermark rest.length (id + 1))
        (rest.flatMap Bitmap.encode) rest := by
      refine ih fun i found hfound => ?_
      rw [show id + 1 + i = id + (i + 1) by omega]
      exact h (i + 1) found hfound
    rw [List.flatMap_cons, List.length_cons]
    exact hfill.bind (hrest.bind_pure (Reads.pure _))

/-! ## Whole snapshots -/

/-- The columns of a table when its snapshot is read, in the order of their names. -/
def restoredColumns (table : Table) : List StoredColumn :=
  table.schema.sortedColumns.map (storedColumn table)

/-- The schema of the columns alone. -/
def columnSchema (table : Table) : Schema :=
  ⟨(table.schema.sortedColumns.map Prod.snd).toArray, #[]⟩

/-- The indexes of a table when its snapshot is read, in the order of their names. -/
def restoredIndexes (registered : Schema) (table : Table) : List StoredIndex :=
  table.schema.sortedIndexes.map (storedIndex registered (columnSchema table) table)

/-- The schema of a table when its snapshot is read. -/
def restoredSchema (registered : Schema) (table : Table) : Schema :=
  { columnSchema table with
    indexes := ((restoredIndexes registered table).map StoredIndex.index).toArray }

/-- The bitmaps of live rows. -/
def restoredFills (table : Table) : List Bitmap := table.chunks.toList.map Chunk.fill

/-- The table that the snapshot of a table holds, for a collection that has registered indexes. -/
def restored (chunkSize : Nat) (registered : Schema) (table : Table) : Table :=
  revalidate (tableOf chunkSize table.nextRow (restoredSchema registered table)
    (restoredColumns table) (restoredIndexes registered table) (restoredFills table))

theorem columnSchema_column?_isSome (h : table.WellFormed config) {name : String}
    (hname : name ∈ table.schema.columns.toList.map Column.name) :
    ((columnSchema table).column? name).isSome := by
  rw [← Option.not_isNone, Bool.not_eq_true', ← Bool.not_eq_true, Option.isNone_iff_eq_none,
    Schema.column?_eq_none_iff, not_not, columnSchema]
  exact ((h.schema.map_sortedColumns.map Column.name).mem_iff).mpr hname

theorem fills_spec (h : table.WellFormed config) (i : Nat) (fill : Bitmap)
    (hfill : (restoredFills table)[i]? = some fill) :
    fill.words.size < 2 ^ 32 ∧ fill.capacity ≤ config.chunkSize ∧
      ∀ offset, fill.contains offset = true → i * config.chunkSize + offset < table.nextRow := by
  rw [restoredFills, List.getElem?_map, Array.getElem?_toList] at hfill
  obtain ⟨chunk, hchunk, rfl⟩ := Option.map_eq_some_iff.mp hfill
  have hok := h.chunk i chunk hchunk
  have hle := hok.wellFormed.fill.capacity_le hok.wellFormed.capacity_le
    (Config.dvd_chunkSize_of_usable h.usable)
  have hmax := (Config.chunkSize_of_usable h.usable).2
  refine ⟨?_, hle, hok.lt_nextRow⟩
  rw [Bitmap.capacity] at hle
  omega

theorem length_restoredFills (table : Table) :
    (restoredFills table).length = table.chunks.size := by
  rw [restoredFills, List.length_map, Array.length_toList]

/-- All columns of a table are read back. -/
theorem reads_sortedColumns (h : table.WellFormed config) (hfits : Fits table) :
    Reads (readColumns config.chunkSize table.chunks.size table.schema.columns.size .empty)
      (table.schema.sortedColumns.flatMap fun place => encodeColumn table place.1 place.2)
      (columnSchema table, restoredColumns table) := by
  have hschema : (columnSchema table, restoredColumns table) =
      ({ Schema.empty with columns := Schema.empty.columns ++
          (table.schema.sortedColumns.map Prod.snd).toArray }, restoredColumns table) := by
    simp [columnSchema, Schema.empty]
  rw [← h.schema.length_sortedColumns, hschema]
  exact reads_columns h hfits (fun place hmem => h.schema.mem_sortedColumns.mp hmem) rfl
    h.schema.nodup_sortedColumns

/-- All indexes of a table are read back. -/
theorem reads_sortedIndexes (h : table.WellFormed config) (hfits : Fits table)
    (registered : Schema) :
    Reads (readIndexes registered config.chunkSize table.chunks.size table.schema.indexes.size
        (columnSchema table))
      (table.schema.sortedIndexes.flatMap fun place => encodeIndex table place.1 place.2)
      (restoredSchema registered table, restoredIndexes registered table) := by
  have hschema : restoredSchema registered table =
      { columnSchema table with indexes := (columnSchema table).indexes ++
          (table.schema.sortedIndexes.map fun place =>
            (storedIndex registered (columnSchema table) table place).index).toArray } := by
    simp [restoredSchema, restoredIndexes, columnSchema, Function.comp_def]
  have hindex : ∀ place ∈ table.schema.sortedIndexes, place.2 ∈ table.schema.indexes :=
    fun place hmem => Array.mem_of_getElem? (h.schema.mem_sortedIndexes.mp hmem)
  rw [← h.schema.length_sortedIndexes, hschema]
  refine reads_indexes h hfits registered (fun place hmem => h.schema.mem_sortedIndexes.mp hmem)
    (fun place hmem => ?_) (fun place hmem hname => ?_) h.schema.nodup_sortedIndexes
  · obtain ⟨column, hcolumn, hsource⟩ := h.schema.source place.2 (hindex place hmem)
    apply columnSchema_column?_isSome h
    exact List.mem_map.mpr ⟨column, Array.mem_toList_iff.mpr (Array.mem_of_getElem? hcolumn),
      hsource⟩
  · have hname' : place.2.name ∈ table.schema.columns.toList.map Column.name :=
      ((h.schema.map_sortedColumns.map Column.name).mem_iff).mp hname
    exact h.schema.disjoint _ hname'
      (List.mem_map.mpr ⟨place.2, Array.mem_toList_iff.mpr (hindex place hmem), rfl⟩)

/-- All bitmaps of live rows are read back. -/
theorem reads_restoredFills (h : table.WellFormed config) :
    Reads (readFills config.chunkSize table.nextRow table.chunks.size 0)
      ((restoredFills table).flatMap Bitmap.encode) (restoredFills table) := by
  rw [← length_restoredFills table]
  refine reads_fills fun i fill hfill => ?_
  rw [Nat.zero_add]
  exact fills_spec h i fill hfill

theorem nextRow_lt (h : table.WellFormed config) (hfits : Fits table) :
    table.nextRow < 2 ^ 64 := by
  have hmax := (Config.chunkSize_of_usable h.usable).2
  have hproduct : table.chunks.size * config.chunkSize ≤ 2 ^ 32 * 2 ^ 31 :=
    Nat.mul_le_mul (Nat.le_of_lt hfits.chunks) hmax
  have := h.nextRow_le
  omega

theorem liveRows_le (h : table.WellFormed config) : liveRows table ≤ table.nextRow := by
  have hcount : liveRows table = (table.liveRows config).length :=
    h.live_eq.symm.trans h.live_eq_length
  rw [hcount, Table.liveRows]
  exact (List.length_filter_le ..).trans (Nat.le_of_eq List.length_range)

theorem four_le_length_fill (fill : Bitmap) : 4 ≤ fill.encode.length := by
  rw [Bitmap.encode, List.length_append, Bytes.length_ofNat]
  exact Nat.le_add_right 4 _

/-- Reading the snapshot of a table gives the table back, put together anew. -/
theorem decode_encode (h : table.WellFormed config) (hfits : Fits table) (registered : Schema) :
    decode config.chunkSize registered (encode config.chunkSize table) =
      .ok (restored config.chunkSize registered table) := by
  have hmax := (Config.chunkSize_of_usable h.usable).2
  have hnext := nextRow_lt h hfits
  have hlive := liveRows_le h
  have hchunks := hfits.chunks
  have hcolumns := hfits.columns
  have hindexes := hfits.indexes
  have hwatermark : min table.nextRow (table.chunks.size * config.chunkSize) = table.nextRow :=
    Nat.min_eq_left h.nextRow_le
  have hfillBytes : table.chunks.toList.flatMap (fun chunk => chunk.fill.encode) =
      (restoredFills table).flatMap Bitmap.encode ++ [] := by
    rw [restoredFills, List.flatMap_map, List.append_nil]
  have hcounted : ((restoredFills table).map Bitmap.count).sum = liveRows table := by
    rw [restoredFills, List.map_map]
    rfl
  have hroom : (restoredFills table).length * 4 ≤
      ((restoredFills table).flatMap Bitmap.encode).length :=
    Bytes.le_length_flatMap fun fill _ => four_le_length_fill fill
  rw [length_restoredFills] at hroom
  have hmagic : Reads (Reader.take 4 "magic") magic magic :=
    Reads.take (show magic.length = 4 from rfl) "magic"
  unfold decode encode read
  simp only [List.append_assoc]
  rw [hwatermark, hfillBytes]
  rw [hmagic.bind_apply, Reader.require_bind_apply (decide_eq_true rfl),
    (Reads.nat (by decide) "version").bind_apply, Reader.require_bind_apply (decide_eq_true rfl),
    (Reads.nat (by omega) "chunk size").bind_apply,
    Reader.require_bind_apply (decide_eq_true rfl),
    (Reads.nat (by omega) "chunk count").bind_apply,
    Reader.requireLeft_bind_apply (by simp only [List.length_append]; omega),
    (Reads.nat (by omega) "column count").bind_apply, (reads_sortedColumns h hfits).bind_apply,
    (Reads.nat (by omega) "index count").bind_apply,
    (reads_sortedIndexes h hfits registered).bind_apply,
    (Reads.nat (by omega) "row watermark").bind_apply,
    (Reads.nat (by omega) "live count").bind_apply,
    Reader.require_bind_apply (decide_eq_true h.nextRow_le), (reads_restoredFills h).bind_apply]
  have hlast : decide (((restoredFills table).map Bitmap.count).foldr (· + ·) 0 =
      liveRows table) = true := decide_eq_true hcounted
  rw [Reader.require_bind_apply hlast, restored, tableOf, hcounted]
  rfl

end Snapshot

end ColumnStore
