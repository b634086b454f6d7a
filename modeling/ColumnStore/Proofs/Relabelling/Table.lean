import ColumnStore.Proofs.Relabelling.Chunk
import ColumnStore.Proofs.Snapshot.Encode
import ColumnStore.Proofs.Table.Define

/-!
# Tables up to the order of their slots

Two tables that keep the same contents in other slots (`Table.Relabelled`) stay so under every
operation on a table, and give the same answers. A row read as a whole lists its fields in the order
of the columns, so the two readings are permutations of one another (`Relabelled.fetch_perm`); a
snapshot is sorted by name, and the two snapshots are equal (`Relabelled.encode`).
-/

namespace ColumnStore

namespace Table

/-- Two tables with the same contents in other slots. -/
structure Relabelled (r : Relabelling) (table table' : Table) : Prop where
  schema : Schema.Relabelled r table.schema table'.schema
  dictionaries : Moved r.column table.dictionaries table'.dictionaries
  chunks : Matched (Chunk.Relabelled r) table.chunks table'.chunks
  nextRow : table'.nextRow = table.nextRow
  live : table'.live = table.live

theorem Relabelled.refl {table : Table} (h : table.schema.WellFormed) :
    Relabelled .refl table table :=
  ⟨.refl h, .refl _, .refl .refl _, rfl, rfl⟩

variable {r : Relabelling} {config : Config} {schema schema' : Schema} {table table' : Table}

theorem Relabelled.dictionary (h : Relabelled r table table') (slot : ℕ) :
    table'.dictionary (r.column slot) = table.dictionary slot :=
  Chunk.dictionaryOf_moved h.dictionaries slot

/-! ## Columns and indexes -/

theorem Relabelled.createColumn (h : Relabelled r table table') (name : String) (kind : Kind) :
    Alike (Relabelled r) (Table.createColumn name kind table)
      (Table.createColumn name kind table') := by
  have htaken := h.schema.isTaken name
  cases hfree : table.schema.isTaken name with
  | true =>
    rw [createColumn_of_taken hfree, createColumn_of_taken (htaken.trans hfree)]
    exact ⟨rfl, h⟩
  | false =>
    rw [createColumn_of_free hfree, createColumn_of_free (htaken.trans hfree)]
    refine ⟨rfl, ?_, h.dictionaries.push _, h.chunks, h.nextRow, h.live⟩
    exact ⟨h.schema.wellFormed.addColumn hfree, h.schema.wellFormed'.addColumn (htaken.trans hfree),
      h.schema.columns.push _, h.schema.indexes⟩

/-- Replacing an element and changing all of them. -/
theorem map_modify_const {α β : Type} (f : α → β) (xs : Array α) (i : ℕ) (x : α) :
    (xs.modify i fun _ => x).map f = (xs.map f).modify i fun _ => f x := by
  refine Array.ext_getElem? fun j => ?_
  rw [Array.getElem?_map, Array.getElem?_modify, Array.getElem?_modify, Array.getElem?_map]
  split_ifs
  · rw [Option.map_map, Option.map_map]
    rfl
  · rfl

/-- Registering an index fails for the same reason, or gives corresponding slots. -/
theorem registerIndex_relabelled (h : Schema.Relabelled r schema schema') (name source : String)
    (predicate : Value → Bool) :
    (∃ e, registerIndex schema name source predicate = .error e ∧
      registerIndex schema' name source predicate = .error e) ∨
    ∃ next next' slot index,
      registerIndex schema name source predicate = .ok (next, slot, index) ∧
      registerIndex schema' name source predicate = .ok (next', r.index slot, r.moveSource index) ∧
      Moved r.column next.columns next'.columns ∧
      Moved r.index (next.indexes.map r.moveSource) next'.indexes := by
  unfold registerIndex
  rw [h.column?, h.lookup]
  cases schema.column? source with
  | none => exact Or.inl ⟨_, rfl, rfl⟩
  | some found =>
    obtain ⟨sourceSlot, column⟩ := found
    simp only [Option.map_some, Relabelling.columnAt]
    cases hlookup : schema.lookup name with
    | none =>
      -- the name is free
      have hfree : schema.isTaken name = false := by
        rw [Schema.isTaken, hlookup]
        rfl
      let index : Index := ⟨name, source, sourceSlot, some predicate⟩
      have hadd : schema.addIndex index = .ok _ := Schema.addIndex_of_free hfree
      have hadd' : schema'.addIndex (r.moveSource index) = .ok _ :=
        Schema.addIndex_of_free ((h.isTaken name).trans hfree)
      have hsize : schema'.indexes.size = r.index schema.indexes.size := by
        rw [h.indexes_size, h.indexes.fixed _ (Array.size_map ..).le]
      refine Or.inr ⟨_, { schema' with indexes := schema'.indexes.push (r.moveSource index) },
        schema.indexes.size, index, congrArg (Except.map _) hadd,
        (congrArg (Except.map _) hadd').trans ?_, h.columns, ?_⟩
      · rw [← hsize]
        rfl
      · show Moved r.index ((schema.indexes.push index).map r.moveSource)
          (schema'.indexes.push (r.moveSource index))
        rw [Array.map_push]
        exact h.indexes.push _
    | some slot =>
      cases slot with
      | column slot => exact Or.inl ⟨_, rfl, rfl⟩
      | index slot =>
        simp only [Option.map_some, Relabelling.slot, h.index_getElem?]
        cases schema.indexes[slot]? with
        | none => exact Or.inl ⟨_, rfl, rfl⟩
        | some index =>
          simp only [Option.map_some]
          by_cases hguard : index.isAttached || index.source != source
          · exact Or.inl ⟨.duplicateName name, if_pos hguard, if_pos hguard⟩
          · refine Or.inr ⟨_, _, slot, index.attach predicate, if_neg hguard, if_neg hguard,
              h.columns, ?_⟩
            show Moved r.index ((schema.indexes.modify slot fun _ => index.attach predicate).map
              r.moveSource) (schema'.indexes.modify (r.index slot) fun _ => _)
            rw [map_modify_const]
            exact h.indexes.modify slot _

theorem Relabelled.createIndex (h : Relabelled r table table') (name source : String)
    (predicate : Value → Bool) :
    Alike (Relabelled r) (Table.createIndex name source predicate table)
      (Table.createIndex name source predicate table') := by
  rcases registerIndex_relabelled h.schema name source predicate with
    ⟨e, hreg, hreg'⟩ | ⟨next, next', slot, index, hreg, hreg', hcolumns, hindexes⟩
  · rw [createIndex_of_error hreg, createIndex_of_error hreg']
    exact ⟨rfl, h⟩
  · have hnext : Schema.Relabelled r next next' :=
      ⟨(registers_of_ok h.schema.wellFormed hreg).wellFormed,
        (registers_of_ok h.schema.wellFormed' hreg').wellFormed, hcolumns, hindexes⟩
    have hdictionary : table'.dictionary (r.moveSource index).sourceSlot =
        table.dictionary index.sourceSlot := h.dictionary index.sourceSlot
    have hanswers : table'.indexTable (r.moveSource index) = table.indexTable index := by
      rw [indexTable, hdictionary, indexTable]
      exact congrArg (Option.bind · _) (h.schema.column_getElem? index.sourceSlot)
    rw [createIndex_of_ok hreg, createIndex_of_ok hreg']
    refine ⟨rfl, hnext, h.dictionaries, h.chunks.map fun chunk chunk' hchunk => ?_, h.nextRow,
      h.live⟩
    rw [hdictionary, hanswers]
    exact (hchunk.sync hnext).rebuildIndex slot index _ _

/-! ## Rows -/

theorem fields_relabelled (h : Schema.Relabelled r schema schema') (record : Record) :
    fields schema' record = (fields schema record).map r.columnAt := by
  rw [fields, fields, List.map_filterMap]
  refine List.filterMap_congr fun field _ => ?_
  simp only [h.column?, Option.map_map]
  rfl

theorem checkFields_columnAt (fields : List (ℕ × Column × Value)) :
    checkFields (fields.map r.columnAt) = checkFields fields := by
  induction fields with
  | nil => rfl
  | cons field rest ih =>
    rw [List.map_cons, checkFields, ih]
    rfl

/-- Storing a value in corresponding columns. -/
theorem encodeAt_moved {dictionaries dictionaries' : Array Dictionary}
    (h : Moved r.column dictionaries dictionaries') (column : Column) (slot : ℕ) (value : Value) :
    Alike (Moved r.column) (column.encodeAt dictionaries slot value)
      (column.encodeAt dictionaries' (r.column slot) value) := by
  obtain ⟨cell, next, next', heq, heq', hnext⟩ :=
    (h.updateAt .empty slot fun dictionary => column.encode dictionary value).exists_eq
  simp only [Column.encodeAt, heq, heq']
  cases cell with
  | none => exact ⟨rfl, hnext⟩
  | some cell => exact ⟨rfl, hnext⟩

/-- Corresponding fields are stored in the same cells, in corresponding slots. -/
theorem encodeFields_moved {dictionaries dictionaries' : Array Dictionary}
    (h : Moved r.column dictionaries dictionaries') (fields : List (ℕ × Column × Value)) :
    ∃ cells next next', encodeFields dictionaries fields = (cells, next) ∧
      encodeFields dictionaries' (fields.map r.columnAt) =
        (cells.map (List.map r.columnAt), next') ∧ Moved r.column next next' := by
  induction fields generalizing dictionaries dictionaries' with
  | nil => exact ⟨_, _, _, rfl, rfl, h⟩
  | cons field rest ih =>
    obtain ⟨slot, column, value⟩ := field
    obtain ⟨cell, mid, mid', heq, heq', hmid⟩ := (encodeAt_moved h column slot value).exists_eq
    obtain ⟨cells, next, next', hrest, hrest', hnext⟩ := ih hmid
    simp only [List.map_cons, Relabelling.columnAt, encodeFields, heq, heq']
    cases cell with
    | error e => exact ⟨_, _, _, rfl, rfl, hmid⟩
    | ok cell =>
      simp only [hrest, hrest']
      cases cells with
      | error e => exact ⟨_, _, _, rfl, rfl, hnext⟩
      | ok cells =>
        refine ⟨_, _, _, rfl, ?_, hnext⟩
        cases cell <;> rfl

/-- Chunks are allocated on corresponding schemas. -/
theorem allocate_relabelled (hs : Schema.Relabelled r schema schema') {chunks chunks' : Array Chunk}
    (h : Matched (Chunk.Relabelled r) chunks chunks') (config : Config) (id : ℕ) :
    Matched (Chunk.Relabelled r) (allocate config schema chunks id)
      (allocate config schema' chunks' id) := by
  unfold allocate
  rw [h.size_eq]
  generalize List.range' chunks.size (id + 1 - chunks.size) = places
  induction places generalizing chunks chunks' with
  | nil => exact h
  | cons next rest ih => exact ih (h.push (Chunk.relabelled_new hs _ _))

theorem Relabelled.insert (h : Relabelled r table table') (config : Config) (record : Record) :
    Alike (Relabelled r) (Table.insert config record table)
      (Table.insert config record table') := by
  unfold Table.insert
  simp only [fields_relabelled h.schema, checkFields_columnAt]
  cases checkFields (fields table.schema record) with
  | error e => exact ⟨rfl, h⟩
  | ok _ =>
    obtain ⟨cells, next, next', hencode, hencode', hnext⟩ :=
      encodeFields_moved h.dictionaries (fields table.schema record)
    simp only [hencode, hencode']
    cases cells with
    | error e => exact ⟨rfl, { h with dictionaries := hnext }⟩
    | ok cells =>
      obtain ⟨written, chunks, chunks', hwrite, hwrite', hchunks⟩ :=
        ((allocate_relabelled h.schema h.chunks config (table.nextRow / config.chunkSize)).updateAt
          noChunk (table.nextRow / config.chunkSize) fun chunk chunk' hchunk =>
            hchunk.insert h.schema hnext (table.nextRow % config.chunkSize) cells).exists_eq
      simp only [Except.map, h.nextRow, h.live, hwrite, hwrite']
      match written with
      | none => exact ⟨rfl, h.schema, hnext, hchunks, rfl, rfl⟩
      | some (.error e) => exact ⟨rfl, h.schema, hnext, hchunks, rfl, rfl⟩
      | some (.ok _) => exact ⟨rfl, h.schema, hnext, hchunks, rfl, rfl⟩

theorem Relabelled.checkRow (h : Relabelled r table table') (config : Config) (row : ℕ) :
    table'.checkRow config row = table.checkRow config row := by
  rw [Table.checkRow, h.nextRow, h.chunks.size_eq, Table.checkRow]

theorem Relabelled.deleteAt (h : Relabelled r table table') (config : Config) (row : ℕ) :
    Alike (Relabelled r) (Table.deleteAt config row table)
      (Table.deleteAt config row table') := by
  unfold Table.deleteAt
  rw [h.checkRow]
  cases table.checkRow config row with
  | error e => exact ⟨rfl, h⟩
  | ok _ =>
    obtain ⟨deleted, chunks, chunks', hdelete, hdelete', hchunks⟩ :=
      (h.chunks.updateAt noChunk (row / config.chunkSize) fun chunk chunk' hchunk =>
        hchunk.delete (row % config.chunkSize)).exists_eq
    simp only [hdelete, hdelete', h.live]
    split_ifs
    · exact ⟨rfl, h.schema, h.dictionaries, hchunks, h.nextRow, rfl⟩
    · exact ⟨rfl, h.schema, h.dictionaries, hchunks, h.nextRow, rfl⟩

/-! ## Reading -/

theorem Relabelled.valueAt (h : Relabelled r table table') (config : Config) (column : String)
    (row : ℕ) : table'.valueAt config column row = table.valueAt config column row := by
  unfold Table.valueAt
  rw [h.schema.column?]
  cases table.schema.column? column with
  | none => rfl
  | some found =>
    simp only [Option.map_some, Relabelling.columnAt, h.checkRow]
    rcases h.chunks.getElem?_cases (row / config.chunkSize) with
      ⟨hnone, hnone'⟩ | ⟨chunk, chunk', hchunk, hchunk', hrel⟩
    · simp only [hnone, hnone']
    · simp only [hchunk, hchunk', hrel.value h.dictionaries]

/-- The fields of a row come in the order of the columns. -/
theorem Relabelled.fetch_perm (h : Relabelled r table table') (config : Config) (row : ℕ) :
    Option.Rel List.Perm (table.fetch config row) (table'.fetch config row) := by
  unfold Table.fetch
  rw [h.checkRow]
  rcases h.chunks.getElem?_cases (row / config.chunkSize) with
    ⟨hnone, hnone'⟩ | ⟨chunk, chunk', hchunk, hchunk', hrel⟩
  · rw [hnone, hnone']
    cases table.checkRow config row <;> exact .none
  · rw [hchunk, hchunk']
    cases table.checkRow config row with
    | error e => exact .none
    | ok _ =>
      simp only [hrel.fill]
      split_ifs
      · refine .some ?_
        have hperm := h.schema.columns.zipIdx_perm.filterMap fun place =>
          (chunk'.value table'.dictionaries place.2 (row % config.chunkSize)).toOption.join.map
            (place.1.name, ·)
        rw [List.filterMap_map] at hperm
        refine (hperm.trans (List.Perm.of_eq ?_)).symm
        refine List.filterMap_congr fun place _ => ?_
        show Option.map _ (chunk'.value table'.dictionaries (r.column place.2) _).toOption.join = _
        rw [hrel.value h.dictionaries]
      · exact .none

/-! ## Snapshots -/

/-- An order by name is the only one. -/
theorem eq_of_perm_of_pairwise {α : Type} (key : α → String) {xs ys : List α} (h : ys.Perm xs)
    (hys : (ys.map key).Pairwise (· < ·)) (hxs : (xs.map key).Pairwise (· < ·)) : ys = xs := by
  rw [List.pairwise_map] at hys hxs
  exact h.eq_of_pairwise (fun a b _ _ hlt hgt => absurd hgt (lt_asymm hlt)) hys hxs

theorem sortedColumns_relabelled (h : Schema.Relabelled r schema schema') :
    schema'.sortedColumns = schema.sortedColumns.map r.columnAt := by
  refine eq_of_perm_of_pairwise (fun place => place.2.name) ?_
    h.wellFormed'.sortedColumns_pairwise ?_
  · have hperm := h.columns.zipIdx_perm.map Prod.swap
    have hsorted := h.wellFormed.sortedColumns_perm.map r.columnAt
    rw [List.map_map] at hperm hsorted
    exact h.wellFormed'.sortedColumns_perm.trans (hperm.trans hsorted.symm)
  · rw [List.map_map]
    exact h.wellFormed.sortedColumns_pairwise

theorem sortedIndexes_relabelled (h : Schema.Relabelled r schema schema') :
    schema'.sortedIndexes = schema.sortedIndexes.map r.indexAt := by
  refine eq_of_perm_of_pairwise (fun place => place.2.name) ?_
    h.wellFormed'.sortedIndexes_pairwise ?_
  · have hperm := h.indexes.zipIdx_perm.map Prod.swap
    have hsorted := h.wellFormed.sortedIndexes_perm.map r.indexAt
    rw [Array.toList_map, List.zipIdx_map, List.map_map, List.map_map] at hperm
    rw [List.map_map] at hsorted
    exact h.wellFormed'.sortedIndexes_perm.trans (hperm.trans hsorted.symm)
  · rw [List.map_map]
    exact h.wellFormed.sortedIndexes_pairwise

/-- The snapshots are equal byte by byte. -/
theorem Relabelled.encode (h : Relabelled r table table') (chunkSize : ℕ) :
    Snapshot.encode chunkSize table' = Snapshot.encode chunkSize table := by
  have hflat {f g : Chunk → Bytes} (hfg : ∀ chunk chunk', Chunk.Relabelled r chunk chunk' →
      f chunk = g chunk') : table'.chunks.toList.flatMap g = table.chunks.toList.flatMap f := by
    rw [List.flatMap_def, h.chunks.map_eq hfg, List.flatMap_def]
  have hcolumns : (table'.schema.sortedColumns.flatMap fun place =>
      Snapshot.encodeColumn table' place.1 place.2) =
      table.schema.sortedColumns.flatMap fun place =>
        Snapshot.encodeColumn table place.1 place.2 := by
    rw [sortedColumns_relabelled h.schema, List.flatMap_map]
    refine List.flatMap_congr fun place _ => ?_
    show Snapshot.encodeColumn table' (r.column place.1) place.2 = _
    rw [Snapshot.encodeColumn, h.dictionary]
    refine congrArg _ (hflat fun chunk chunk' hchunk => ?_)
    rw [hchunk.columns.getElem?]
  have hindexes : (table'.schema.sortedIndexes.flatMap fun place =>
      Snapshot.encodeIndex table' place.1 place.2) =
      table.schema.sortedIndexes.flatMap fun place =>
        Snapshot.encodeIndex table place.1 place.2 := by
    rw [sortedIndexes_relabelled h.schema, List.flatMap_map]
    refine List.flatMap_congr fun place _ => ?_
    show Snapshot.encodeIndex table' (r.index place.1) (r.moveSource place.2) = _
    refine congrArg _ (hflat fun chunk chunk' hchunk => ?_)
    rw [hchunk.indexes.getElem?]
  have hlive : Snapshot.liveRows table' = Snapshot.liveRows table := by
    rw [Snapshot.liveRows, Snapshot.liveRows,
      h.chunks.map_eq fun chunk chunk' hchunk => (congrArg Bitmap.count hchunk.fill).symm]
  have hfills : (table'.chunks.toList.flatMap fun chunk => chunk.fill.encode) =
      table.chunks.toList.flatMap fun chunk => chunk.fill.encode :=
    hflat fun chunk chunk' hchunk => (congrArg Bitmap.encode hchunk.fill).symm
  rw [Snapshot.encode, Snapshot.encode, h.schema.columns_size, h.schema.indexes_size,
    h.chunks.size_eq, h.nextRow, hcolumns, hindexes, hlive, hfills]

end Table

end ColumnStore
