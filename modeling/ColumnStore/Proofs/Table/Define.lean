import ColumnStore.Proofs.Table

/-!
# Adding columns and indexes to a table

* `createColumn_of_taken`, `WellFormed.createColumn`: a column is added exactly if its name is free;
* `createIndex_of_error`, `WellFormed.createIndex`: an index that can be registered is computed in
  every chunk (`Registers` says what registering gives).

Neither changes what rows hold.
-/

namespace ColumnStore

namespace Table

variable {config : Config} {table : Table}

/-! ## Columns -/

theorem createColumn_of_taken {name : String} (h : table.schema.isTaken name = true) (kind : Kind) :
    createColumn name kind table = (.error (.duplicateName name), table) := by
  unfold createColumn Schema.addColumn
  simp only [h, if_true]

/-- The table with one more column. -/
def withColumn (table : Table) (column : Column) : Table :=
  { table with
    schema := { table.schema with columns := table.schema.columns.push column }
    dictionaries := table.dictionaries.push .empty }

theorem createColumn_of_free {name : String} (h : table.schema.isTaken name = false) (kind : Kind) :
    createColumn name kind table = (.ok (), table.withColumn ⟨name, kind⟩) := by
  have hadd : table.schema.addColumn ⟨name, kind⟩ =
      .ok { table.schema with columns := table.schema.columns.push ⟨name, kind⟩ } :=
    Schema.addColumn_of_free h
  unfold createColumn
  rw [hadd]
  rfl

/-- A new dictionary is empty, as the dictionary of a slot without a column is. -/
theorem dictionaryOf_push (dictionaries : Array Dictionary) (slot : Nat) :
    Chunk.dictionaryOf (dictionaries.push .empty) slot = Chunk.dictionaryOf dictionaries slot := by
  rw [Chunk.dictionaryOf, Chunk.dictionaryOf, Array.getElem?_push]
  split_ifs with h
  · rw [h, Array.getElem?_eq_none le_rfl]
    rfl
  · rfl

theorem indexed_withColumn {schema : Schema} {dictionaries : Array Dictionary} {chunk : Chunk}
    (h : chunk.Indexed schema dictionaries) (column : Column) :
    chunk.Indexed { schema with columns := schema.columns.push column }
      (dictionaries.push .empty) := by
  intro slot index predicate hindex hpredicate offset
  rw [dictionaryOf_push]
  exact h slot index predicate hindex hpredicate offset

theorem cellValue?_withColumn (table : Table) (column : Column) (slot row : Nat) :
    (table.withColumn column).cellValue? config slot row = table.cellValue? config slot row := by
  show (table.cell? config slot row).map
    (Column.decode (Chunk.dictionaryOf (table.dictionaries.push .empty) slot)) = _
  rw [dictionaryOf_push]
  rfl

theorem WellFormed.createColumn (h : table.WellFormed config) {column : Column}
    (hfree : table.schema.isTaken column.name = false) :
    (table.withColumn column).WellFormed config where
  usable := h.usable
  schema := h.schema.addColumn hfree
  dictionaries_size := by
    simp only [withColumn, Array.size_push, h.dictionaries_size]
  dictionary d hd := by
    rcases Array.mem_push.mp hd with hd | rfl
    · exact h.dictionary d hd
    · exact Dictionary.wellFormed_empty
  chunk id chunk hchunk := by
    have hok := h.chunk id chunk hchunk
    exact ⟨hok.wellFormed.addColumn column h.dictionaries_size,
      indexed_withColumn hok.indexed column, hok.lt_nextRow⟩
  nextRow_le := h.nextRow_le
  live_eq := h.live_eq

theorem advances_withColumn (table : Table) (column : Column) :
    Advances config table (table.withColumn column) where
  extends_ := Schema.extends_addColumn table.schema column
  chunks_size := le_rfl
  nextRow_le := le_rfl
  live _ hlive := Or.inl hlive
  vacant _ _ hv := ⟨hv.isLive, hv.cell?, hv.marks⟩

/-! ## Indexes -/

/-- What registering an index gives: a schema that has it, attached, in a slot of its own. -/
structure Registers (schema : Schema) (name source : String) (predicate : Value → Bool)
    (schema' : Schema) (slot : Nat) (index : Index) : Prop where
  wellFormed : schema'.WellFormed
  extends_ : schema.Extends schema'
  columns_eq : schema'.columns = schema.columns
  registered : schema'.indexes[slot]? = some index
  others : ∀ slot', slot' ≠ slot → schema'.indexes[slot']? = schema.indexes[slot']?
  name_eq : index.name = name
  source_eq : index.source = source
  predicate_eq : index.predicate = some predicate

/-- An index that is registered has a new name, or takes the place of a detached one of its name and
    source. -/
theorem registerIndex_cases {schema schema' : Schema} {name source : String}
    {predicate : Value → Bool} {slot : Nat} {index : Index}
    (hok : registerIndex schema name source predicate = .ok (schema', slot, index)) :
    (∃ sourceSlot column, schema.column? source = some (sourceSlot, column) ∧
      schema.isTaken name = false ∧ index = ⟨name, source, sourceSlot, some predicate⟩ ∧
      slot = schema.indexes.size ∧
      schema' = { schema with indexes := schema.indexes.push index }) ∨
    ∃ old, schema.indexes[slot]? = some old ∧ old.name = name ∧ old.source = source ∧
      old.predicate = none ∧ index = old.attach predicate ∧
      schema' = schema.replaceIndex slot index := by
  unfold registerIndex at hok
  cases hcolumn : schema.column? source with
  | none => simp [hcolumn] at hok
  | some found =>
    simp only [hcolumn] at hok
    cases hlookup : schema.lookup name with
    | none =>
      have hfree : schema.isTaken name = false := by
        rw [Schema.isTaken, hlookup]
        rfl
      simp only [hlookup, Schema.addIndex, hfree] at hok
      cases hok
      exact Or.inl ⟨_, _, rfl, hfree, rfl, rfl, rfl⟩
    | some found =>
      cases found with
      | column slot => simp [hlookup] at hok
      | index found =>
        obtain ⟨old, hold, hname⟩ := Schema.exists_of_lookup_index hlookup
        simp only [hlookup, hold] at hok
        split_ifs at hok with hguard
        cases hok
        rw [Bool.not_eq_true, Bool.or_eq_false_iff, Index.isAttached, Option.isSome_eq_false_iff,
          Option.isNone_iff_eq_none, bne_eq_false_iff_eq] at hguard
        exact Or.inr ⟨old, hold, hname, hguard.2, hguard.1, rfl, rfl⟩

theorem registers_of_ok {schema : Schema} (h : schema.WellFormed) {name source : String}
    {predicate : Value → Bool} {schema' : Schema} {slot : Nat} {index : Index}
    (hok : registerIndex schema name source predicate = .ok (schema', slot, index)) :
    Registers schema name source predicate schema' slot index := by
  rcases registerIndex_cases hok with ⟨sourceSlot, column, hcolumn, hfree, rfl, rfl, rfl⟩ |
    ⟨old, hold, hname, hsource, hdetached, rfl, rfl⟩
  · obtain ⟨hc, hname⟩ := Schema.exists_of_column? hcolumn
    refine ⟨h.addIndex hfree hc hname, Schema.extends_addIndex _ _, rfl, ?_, fun slot' hne => ?_,
      rfl, rfl, rfl⟩
    · simp
    · rw [Array.getElem?_push, if_neg hne]
  · refine ⟨h.replaceIndex hold rfl rfl rfl, Schema.extends_attach hold hdetached predicate, rfl,
      ?_, fun slot' hne => ?_, hname, hsource, rfl⟩
    · rw [Schema.replaceIndex, Array.getElem?_modify, if_pos rfl, hold]
      rfl
    · rw [Schema.replaceIndex, Array.getElem?_modify, if_neg (Ne.symm hne)]

theorem createIndex_of_error {name source : String} {predicate : Value → Bool} {e : Error}
    (h : registerIndex table.schema name source predicate = .error e) :
    createIndex name source predicate table = (.error e, table) := by
  unfold createIndex
  rw [h]

/-- The table in which an index was registered and computed. -/
def withIndex (table : Table) (schema : Schema) (slot : Nat) (index : Index) : Table :=
  { table with
    schema
    chunks := table.chunks.map fun chunk =>
      (chunk.sync schema).rebuildIndex slot index (table.dictionary index.sourceSlot)
        (table.indexTable index) }

theorem createIndex_of_ok {name source : String} {predicate : Value → Bool} {schema : Schema}
    {slot : Nat} {index : Index}
    (h : registerIndex table.schema name source predicate = .ok (schema, slot, index)) :
    createIndex name source predicate table = (.ok (), table.withIndex schema slot index) := by
  unfold createIndex
  rw [h]
  rfl

variable {schema' : Schema} {name source : String} {predicate : Value → Bool} {slot : Nat}
  {index : Index}

/-- One chunk after an index was registered. -/
theorem WellFormed.rebuilt (h : table.WellFormed config)
    (hreg : Registers table.schema name source predicate schema' slot index) {id : Nat}
    {chunk : Chunk} (hchunk : table.chunks[id]? = some chunk) :
    ∃ chunk', (table.withIndex schema' slot index).chunks[id]? = some chunk' ∧
      ChunkOk config schema' table.dictionaries table.nextRow id chunk' ∧
      (∀ offset, chunk'.fill.contains offset = chunk.fill.contains offset) ∧
      (∀ slot' offset, chunk'.cell? slot' offset = chunk.cell? slot' offset) ∧
      ∀ slot' offset, slot' ≠ slot → chunk'.marks slot' offset = chunk.marks slot' offset := by
  have hok := h.chunk id chunk hchunk
  have hsync := hok.wellFormed.sync hreg.extends_
  have hsame := Chunk.sync_same chunk schema'
  have hsize : (chunk.sync schema').columns.size = schema'.columns.size := by
    have := hok.wellFormed.columns_size_le
    rw [Chunk.sync_columns_size, hreg.columns_eq]
    omega
  obtain ⟨column, hcolumn, -⟩ :=
    hreg.wellFormed.source index (Array.mem_of_getElem? hreg.registered)
  obtain ⟨hwf, hrebuilt, hat⟩ := hsync.rebuildIndex hsize hreg.registered hreg.predicate_eq hcolumn
  have htable : table.indexTable index =
      index.table? column (Chunk.dictionaryOf table.dictionaries index.sourceSlot) := by
    rw [indexTable, ← hreg.columns_eq, hcolumn]
    rfl
  refine ⟨(chunk.sync schema').rebuildIndex slot index (table.dictionary index.sourceSlot)
    (table.indexTable index), ?_, ?_, ?_, ?_, ?_⟩
  · rw [withIndex, Array.getElem?_map, hchunk, Option.map_some]
  · rw [htable]
    refine ⟨hwf, fun slot' index' predicate' hindex' => ?_, fun offset hoffset => ?_⟩
    · by_cases hslot : slot' = slot
      · subst hslot
        exact hat index' predicate' hindex'
      · rw [hreg.others slot' hslot] at hindex'
        have hbefore : (chunk.sync schema').IndexedAt table.schema table.dictionaries slot' :=
          fun i p => (hok.indexed.of_same hsame) slot' i p
        exact hrebuilt.indexedAt hslot hbefore index' predicate' hindex'
    · refine hok.lt_nextRow offset ?_
      rw [← hsame.fill, ← hoffset]
      exact congrArg (fun b => b.contains offset) hrebuilt.fill.symm
  · intro offset
    rw [htable, ← hsame.fill]
    exact congrArg (fun b => b.contains offset) hrebuilt.fill
  · intro slot' offset
    rw [htable, ← hsame.cell?]
    exact hrebuilt.cell? slot' offset
  · intro slot' offset hne
    rw [htable, ← hsame.marks]
    exact hrebuilt.marks slot' offset hne

theorem WellFormed.isLive_withIndex (h : table.WellFormed config)
    (hreg : Registers table.schema name source predicate schema' slot index) (row : Nat) :
    (table.withIndex schema' slot index).isLive config row = table.isLive config row := by
  unfold isLive
  cases hchunk : table.chunks[row / config.chunkSize]? with
  | none => simp [withIndex, hchunk]
  | some chunk =>
    obtain ⟨chunk', hchunk', -, hfill, -⟩ := h.rebuilt hreg hchunk
    rw [hchunk', Option.any_some, Option.any_some, hfill]

theorem WellFormed.cell?_withIndex (h : table.WellFormed config)
    (hreg : Registers table.schema name source predicate schema' slot index) (slot' row : Nat) :
    (table.withIndex schema' slot index).cell? config slot' row = table.cell? config slot' row := by
  unfold cell?
  cases hchunk : table.chunks[row / config.chunkSize]? with
  | none => simp [withIndex, hchunk]
  | some chunk =>
    obtain ⟨chunk', hchunk', -, -, hcell, -⟩ := h.rebuilt hreg hchunk
    rw [hchunk', Option.bind_some, Option.bind_some, hcell]

theorem WellFormed.marks_withIndex (h : table.WellFormed config)
    (hreg : Registers table.schema name source predicate schema' slot index) {slot' : Nat}
    (hne : slot' ≠ slot) (row : Nat) :
    (table.withIndex schema' slot index).marks config slot' row = table.marks config slot' row := by
  unfold marks
  cases hchunk : table.chunks[row / config.chunkSize]? with
  | none => simp [withIndex, hchunk]
  | some chunk =>
    obtain ⟨chunk', hchunk', -, -, -, hmarks⟩ := h.rebuilt hreg hchunk
    rw [hchunk', Option.any_some, Option.any_some, hmarks _ _ hne]

theorem WellFormed.createIndex (h : table.WellFormed config)
    (hreg : Registers table.schema name source predicate schema' slot index) :
    (table.withIndex schema' slot index).WellFormed config where
  usable := h.usable
  schema := hreg.wellFormed
  dictionaries_size := by
    show table.dictionaries.size = schema'.columns.size
    rw [hreg.columns_eq]
    exact h.dictionaries_size
  dictionary := h.dictionary
  chunk id chunk hchunk := by
    obtain ⟨old, hold, -⟩ := Option.map_eq_some_iff.mp (Array.getElem?_map .. ▸ hchunk)
    obtain ⟨chunk', hchunk', hok, -⟩ := h.rebuilt hreg hold
    rw [hchunk] at hchunk'
    cases hchunk'
    exact hok
  nextRow_le := by
    show table.nextRow ≤ (table.chunks.map _).size * config.chunkSize
    rw [Array.size_map]
    exact h.nextRow_le
  live_eq := by
    have hcounts : ∀ chunk ∈ table.chunks.toList,
        ((chunk.sync schema').rebuildIndex slot index (table.dictionary index.sourceSlot)
          (table.indexTable index)).fill.count = chunk.fill.count := by
      intro chunk hmem
      obtain ⟨id, hid⟩ := List.mem_iff_getElem?.mp hmem
      rw [Array.getElem?_toList] at hid
      obtain ⟨chunk', hchunk', -, hfill, -⟩ := h.rebuilt hreg hid
      rw [withIndex, Array.getElem?_map, hid, Option.map_some, Option.some.injEq] at hchunk'
      rw [hchunk', Bitmap.count_eq, Bitmap.count_eq, Bitmap.toList_eq_iff.mpr hfill]
    show table.live = _
    rw [h.live_eq, withIndex, Array.toList_map, List.map_map]
    exact congrArg List.sum (List.map_congr_left fun chunk hmem => (hcounts chunk hmem).symm)

theorem WellFormed.cellValue?_withIndex (h : table.WellFormed config)
    (hreg : Registers table.schema name source predicate schema' slot index) (slot' row : Nat) :
    (table.withIndex schema' slot index).cellValue? config slot' row =
      table.cellValue? config slot' row := by
  rw [cellValue?, cellValue?, h.cell?_withIndex hreg]
  rfl

theorem WellFormed.vacant_withIndex (h : table.WellFormed config)
    (hreg : Registers table.schema name source predicate schema' slot index) {row : Nat}
    (hv : table.Vacant config row) : (table.withIndex schema' slot index).Vacant config row where
  isLive := (h.isLive_withIndex hreg row).trans hv.isLive
  cell? slot' := (h.cell?_withIndex hreg slot' row).trans (hv.cell? slot')
  marks slot' := by
    by_cases hslot : slot' = slot
    · subst hslot
      rw [(h.createIndex hreg).marks_eq hreg.registered hreg.predicate_eq, cellValue?,
        h.cell?_withIndex hreg, hv.cell?]
      rfl
    · rw [h.marks_withIndex hreg hslot, hv.marks]

theorem WellFormed.advances_withIndex (h : table.WellFormed config)
    (hreg : Registers table.schema name source predicate schema' slot index) :
    Advances config table (table.withIndex schema' slot index) where
  extends_ := hreg.extends_
  chunks_size := by
    show table.chunks.size ≤ (table.chunks.map _).size
    rw [Array.size_map]
  nextRow_le := le_rfl
  live row hlive := Or.inl ((h.isLive_withIndex hreg row).trans hlive)
  vacant _ _ hv := h.vacant_withIndex hreg hv

end Table

end ColumnStore
