import ColumnStore.Proofs.Bytes
import ColumnStore.Proofs.Snapshot.Decode
import ColumnStore.Snapshot

/-!
# Loaded tables are well-formed

Whatever bytes are accepted as a snapshot, the table made of them satisfies the invariant of tables
(`wellFormed_of_decode`): the checks made while reading are enough for it, and attached indexes are
computed anew where they disagree with their predicates (`WellFormed.revalidateAll`).
-/

namespace ColumnStore

open Reader (Yields)

/-- A detached index is left alone. -/
theorem Snapshot.revalidateChunk_of_detached {index : Index} (h : index.predicate = none)
    (slot : Nat) (dictionary : Dictionary) (answers : Option (Array Bool)) (chunk : Chunk) :
    revalidateChunk slot index dictionary answers chunk = chunk := by
  unfold revalidateChunk
  cases chunk.columns[index.sourceSlot]? with
  | none => rfl
  | some segment => rw [Option.bind_some, Index.compute_of_detached h]

namespace Chunk

variable {chunkSize : Nat} {schema : Schema} {dictionaries : Array Dictionary} {chunk : Chunk}

/-! ## One chunk -/

/-- A chunk after one index was compared with its predicate. -/
theorem WellFormed.revalidateChunk (h : chunk.WellFormed chunkSize schema dictionaries)
    (hcolumns : chunk.columns.size = schema.columns.size) {slot : Nat} {index : Index}
    (hindex : schema.indexes[slot]? = some index) {column : Column}
    (hcolumn : schema.columns[index.sourceSlot]? = some column) :
    ∃ chunk', Snapshot.revalidateChunk slot index (dictionaryOf dictionaries index.sourceSlot)
        (index.table? column (dictionaryOf dictionaries index.sourceSlot)) chunk = chunk' ∧
      chunk'.WellFormed chunkSize schema dictionaries ∧ Rebuilt slot chunk chunk' ∧
      chunk'.IndexedAt schema dictionaries slot ∧ (index.predicate = none → chunk' = chunk) := by
  have hlt : index.sourceSlot < chunk.columns.size := by
    rw [hcolumns]
    exact (Array.getElem?_eq_some_iff.mp hcolumn).1
  have hsegment : chunk.columns[index.sourceSlot]? = some chunk.columns[index.sourceSlot] :=
    Array.getElem?_eq_getElem hlt
  unfold Snapshot.revalidateChunk
  rw [hsegment, Option.bind_some]
  cases hpredicate : index.predicate with
  | none =>
    rw [Index.compute_of_detached hpredicate]
    refine ⟨chunk, rfl, h, Rebuilt.refl slot chunk, fun found predicate hfound hp => ?_,
      fun _ => rfl⟩
    rw [hindex] at hfound
    cases hfound
    rw [hpredicate] at hp
    cases hp
  | some predicate =>
    obtain ⟨bits, hcompute, hfits, hcontains⟩ := h.compute hpredicate hcolumn hsegment
    have hslot : slot < chunk.indexes.size := by
      rw [h.indexes_size]
      exact (Array.getElem?_eq_some_iff.mp hindex).1
    have hat : ∀ {chunk' : Chunk}, (∀ slot' offset, chunk'.cell? slot' offset =
          chunk.cell? slot' offset) → (∀ offset, chunk'.marks slot offset = bits.contains offset) →
        chunk'.IndexedAt schema dictionaries slot := by
      intro chunk' hcell hmarks found p hfound hp offset
      rw [hindex] at hfound
      cases hfound
      rw [hpredicate] at hp
      cases hp
      rw [hmarks, hcontains, hcell]
    simp only [hcompute]
    split_ifs with hsame
    · refine ⟨chunk, rfl, h, Rebuilt.refl slot chunk, hat (fun _ _ => rfl) fun offset => ?_,
        fun hnone => by cases hnone⟩
      rw [Array.getElem?_eq_getElem hslot, Option.map_some, Option.some.injEq] at hsame
      rw [marks, Array.getElem?_eq_getElem hslot, Option.any_some]
      exact Bitmap.toList_eq_iff.mp hsame offset
    · obtain ⟨hwf, hrebuilt, hmarks⟩ := h.setIndex (Array.getElem?_eq_some_iff.mp hindex).1 hfits
      exact ⟨_, rfl, hwf, hrebuilt, hat hrebuilt.cell? hmarks, fun hnone => by cases hnone⟩

/-- A chunk after all its indexes were compared with their predicates. -/
structure Revalidated (schema : Schema) (dictionaries : Array Dictionary) (chunk chunk' : Chunk) :
    Prop where
  fill : chunk'.fill = chunk.fill
  columns : chunk'.columns = chunk.columns
  indexed : chunk'.Indexed schema dictionaries
  detached : ∀ (slot : Nat) index, schema.indexes[slot]? = some index → index.predicate = none →
    ∀ offset, chunk'.marks slot offset = chunk.marks slot offset

/-- The answers of an index, as a table finds them. -/
def answersOf (schema : Schema) (dictionaries : Array Dictionary) (index : Index) :
    Option (Array Bool) :=
  schema.columns[index.sourceSlot]?.bind fun column =>
    index.table? column (dictionaryOf dictionaries index.sourceSlot)

/-- Comparing indexes one after the other: each agrees with its predicate from then on. -/
theorem WellFormed.foldl_revalidate (h : chunk.WellFormed chunkSize schema dictionaries)
    (hschema : schema.WellFormed) (hcolumns : chunk.columns.size = schema.columns.size)
    {places : List (Index × Nat)} (hplaces : ∀ p ∈ places, schema.indexes[p.2]? = some p.1) :
    ∃ chunk', places.foldl (fun chunk p => Snapshot.revalidateChunk p.2 p.1
        (dictionaryOf dictionaries p.1.sourceSlot) (answersOf schema dictionaries p.1) chunk)
          chunk = chunk' ∧
      chunk'.WellFormed chunkSize schema dictionaries ∧ chunk'.fill = chunk.fill ∧
      chunk'.columns = chunk.columns ∧
      (∀ slot, slot ∈ places.map Prod.snd ∨ chunk.IndexedAt schema dictionaries slot →
        chunk'.IndexedAt schema dictionaries slot) ∧
      ∀ (slot : Nat) index, schema.indexes[slot]? = some index → index.predicate = none →
        ∀ offset, chunk'.marks slot offset = chunk.marks slot offset := by
  induction places generalizing chunk with
  | nil => exact ⟨chunk, rfl, h, rfl, rfl, fun slot hs => by simpa using hs, fun _ _ _ _ _ => rfl⟩
  | cons p rest ih =>
    obtain ⟨index, slot⟩ := p
    have hindex := hplaces (index, slot) List.mem_cons_self
    obtain ⟨column, hcolumn, -⟩ := hschema.source index (Array.mem_of_getElem? hindex)
    obtain ⟨chunk₁, hstep, hwf₁, hrebuilt, hat, hdetached⟩ :=
      h.revalidateChunk hcolumns hindex hcolumn
    have hanswers : answersOf schema dictionaries index =
        index.table? column (dictionaryOf dictionaries index.sourceSlot) := by
      rw [answersOf, hcolumn, Option.bind_some]
    obtain ⟨chunk', hrest, hwf, hfill, hcols, hindexed, hmarks⟩ := ih hwf₁
      (by rw [hrebuilt.columns]; exact hcolumns) fun q hq => hplaces q (List.mem_cons_of_mem _ hq)
    refine ⟨chunk', ?_, hwf, hfill.trans hrebuilt.fill, hcols.trans hrebuilt.columns,
      fun other hother => ?_, fun other found hfound hnone offset => ?_⟩
    · rw [List.foldl_cons, hanswers, hstep]
      exact hrest
    · apply hindexed
      by_cases heq : other = slot
      · exact Or.inr (heq ▸ hat)
      · rcases hother with hmem | hbefore
        · rcases List.mem_cons.mp hmem with hhead | htail
          · exact absurd hhead heq
          · exact Or.inl htail
        · exact Or.inr (hrebuilt.indexedAt heq hbefore)
    · rw [hmarks other found hfound hnone offset]
      by_cases heq : other = slot
      · subst heq
        rw [hindex] at hfound
        cases hfound
        rw [hdetached hnone]
      · exact hrebuilt.marks other offset heq

end Chunk

/-! ## All chunks -/

theorem getElem?_foldl_map {α β : Type} (g : β → α → α) (places : List β) (xs : Array α) (i : Nat) :
    (places.foldl (fun xs p => xs.map (g p)) xs)[i]? =
      xs[i]?.map fun x => places.foldl (fun x p => g p x) x := by
  induction places generalizing xs with
  | nil => simp
  | cons p rest ih =>
    rw [List.foldl_cons, ih, Array.getElem?_map, Option.map_map]
    rfl

namespace Table

variable {config : Config} {table : Table}

/-- Every chunk of a table after its indexes were compared with their predicates. -/
theorem getElem?_revalidate (table : Table) (hschema : table.schema.WellFormed) {id : Nat}
    {chunk : Chunk}
    (hchunk : table.chunks[id]? = some chunk)
    (hwf : chunk.WellFormed config.chunkSize table.schema table.dictionaries)
    (hcolumns : chunk.columns.size = table.schema.columns.size) :
    ∃ chunk', (Snapshot.revalidate table).chunks[id]? = some chunk' ∧
      chunk'.WellFormed config.chunkSize table.schema table.dictionaries ∧
      chunk.Revalidated table.schema table.dictionaries chunk' := by
  obtain ⟨chunk', hfold, hwf', hfill, hcols, hindexed, hmarks⟩ :=
    hwf.foldl_revalidate hschema hcolumns fun place
      (hplace : place ∈ table.schema.indexes.toList.zipIdx) => Schema.mem_zipIdx_iff.mp hplace
  refine ⟨chunk', ?_, hwf', hfill, hcols, fun slot index predicate hindex => ?_, hmarks⟩
  · have hget := getElem?_foldl_map
      (fun (p : Index × Nat) => Snapshot.revalidateChunk p.2 p.1 (table.dictionary p.1.sourceSlot)
        (table.indexTable p.1)) table.schema.indexes.toList.zipIdx table.chunks id
    rw [hchunk, Option.map_some] at hget
    rw [← hfold]
    exact hget
  · have hmem : slot ∈ table.schema.indexes.toList.zipIdx.map Prod.snd :=
      List.mem_map.mpr ⟨(index, slot), Schema.mem_zipIdx_iff.mpr hindex, rfl⟩
    exact hindexed slot (Or.inl hmem) index predicate hindex

theorem size_revalidate (table : Table) :
    (Snapshot.revalidate table).chunks.size = table.chunks.size := by
  unfold Snapshot.revalidate
  simp only
  generalize table.schema.indexes.toList.zipIdx = places
  generalize table.chunks = chunks
  induction places generalizing chunks with
  | nil => rfl
  | cons p rest ih =>
    rw [List.foldl_cons, ih]
    exact Array.size_map ..

end Table

namespace Snapshot

variable {config : Config} {chunkCount watermark : Nat} {schema : Schema}
  {columns : List StoredColumn} {indexes : List StoredIndex} {fills : List Bitmap}

/-- The table that parts make, before its indexes are compared with their predicates. -/
def tableOf (chunkSize watermark : Nat) (schema : Schema) (columns : List StoredColumn)
    (indexes : List StoredIndex) (fills : List Bitmap) : Table :=
  { schema
    dictionaries := dictionariesOf columns
    chunks := chunksOf chunkSize columns indexes fills
    nextRow := watermark
    live := (fills.map Bitmap.count).sum }

theorem size_chunksOf (chunkSize : Nat) (columns : List StoredColumn) (indexes : List StoredIndex)
    (fills : List Bitmap) : (chunksOf chunkSize columns indexes fills).size = fills.length := by
  simp [chunksOf]

/-- A chunk of the table that parts make holds what they hold, but for the bitmaps of attached
    indexes. -/
theorem PartsOk.chunk_revalidate
    (h : PartsOk config.chunkSize chunkCount watermark schema columns indexes fills)
    (husable : config.fault? = none) {id : Nat} {fill : Bitmap} (hfill : fills[id]? = some fill) :
    ∃ chunk, (revalidate (tableOf config.chunkSize watermark schema columns indexes
        fills)).chunks[id]? = some chunk ∧
      chunk.WellFormed config.chunkSize schema (dictionariesOf columns) ∧
      chunk.Indexed schema (dictionariesOf columns) ∧
      (∀ offset, chunk.fill.contains offset = fill.contains offset) ∧
      (∀ slot offset, chunk.cell? slot offset =
        (columns[slot]?.bind fun stored => stored.segments[id]?).bind fun s => s.cell? offset) ∧
      ∀ (slot : Nat) index, schema.indexes[slot]? = some index → index.predicate = none →
        ∀ offset, chunk.marks slot offset =
          (indexes[slot]?.bind fun stored => stored.bitmaps[id]?).any fun bits =>
            bits.contains offset := by
  obtain ⟨before, hget, hwf, hcolumns, hlive, hcell, hmarks⟩ := h.assemble husable hfill
  obtain ⟨chunk, hget', hwf', hrev⟩ := Table.getElem?_revalidate
    (tableOf config.chunkSize watermark schema columns indexes fills) h.wellFormed hget hwf hcolumns
  refine ⟨chunk, hget', hwf', hrev.indexed, fun offset => ?_, fun slot offset => ?_,
    fun slot index hindex hnone offset => ?_⟩
  · rw [hrev.fill, hlive]
  · rw [← hcell, Chunk.cell?, hrev.columns, Chunk.cell?]
  · rw [hrev.detached slot index hindex hnone, hmarks]

/-- Parts that go together make a well-formed table. -/
theorem PartsOk.wellFormed_revalidate
    (h : PartsOk config.chunkSize chunkCount watermark schema columns indexes fills)
    (husable : config.fault? = none) (hwatermark : watermark ≤ chunkCount * config.chunkSize) :
    (revalidate (tableOf config.chunkSize watermark schema columns indexes fills)).WellFormed
      config := by
  have hsize : (revalidate (tableOf config.chunkSize watermark schema columns indexes
      fills)).chunks.size = fills.length := by
    rw [Table.size_revalidate]
    exact size_chunksOf ..
  refine ⟨husable, h.wellFormed, ?_, ?_, fun id chunk hid => ?_, ?_, ?_⟩
  · show (dictionariesOf columns).size = schema.columns.size
    rw [h.columns_eq]
    simp [dictionariesOf]
  · intro d hd
    obtain ⟨stored, hstored, rfl⟩ : ∃ stored ∈ columns, stored.dictionary = d := by
      simpa [revalidate, tableOf, dictionariesOf] using hd
    exact (h.column stored hstored).dictionary
  · have hlt : id < fills.length := by
      rw [← hsize]
      exact (Array.getElem?_eq_some_iff.mp hid).1
    obtain ⟨found, hfound, hwf, hindexed, hlive, -⟩ :=
      h.chunk_revalidate husable (List.getElem?_eq_getElem hlt)
    rw [hid] at hfound
    cases hfound
    refine ⟨hwf, hindexed, fun offset hoffset => ?_⟩
    rw [hlive] at hoffset
    exact (h.fill id _ (List.getElem?_eq_getElem hlt)).2 offset hoffset
  · show watermark ≤ _
    rw [hsize, h.fills_length]
    exact hwatermark
  · show (fills.map Bitmap.count).sum = _
    congr 1
    apply List.ext_getElem?
    intro id
    have hlist : (revalidate (tableOf config.chunkSize watermark schema columns indexes
        fills)).chunks.toList[id]? = (revalidate (tableOf config.chunkSize watermark schema columns
          indexes fills)).chunks[id]? := Array.getElem?_toList
    rw [List.getElem?_map, List.getElem?_map, hlist]
    cases hfill : fills[id]? with
    | none =>
      rw [Array.getElem?_eq_none]
      · rfl
      · rw [hsize]
        exact List.getElem?_eq_none_iff.mp hfill
    | some fill =>
      obtain ⟨chunk, hget, -, -, hlive, -⟩ := h.chunk_revalidate husable hfill
      rw [hget, Option.map_some, Option.map_some, Bitmap.count_eq, Bitmap.count_eq,
        Bitmap.toList_eq_iff.mpr hlive]

/-- A table that was made of parts, as many as four bytes can count. -/
structure MadeOf (chunkSize chunkCount watermark : Nat) (schema : Schema)
    (columns : List StoredColumn) (indexes : List StoredIndex) (fills : List Bitmap)
    (table : Table) : Prop where
  parts : PartsOk chunkSize chunkCount watermark schema columns indexes fills
  watermark_le : watermark ≤ chunkCount * chunkSize
  table_eq : table = revalidate (tableOf chunkSize watermark schema columns indexes fills)
  chunkCount_lt : chunkCount < 2 ^ 32
  columns_lt : columns.length < 2 ^ 32
  indexes_lt : indexes.length < 2 ^ 32

/-- What a reader of snapshots accepts is made of parts, of which all is known that is known of each
    column and each index that is read. -/
theorem yields_parts {chunkSize : Nat} {registered : Schema} {P : StoredColumn → Prop}
    {Q : StoredIndex → Prop} (hP : ∀ chunkCount, Yields (readColumn chunkSize chunkCount) P)
    (hQ : ∀ chunkCount schema, Yields (readIndex registered schema chunkSize chunkCount) Q) :
    Yields (read chunkSize registered) fun table =>
      ∃ chunkCount watermark schema columns indexes fills,
        MadeOf chunkSize chunkCount watermark schema columns indexes fills table ∧
          (∀ stored ∈ columns, P stored) ∧ ∀ stored ∈ indexes, Q stored := by
  refine Yields.bind_any fun front => Yields.require_bind fun _ => ?_
  refine Yields.bind_any fun found => Yields.require_bind fun _ => ?_
  refine Yields.bind_any fun size => Yields.require_bind fun _ => ?_
  refine (Reader.yields_nat 4 _).bind fun chunkCount hchunkCount => Yields.bind_any fun _ => ?_
  refine (Reader.yields_nat 4 _).bind fun columnCount hcolumnCount => ?_
  refine ((yields_readColumns chunkSize chunkCount columnCount Schema.wellFormed_empty).and
    (yields_readColumns_all (hP chunkCount) columnCount .empty)).bind fun result hcolumns => ?_
  obtain ⟨schema₁, columns⟩ := result
  obtain ⟨hcolumns, hcolumnsLength, hcolumnsAll⟩ := hcolumns
  refine (Reader.yields_nat 4 _).bind fun indexCount hindexCount => ?_
  refine ((yields_readIndexes registered chunkSize chunkCount indexCount hcolumns.1).and
    (yields_readIndexes_all (hQ chunkCount) indexCount schema₁)).bind fun result hindexes => ?_
  obtain ⟨schema, indexes⟩ := result
  obtain ⟨hindexes, hindexesLength, hindexesAll⟩ := hindexes
  refine Yields.bind_any fun watermark => Yields.bind_any fun live => ?_
  refine Yields.require_bind fun hwatermark => ?_
  refine (yields_readFills chunkSize watermark chunkCount 0).bind fun fills hfills => ?_
  refine Yields.require_bind fun hlive => Yields.bind_any fun _ => Yields.pure ?_
  have hcounted : (fills.map Bitmap.count).sum = live := of_decide_eq_true hlive
  refine ⟨chunkCount, watermark, schema, columns, indexes, fills,
    ⟨partsOk_of_read hcolumns hindexes hfills, by simpa using hwatermark, ?_, hchunkCount,
      hcolumnsLength.trans_lt hcolumnCount, hindexesLength.trans_lt hindexCount⟩, hcolumnsAll,
    hindexesAll⟩
  rw [tableOf, hcounted]
  rfl

theorem MadeOf.wellFormed {table : Table}
    (h : MadeOf config.chunkSize chunkCount watermark schema columns indexes fills table)
    (husable : config.fault? = none) : table.WellFormed config := by
  rw [h.table_eq]
  exact h.parts.wellFormed_revalidate husable h.watermark_le

/-- What is known of every table that a reader of snapshots gives holds of the table of accepted
    bytes. -/
theorem of_decode {chunkSize : Nat} {registered : Schema} {P : Table → Prop}
    (hP : Yields (read chunkSize registered) P) {bytes : Bytes} {table : Table}
    (h : decode chunkSize registered bytes = .ok table) : P table := by
  obtain ⟨rest, hread⟩ := Reader.map_fst_eq_ok_iff.mp h
  exact hP bytes table rest hread

/-- The table of accepted bytes satisfies the invariant of tables. -/
theorem wellFormed_of_decode (husable : config.fault? = none) {registered : Schema} {bytes : Bytes}
    {table : Table} (h : decode config.chunkSize registered bytes = .ok table) :
    table.WellFormed config := by
  obtain ⟨chunkCount, watermark, schema, columns, indexes, fills, hmade, -⟩ :=
    of_decode (yields_parts (fun _ => Yields.trivial _) fun _ _ => Yields.trivial _) h
  exact hmade.wellFormed husable

end Snapshot

end ColumnStore
