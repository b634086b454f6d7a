import ColumnStore.Proofs.Chunk.Rebuild

/-!
# The schemas a chunk was synced with

A chunk comes about under one schema and is brought up to date under others: whoever writes to it
syncs it first, under the table's schema or under an older one. `Chunk.History` keeps the list of
these schemas. A chunk has as many segments and index bitmaps as the schemas on the list ask for and
no more (`History.le_sizes`, `History.sizes_le`), so, where one of them extends the others, exactly
as many as that one has columns and indexes (`History.sizes_eq`).
-/

namespace ColumnStore

/-- The numbers of columns and indexes. -/
def Schema.sizes (schema : Schema) : Nat × Nat := (schema.columns.size, schema.indexes.size)

theorem Schema.Extends.sizes_le {older newer : Schema} (h : older.Extends newer) :
    older.sizes ≤ newer.sizes :=
  ⟨h.columns_size_le, h.indexes_size_le⟩

namespace Chunk

variable {chunkSize : Nat} {chunk : Chunk} {schema : Schema}

/-! ## The numbers of segments and index bitmaps -/

/-- The numbers of segments and index bitmaps. -/
def sizes (chunk : Chunk) : Nat × Nat := (chunk.columns.size, chunk.indexes.size)

theorem sizes_sync (chunk : Chunk) (schema : Schema) :
    (chunk.sync schema).sizes = chunk.sizes ⊔ schema.sizes :=
  Prod.ext (sync_columns_size ..) (sync_indexes_size ..)

theorem sizes_new (chunkSize capacity : Nat) (schema : Schema) :
    (Chunk.new chunkSize capacity schema).sizes = schema.sizes := by
  rw [Chunk.new, sizes_sync]
  exact sup_eq_right.mpr ⟨Nat.zero_le _, Nat.zero_le _⟩

theorem sizes_growTo (chunk : Chunk) (capacity : Nat) :
    (chunk.growTo capacity).sizes = chunk.sizes :=
  Prod.ext (Array.size_map ..) (Array.size_map ..)

theorem sizes_growFor (chunk : Chunk) (offset : Nat) :
    (chunk.growFor offset).2.sizes = chunk.sizes := by
  unfold growFor
  split_ifs
  · rfl
  · rfl
  · exact chunk.sizes_growTo _

theorem sizes_restore (chunkSize : Nat) (fill : Bitmap) (columns : Array Segment)
    (indexes : Array Bitmap) :
    (restore chunkSize fill columns indexes).sizes = (columns.size, indexes.size) :=
  sizes_growTo ..

theorem sizes_writeCell (chunk : Chunk) (slot : Nat) (column : String) (offset : Nat)
    (cell : Option Cell) : (chunk.writeCell slot column offset cell).2.sizes = chunk.sizes := by
  unfold writeCell
  simp only
  split
  · rfl
  · exact Prod.ext (Array.size_modify ..) rfl

theorem sizes_writeCells (chunk : Chunk) (offset : Nat) (cells : List (Nat × Cell)) :
    (chunk.writeCells offset cells).2.sizes = chunk.sizes := by
  induction cells generalizing chunk with
  | nil => rfl
  | cons entry rest ih =>
    have hfirst := chunk.sizes_writeCell entry.1 "" offset (some entry.2)
    rw [writeCells]
    generalize chunk.writeCell entry.1 "" offset (some entry.2) = written at hfirst
    obtain ⟨answer, between⟩ := written
    cases answer with
    | error e => exact hfirst
    | ok _ => exact (ih between).trans hfirst

theorem size_foldl_modify {α β : Type} (place : β → Nat) (f : β → α → α) (items : List β)
    (xs : Array α) :
    (items.foldl (fun xs b => xs.modify (place b) (f b)) xs).size = xs.size := by
  induction items generalizing xs with
  | nil => rfl
  | cons b rest ih => exact (ih _).trans (Array.size_modify ..)

theorem sizes_reindex (chunk : Chunk) (schema : Schema) (dictionaries : Array Dictionary)
    (offset source : Nat) :
    (chunk.reindex schema dictionaries offset source).sizes = chunk.sizes :=
  Prod.ext rfl (size_foldl_modify Prod.fst ..)

theorem sizes_foldl_reindex (chunk : Chunk) (schema : Schema) (dictionaries : Array Dictionary)
    (offset : Nat) (cells : List (Nat × Cell)) :
    (cells.foldl (fun chunk p => chunk.reindex schema dictionaries offset p.1) chunk).sizes =
      chunk.sizes := by
  induction cells generalizing chunk with
  | nil => rfl
  | cons entry rest ih => exact (ih _).trans (chunk.sizes_reindex ..)

theorem sizes_insert (chunk : Chunk) (schema : Schema) (dictionaries : Array Dictionary)
    (offset : Nat) (cells : List (Nat × Cell)) :
    (chunk.insert schema dictionaries offset cells).2.sizes = chunk.sizes ⊔ schema.sizes := by
  rw [← sizes_sync]
  have hgrow := (chunk.sync schema).sizes_growFor offset
  unfold Chunk.insert
  generalize (chunk.sync schema).growFor offset = grown at hgrow ⊢
  obtain ⟨_ | _, grown⟩ := grown
  · exact hgrow
  · have hwrite := grown.sizes_writeCells offset cells
    dsimp only
    generalize grown.writeCells offset cells = written at hwrite ⊢
    obtain ⟨_ | _, written⟩ := written
    · exact hwrite.trans hgrow
    · exact (sizes_foldl_reindex ..).trans (hwrite.trans hgrow)

theorem sizes_update (chunk : Chunk) (schema : Schema) (dictionaries : Array Dictionary)
    (offset slot : Nat) (column : Column) (cell : Option Cell) :
    (chunk.update schema dictionaries offset slot column cell).2.sizes =
      chunk.sizes ⊔ schema.sizes := by
  rw [← sizes_sync]
  have hwrite := (chunk.sync schema).sizes_writeCell slot column.name offset cell
  unfold Chunk.update
  generalize (chunk.sync schema).writeCell slot column.name offset cell = written at hwrite ⊢
  obtain ⟨_ | _, written⟩ := written
  · exact hwrite
  · exact (sizes_reindex ..).trans hwrite

theorem sizes_setIndex {slot : Nat} (hslot : slot < chunk.indexes.size) (bits : Bitmap) :
    (chunk.setIndex slot bits).sizes = chunk.sizes := by
  rw [setIndex_eq hslot]
  exact Prod.ext rfl (Array.size_modify ..)

theorem sizes_deleteSelected (chunk : Chunk) (selection : Bitmap) :
    (chunk.deleteSelected selection).2.sizes = chunk.sizes := by
  unfold Chunk.deleteSelected
  simp only
  split_ifs
  · rfl
  · exact Prod.ext (Array.size_map ..) (Array.size_map ..)

/-! ## Histories -/

/-- A chunk of a table and the schemas that it was made under and synced with, the last one first.
    An index bitmap is only ever put in the place of one that the chunk has. -/
inductive History (chunkSize : Nat) : List Schema → Chunk → Prop
  | new (capacity : Nat) (schema : Schema) :
    History chunkSize [schema] (Chunk.new chunkSize capacity schema)
  | restore {schema : Schema} {columns : Array Segment} {indexes : Array Bitmap}
    (hcolumns : columns.size = schema.columns.size)
    (hindexes : indexes.size = schema.indexes.size) (fill : Bitmap) :
    History chunkSize [schema] (Chunk.restore chunkSize fill columns indexes)
  | sync {synced : List Schema} {chunk : Chunk} (h : History chunkSize synced chunk)
    (schema : Schema) : History chunkSize (schema :: synced) (chunk.sync schema)
  | insert {synced : List Schema} {chunk : Chunk} (h : History chunkSize synced chunk)
    (schema : Schema) (dictionaries : Array Dictionary) (offset : Nat)
    (cells : List (Nat × Cell)) :
    History chunkSize (schema :: synced) (chunk.insert schema dictionaries offset cells).2
  | update {synced : List Schema} {chunk : Chunk} (h : History chunkSize synced chunk)
    (schema : Schema) (dictionaries : Array Dictionary) (offset slot : Nat) (column : Column)
    (cell : Option Cell) :
    History chunkSize (schema :: synced)
      (chunk.update schema dictionaries offset slot column cell).2
  | setIndex {synced : List Schema} {chunk : Chunk} (h : History chunkSize synced chunk)
    {slot : Nat} (hslot : slot < chunk.indexes.size) (bits : Bitmap) :
    History chunkSize synced (chunk.setIndex slot bits)
  | deleteSelected {synced : List Schema} {chunk : Chunk} (h : History chunkSize synced chunk)
    (selection : Bitmap) : History chunkSize synced (chunk.deleteSelected selection).2

namespace History

variable {synced : List Schema}

theorem ne_nil (h : History chunkSize synced chunk) : synced ≠ [] := by
  induction h with
  | setIndex _ _ _ ih => exact ih
  | deleteSelected _ _ ih => exact ih
  | _ => exact List.cons_ne_nil _ _

/-- The chunk has all that the schemas on the list ask for. -/
theorem le_sizes (h : History chunkSize synced chunk) :
    ∀ schema ∈ synced, schema.sizes ≤ chunk.sizes := by
  have hcons {sizes : Nat × Nat} {synced : List Schema}
      (ih : ∀ schema ∈ synced, schema.sizes ≤ sizes) (newer : Schema) :
      ∀ schema ∈ newer :: synced, schema.sizes ≤ sizes ⊔ newer.sizes :=
    List.forall_mem_cons.mpr ⟨le_sup_right, fun schema hmem => (ih schema hmem).trans le_sup_left⟩
  induction h with
  | new capacity schema => simp [sizes_new]
  | restore hcolumns hindexes fill => simp [sizes_restore, hcolumns, hindexes, Schema.sizes]
  | sync _ schema ih =>
    rw [sizes_sync]
    exact hcons ih schema
  | insert _ schema dictionaries offset cells ih =>
    rw [sizes_insert]
    exact hcons ih schema
  | update _ schema dictionaries offset slot column cell ih =>
    rw [sizes_update]
    exact hcons ih schema
  | setIndex _ hslot bits ih =>
    rw [sizes_setIndex hslot]
    exact ih
  | deleteSelected _ selection ih =>
    rw [sizes_deleteSelected]
    exact ih

/-- It has no more than that. -/
theorem sizes_le (h : History chunkSize synced chunk) {bound : Nat × Nat}
    (hbound : ∀ schema ∈ synced, schema.sizes ≤ bound) : chunk.sizes ≤ bound := by
  have hcons {sizes : Nat × Nat} {synced : List Schema} {newer : Schema}
      (ih : (∀ schema ∈ synced, schema.sizes ≤ bound) → sizes ≤ bound)
      (hbound : ∀ schema ∈ newer :: synced, schema.sizes ≤ bound) :
      sizes ⊔ newer.sizes ≤ bound :=
    sup_le (ih (List.forall_mem_cons.mp hbound).2) (List.forall_mem_cons.mp hbound).1
  induction h with
  | new capacity schema => exact (sizes_new ..).trans_le (hbound schema List.mem_cons_self)
  | @restore schema _ _ hcolumns hindexes fill =>
    rw [sizes_restore, hcolumns, hindexes]
    exact hbound schema List.mem_cons_self
  | sync _ schema ih => exact (sizes_sync ..).trans_le (hcons ih hbound)
  | insert _ schema dictionaries offset cells ih =>
    exact (sizes_insert ..).trans_le (hcons ih hbound)
  | update _ schema dictionaries offset slot column cell ih =>
    exact (sizes_update ..).trans_le (hcons ih hbound)
  | setIndex _ hslot bits ih => exact (sizes_setIndex hslot bits).trans_le (ih hbound)
  | deleteSelected _ selection ih => exact (sizes_deleteSelected ..).trans_le (ih hbound)

/-- The chunk has the columns and indexes of the newest schema on the list. -/
theorem sizes_eq (h : History chunkSize synced chunk) {newest : Schema} (hmem : newest ∈ synced)
    (hnewest : ∀ schema ∈ synced, schema.Extends newest) : chunk.sizes = newest.sizes :=
  le_antisymm (h.sizes_le fun schema hschema => (hnewest schema hschema).sizes_le)
    (h.le_sizes newest hmem)

end History

/-- The chunk was synced with the schemas of the list, and of these the given one is the newest. -/
structure SyncedUpTo (chunkSize : Nat) (synced : List Schema) (newest : Schema) (chunk : Chunk) :
    Prop where
  history : History chunkSize synced chunk
  mem : newest ∈ synced
  extends_ : ∀ schema ∈ synced, schema.Extends newest

theorem SyncedUpTo.sizes_eq {synced : List Schema} {newest : Schema}
    (h : chunk.SyncedUpTo chunkSize synced newest) : chunk.sizes = newest.sizes :=
  h.history.sizes_eq h.mem h.extends_

/-! ## Chunks made under the schemas of a lineage -/

/-- The chunk was synced with the schemas of the list, and all of these are known. -/
structure MadeUnder (chunkSize : Nat) (known synced : List Schema) (chunk : Chunk) : Prop where
  subset : synced ⊆ known
  history : History chunkSize synced chunk

namespace MadeUnder

variable {known synced : List Schema}

theorem mono (h : chunk.MadeUnder chunkSize known synced) {known' : List Schema}
    (hsub : known ⊆ known') : chunk.MadeUnder chunkSize known' synced :=
  ⟨List.Subset.trans h.subset hsub, h.history⟩

/-- What syncs the chunk with one schema more. -/
theorem next (h : chunk.MadeUnder chunkSize known synced) (hschema : schema ∈ known)
    {chunk' : Chunk} (hhistory : History chunkSize (schema :: synced) chunk') :
    chunk'.MadeUnder chunkSize known (schema :: synced) :=
  ⟨List.cons_subset.mpr ⟨hschema, h.subset⟩, hhistory⟩

theorem new (hschema : schema ∈ known) (capacity : Nat) :
    (Chunk.new chunkSize capacity schema).MadeUnder chunkSize known [schema] :=
  ⟨List.cons_subset.mpr ⟨hschema, List.nil_subset known⟩, .new capacity schema⟩

theorem sync (h : chunk.MadeUnder chunkSize known synced) (hschema : schema ∈ known) :
    (chunk.sync schema).MadeUnder chunkSize known (schema :: synced) :=
  h.next hschema (h.history.sync schema)

theorem insert (h : chunk.MadeUnder chunkSize known synced) (hschema : schema ∈ known)
    (dictionaries : Array Dictionary) (offset : Nat) (cells : List (Nat × Cell)) :
    (chunk.insert schema dictionaries offset cells).2.MadeUnder chunkSize known
      (schema :: synced) :=
  h.next hschema (h.history.insert schema dictionaries offset cells)

theorem update (h : chunk.MadeUnder chunkSize known synced) (hschema : schema ∈ known)
    (dictionaries : Array Dictionary) (offset slot : Nat) (column : Column) (cell : Option Cell) :
    (chunk.update schema dictionaries offset slot column cell).2.MadeUnder chunkSize known
      (schema :: synced) :=
  h.next hschema (h.history.update schema dictionaries offset slot column cell)

theorem setIndex (h : chunk.MadeUnder chunkSize known synced) {slot : Nat}
    (hslot : slot < chunk.indexes.size) (bits : Bitmap) :
    (chunk.setIndex slot bits).MadeUnder chunkSize known synced :=
  ⟨h.subset, h.history.setIndex hslot bits⟩

theorem rebuildIndex (h : chunk.MadeUnder chunkSize known synced) {slot : Nat}
    (hslot : slot < chunk.indexes.size) (index : Index) (dictionary : Dictionary)
    (answers : Option (Array Bool)) :
    (chunk.rebuildIndex slot index dictionary answers).MadeUnder chunkSize known synced := by
  unfold Chunk.rebuildIndex
  cases chunk.columns[index.sourceSlot]? with
  | none => exact h
  | some segment =>
    dsimp only
    cases index.compute dictionary segment answers with
    | none => exact h
    | some bits => exact h.setIndex hslot bits

theorem deleteSelected (h : chunk.MadeUnder chunkSize known synced) (selection : Bitmap) :
    (chunk.deleteSelected selection).2.MadeUnder chunkSize known synced :=
  ⟨h.subset, h.history.deleteSelected selection⟩

theorem delete (h : chunk.MadeUnder chunkSize known synced) (offset : Nat) :
    (chunk.delete offset).2.MadeUnder chunkSize known synced := by
  unfold Chunk.delete
  split_ifs
  · exact h.deleteSelected _
  · exact h

end MadeUnder

end Chunk

end ColumnStore
