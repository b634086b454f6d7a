import ColumnStore.Proofs.Chunk.Write
import ColumnStore.Proofs.Relabelling

/-!
# Chunks up to the order of their slots

Two chunks that keep the same segments and bitmaps in other slots (`Chunk.Relabelled`) stay so under
every operation on a chunk, and every operation gives the same answer on both. A chunk may be older
than its schema, as long as the slots that differ are among those it has: what it is missing is then
added in the same slots (`Relabelled.sync`).

The one operation that goes over slots in their order is the update of the indexes over a column; it
writes each bitmap once, so the order does not show (`Relabelled.reindex`).
-/

namespace ColumnStore

namespace Chunk

/-- Two chunks with the same parts in other slots. -/
structure Relabelled (r : Relabelling) (chunk chunk' : Chunk) : Prop where
  chunkSize : chunk'.chunkSize = chunk.chunkSize
  capacity : chunk'.capacity = chunk.capacity
  fill : chunk'.fill = chunk.fill
  columns : Moved r.column chunk.columns chunk'.columns
  indexes : Moved r.index chunk.indexes chunk'.indexes

theorem Relabelled.refl (chunk : Chunk) : Relabelled .refl chunk chunk :=
  ⟨rfl, rfl, rfl, .refl _, .refl _⟩

variable {r : Relabelling} {schema schema' : Schema} {dictionaries dictionaries' : Array Dictionary}
  {chunk chunk' : Chunk}

theorem dictionaryOf_moved (h : Moved r.column dictionaries dictionaries') (slot : ℕ) :
    dictionaryOf dictionaries' (r.column slot) = dictionaryOf dictionaries slot := by
  rw [dictionaryOf, dictionaryOf, h.getElem?]

/-- A new chunk has the parts of its schema. -/
theorem relabelled_new (hs : Schema.Relabelled r schema schema') (chunkSize capacity : ℕ) :
    Relabelled r (new chunkSize capacity schema) (new chunkSize capacity schema') := by
  refine ⟨rfl, rfl, rfl, ?_, ?_⟩
  · have hnew (s : Schema) : (new chunkSize capacity s).columns = s.columns.map fun column =>
        Segment.withCapacity column.kind (clampCapacity chunkSize capacity) := by
      simp [new, sync]
    rw [hnew, hnew]
    exact hs.columns.map _
  · have hnew (s : Schema) : (new chunkSize capacity s).indexes = s.indexes.map fun _ =>
        Bitmap.withCapacity (clampCapacity chunkSize capacity) := by
      simp [new, sync, Array.map_const']
    have hmoved := hs.indexes.map fun _ => Bitmap.withCapacity (clampCapacity chunkSize capacity)
    rw [hnew, hnew]
    rwa [Array.map_map] at hmoved

namespace Relabelled

/-- What the chunk has not yet of the schema, it gets in the same slots. -/
theorem sync (h : Relabelled r chunk chunk') (hs : Schema.Relabelled r schema schema') :
    Relabelled r (chunk.sync schema) (chunk'.sync schema') := by
  have hlate : schema'.columns.extract chunk'.columns.size schema'.columns.size =
      schema.columns.extract chunk.columns.size schema.columns.size := by
    rw [h.columns.size_eq, hs.columns_size]
    refine Array.ext_getElem? fun i => ?_
    rw [Array.getElem?_extract, Array.getElem?_extract, hs.columns_size,
      h.columns.getElem?_of_size_le hs.columns (Nat.le_add_right _ i)]
  refine ⟨h.chunkSize, h.capacity, h.fill, ?_, ?_⟩
  · simp only [Chunk.sync, hlate, h.capacity]
    exact h.columns.append _
  · simp only [Chunk.sync, hs.indexes_size, h.indexes.size_eq, h.capacity]
    exact h.indexes.append _

theorem growTo (h : Relabelled r chunk chunk') (capacity : ℕ) :
    Relabelled r (chunk.growTo capacity) (chunk'.growTo capacity) :=
  ⟨h.chunkSize, rfl, congrArg (·.grow capacity) h.fill, h.columns.map _, h.indexes.map _⟩

theorem growFor (h : Relabelled r chunk chunk') (offset : ℕ) :
    Alike (Relabelled r) (chunk.growFor offset) (chunk'.growFor offset) := by
  unfold Chunk.growFor
  rw [h.capacity, h.chunkSize]
  split_ifs
  · exact ⟨rfl, h⟩
  · exact ⟨rfl, h⟩
  · exact ⟨rfl, h.growTo _⟩

/-! ## Reading -/

theorem select (h : Relabelled r chunk chunk') (slot : Slot) (selection : Bitmap) :
    chunk'.select (r.slot slot) selection = chunk.select slot selection := by
  have hselected : chunk'.selected (r.slot slot) = chunk.selected slot := by
    cases slot with
    | column slot => exact congrArg (Option.map Segment.truthy) (h.columns.getElem? slot)
    | index slot => exact h.indexes.getElem? slot
  rw [Chunk.select, hselected, Chunk.select]

theorem filterColumn (h : Relabelled r chunk chunk') (slot : ℕ)
    (filter : Segment → Bitmap → Bitmap) (selection : Bitmap) :
    chunk'.filterColumn (r.column slot) filter selection =
      chunk.filterColumn slot filter selection := by
  rw [Chunk.filterColumn, h.columns.getElem?, Chunk.filterColumn]

theorem value (h : Relabelled r chunk chunk') (hd : Moved r.column dictionaries dictionaries')
    (slot offset : ℕ) :
    chunk'.value dictionaries' (r.column slot) offset = chunk.value dictionaries slot offset := by
  rw [Chunk.value, h.chunkSize, h.fill, h.columns.getElem?, dictionaryOf_moved hd, Chunk.value]

end Relabelled

/-! ## Indexes -/

/-- Changing each place at most once, the order of the changes does not show. -/
theorem foldl_modify_perm {α β : Type} (f : β → α → α) {places places' : List (ℕ × β)}
    (hperm : places.Perm places') (hnodup : (places.map Prod.fst).Nodup) (xs : Array α) :
    places.foldl (fun xs p => xs.modify p.1 (f p.2)) xs =
      places'.foldl (fun xs p => xs.modify p.1 (f p.2)) xs := by
  refine Array.ext_getElem? fun i => ?_
  obtain ⟨hin, hout⟩ := getElem?_foldl_modify f hnodup xs i
  obtain ⟨hin', hout'⟩ := getElem?_foldl_modify f ((hperm.map _).nodup_iff.mp hnodup) xs i
  by_cases h : ∃ b, (i, b) ∈ places
  · obtain ⟨b, hb⟩ := h
    rw [hin b hb, hin' b (hperm.mem_iff.mp hb)]
  · have hnone : ∀ b, (i, b) ∉ places := fun b hb => h ⟨b, hb⟩
    rw [hout hnone, hout' fun b hb => hnone b (hperm.mem_iff.mpr hb)]

/-- Changing corresponding bitmaps one by one. -/
theorem moved_foldl_modify {f : Index → Bitmap → Bitmap}
    (hf : ∀ index, f (r.moveSource index) = f index) (places : List (ℕ × Index))
    {indexes indexes' : Array Bitmap} (h : Moved r.index indexes indexes') :
    Moved r.index (places.foldl (fun indexes p => indexes.modify p.1 (f p.2)) indexes)
      ((places.map r.indexAt).foldl (fun indexes p => indexes.modify p.1 (f p.2)) indexes') := by
  induction places generalizing indexes indexes' with
  | nil => exact h
  | cons p rest ih =>
    refine ih ?_
    show Moved r.index _ (indexes'.modify (r.index p.1) (f (r.moveSource p.2)))
    rw [hf]
    exact h.modify _ _

/-- The indexes over corresponding columns, asked about one cell. -/
theorem moved_assignAnswers (hs : Schema.Relabelled r schema schema') (dictionary : Dictionary)
    (offset source : ℕ) (cell : Option Cell) {indexes indexes' : Array Bitmap}
    (h : Moved r.index indexes indexes') :
    Moved r.index (assignAnswers schema dictionary offset source cell indexes)
      (assignAnswers schema' dictionary offset (r.column source) cell indexes') := by
  let ask (index : Index) (bits : Bitmap) : Bitmap :=
    bits.assign offset (index.answer dictionary cell)
  have hmoved := moved_foldl_modify (r := r) (f := ask) (fun _ => rfl) (schema.indexesOn source) h
  rwa [← foldl_modify_perm ask (hs.indexesOn_perm source) (indexesOn_nodup schema' _)] at hmoved

namespace Relabelled

theorem reindex (h : Relabelled r chunk chunk') (hs : Schema.Relabelled r schema schema')
    (hd : Moved r.column dictionaries dictionaries') (offset source : ℕ) :
    Relabelled r (chunk.reindex schema dictionaries offset source)
      (chunk'.reindex schema' dictionaries' offset (r.column source)) := by
  have hcell : chunk'.askedCell (r.column source) offset = chunk.askedCell source offset := by
    rw [askedCell, h.columns.getElem?, askedCell]
  refine ⟨h.chunkSize, h.capacity, h.fill, h.columns, ?_⟩
  show Moved r.index
    (assignAnswers schema (dictionaryOf dictionaries source) offset source
      (chunk.askedCell source offset) chunk.indexes)
    (assignAnswers schema' (dictionaryOf dictionaries' (r.column source)) offset (r.column source)
      (chunk'.askedCell (r.column source) offset) chunk'.indexes)
  rw [hcell, dictionaryOf_moved hd]
  exact moved_assignAnswers hs _ offset source _ h.indexes

theorem foldl_reindex (h : Relabelled r chunk chunk') (hs : Schema.Relabelled r schema schema')
    (hd : Moved r.column dictionaries dictionaries') (offset : ℕ) (cells : List (ℕ × Cell)) :
    Relabelled r
      (cells.foldl (fun chunk p => chunk.reindex schema dictionaries offset p.1) chunk)
      ((cells.map r.columnAt).foldl
        (fun chunk p => chunk.reindex schema' dictionaries' offset p.1) chunk') := by
  induction cells generalizing chunk chunk' with
  | nil => exact h
  | cons entry rest ih => exact ih (h.reindex hs hd offset entry.1)

theorem setIndex (h : Relabelled r chunk chunk') (slot : ℕ) (bits : Bitmap) :
    Relabelled r (chunk.setIndex slot bits) (chunk'.setIndex (r.index slot) bits) := by
  have hmissing : r.index slot + 1 - chunk'.indexes.size = slot + 1 - chunk.indexes.size := by
    rw [h.indexes.size_eq]
    by_cases hslot : slot < chunk.indexes.size
    · have hslot' := (h.indexes.lt_size_iff slot).mpr hslot
      rw [h.indexes.size_eq] at hslot'
      omega
    · rw [h.indexes.fixed slot (not_lt.mp hslot)]
  refine ⟨h.chunkSize, h.capacity, h.fill, h.columns, ?_⟩
  simp only [Chunk.setIndex, hmissing]
  exact (h.indexes.append _).modify _ _

theorem rebuildIndex (h : Relabelled r chunk chunk') (slot : ℕ) (index : Index)
    (dictionary : Dictionary) (table : Option (Array Bool)) :
    Relabelled r (chunk.rebuildIndex slot index dictionary table)
      (chunk'.rebuildIndex (r.index slot) (r.moveSource index) dictionary table) := by
  unfold Chunk.rebuildIndex
  rw [show (r.moveSource index).sourceSlot = r.column index.sourceSlot from rfl,
    h.columns.getElem?]
  cases chunk.columns[index.sourceSlot]? with
  | none => exact h
  | some segment =>
    have hcompute : (r.moveSource index).compute dictionary segment table =
      index.compute dictionary segment table := rfl
    simp only [hcompute]
    cases index.compute dictionary segment table with
    | none => exact h
    | some bits => exact h.setIndex slot bits

/-! ## Writing -/

theorem writeCell (h : Relabelled r chunk chunk') (slot : ℕ) (name : String) (offset : ℕ)
    (cell : Option Cell) :
    Alike (Relabelled r) (chunk.writeCell slot name offset cell)
      (chunk'.writeCell (r.column slot) name offset cell) := by
  unfold Chunk.writeCell
  simp only [h.columns.getElem?]
  cases chunk.columns[slot]? with
  | none => exact ⟨rfl, h⟩
  | some segment =>
    cases hcheck : segment.checkWrite offset cell with
    | error e =>
      simp only [hcheck]
      exact ⟨rfl, h⟩
    | ok _ =>
      simp only [hcheck]
      exact ⟨rfl, { h with columns := h.columns.modify slot fun s => s.write offset cell }⟩

theorem writeCells (h : Relabelled r chunk chunk') (offset : ℕ) (cells : List (ℕ × Cell)) :
    Alike (Relabelled r) (chunk.writeCells offset cells)
      (chunk'.writeCells offset (cells.map r.columnAt)) := by
  induction cells generalizing chunk chunk' with
  | nil => exact ⟨rfl, h⟩
  | cons entry rest ih =>
    obtain ⟨slot, cell⟩ := entry
    obtain ⟨answer, next, next', heq, heq', hnext⟩ :=
      (h.writeCell slot "" offset (some cell)).exists_eq
    simp only [List.map_cons, Relabelling.columnAt, Chunk.writeCells, heq, heq']
    cases answer with
    | error e => exact ⟨rfl, hnext⟩
    | ok _ => exact ih hnext

theorem insert (h : Relabelled r chunk chunk') (hs : Schema.Relabelled r schema schema')
    (hd : Moved r.column dictionaries dictionaries') (offset : ℕ) (cells : List (ℕ × Cell)) :
    Alike (Relabelled r) (chunk.insert schema dictionaries offset cells)
      (chunk'.insert schema' dictionaries' offset (cells.map r.columnAt)) := by
  obtain ⟨grown, room, room', hgrow, hgrow', hroom⟩ := ((h.sync hs).growFor offset).exists_eq
  simp only [Chunk.insert, hgrow, hgrow']
  cases grown with
  | error e => exact ⟨rfl, hroom⟩
  | ok _ =>
    obtain ⟨answer, next, next', hwrite, hwrite', hnext⟩ :=
      (hroom.writeCells offset cells).exists_eq
    simp only [hwrite, hwrite']
    cases answer with
    | error e => exact ⟨rfl, hnext⟩
    | ok _ =>
      have hset : Relabelled r { next with fill := next.fill.set offset }
          { next' with fill := next'.fill.set offset } :=
        { hnext with fill := congrArg (·.set offset) hnext.fill }
      exact ⟨rfl, hset.foldl_reindex hs hd offset cells⟩

theorem update (h : Relabelled r chunk chunk') (hs : Schema.Relabelled r schema schema')
    (hd : Moved r.column dictionaries dictionaries') (offset slot : ℕ) (column : Column)
    (cell : Option Cell) :
    Alike (Relabelled r) (chunk.update schema dictionaries offset slot column cell)
      (chunk'.update schema' dictionaries' offset (r.column slot) column cell) := by
  obtain ⟨answer, next, next', hwrite, hwrite', hnext⟩ :=
    ((h.sync hs).writeCell slot column.name offset cell).exists_eq
  simp only [Chunk.update, hwrite, hwrite']
  cases answer with
  | error e => exact ⟨rfl, hnext⟩
  | ok _ => exact ⟨rfl, hnext.reindex hs hd offset slot⟩

theorem deleteSelected (h : Relabelled r chunk chunk') (selection : Bitmap) :
    Alike (Relabelled r) (chunk.deleteSelected selection) (chunk'.deleteSelected selection) := by
  simp only [Chunk.deleteSelected, h.fill]
  split_ifs
  · exact ⟨rfl, h⟩
  · exact ⟨rfl, h.chunkSize, h.capacity, rfl, h.columns.map _, h.indexes.map _⟩

theorem delete (h : Relabelled r chunk chunk') (offset : ℕ) :
    Alike (Relabelled r) (chunk.delete offset) (chunk'.delete offset) := by
  unfold Chunk.delete
  rw [h.fill]
  split_ifs
  · obtain ⟨removed, next, next', heq, heq', hnext⟩ :=
      (h.deleteSelected (Bitmap.empty.set offset)).exists_eq
    rw [heq, heq']
    exact ⟨rfl, hnext⟩
  · exact ⟨rfl, h⟩

end Relabelled

end Chunk

end ColumnStore
