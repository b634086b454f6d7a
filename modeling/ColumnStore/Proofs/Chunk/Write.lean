import ColumnStore.Proofs.Chunk

/-!
# Writing to a chunk

Every write is described by what it does to the live offsets, the cells and the index bits:

* `WellFormed.insert`: a row can be written at every offset below the chunk size; it becomes live,
  its cells are put in place, and the indexes over their columns are asked anew (`Inserted`);
* `WellFormed.update`: so can one cell of a row that has room (`Updated`).

Both keep every attached index in step with its source (`Inserted.indexed`, `Updated.indexed`).
-/

namespace ColumnStore

namespace Index

/-- What a write makes of a row's bit: an attached index asks its predicate, and the row leaves a
    detached one. -/
def answer (index : Index) (dictionary : Dictionary) (cell : Option Cell) : Bool :=
  (index.evaluateCell dictionary cell).getD false

theorem answer_of_attached {index : Index} {predicate : Value → Bool}
    (h : index.predicate = some predicate) (dictionary : Dictionary) (cell : Option Cell) :
    index.answer dictionary cell = hits predicate dictionary cell := by
  rw [answer, evaluateCell_of_attached h, Option.getD_some]

end Index

namespace Chunk

variable {chunkSize : Nat} {schema : Schema} {dictionaries : Array Dictionary} {chunk : Chunk}

/-! ## One cell -/

/-- The chunk with a cell, or none, in place. -/
def putCell (chunk : Chunk) (slot offset : Nat) (cell : Option Cell) : Chunk :=
  { chunk with columns := chunk.columns.modify slot fun s => s.write offset cell }

/-- A cell that the column in a slot can hold. -/
def Storable (schema : Schema) (dictionaries : Array Dictionary) (slot : Nat) (cell : Cell) :
    Prop :=
  (∃ column, schema.columns[slot]? = some column ∧ cell.kind = column.kind) ∧
    cell.Known (dictionaryOf dictionaries slot)

theorem WellFormed.segment_kind (h : chunk.WellFormed chunkSize schema dictionaries)
    {slot : Nat} {segment : Segment} (hsegment : chunk.columns[slot]? = some segment)
    {cell : Option Cell} (hcell : ∀ c ∈ cell, Storable schema dictionaries slot c) :
    ∃ kind, segment.WellFormed kind chunk.capacity ∧ ∀ c ∈ cell, c.kind = kind := by
  obtain ⟨column, hcolumn, hs⟩ := h.column slot segment hsegment
  refine ⟨column.kind, hs, fun c hc => ?_⟩
  obtain ⟨⟨found, hfound, hkind⟩, -⟩ := hcell c hc
  rw [hcolumn] at hfound
  cases hfound
  exact hkind

theorem WellFormed.writeCell_eq (h : chunk.WellFormed chunkSize schema dictionaries)
    {slot offset : Nat} (hslot : slot < chunk.columns.size) (hlt : offset < chunk.capacity)
    {cell : Option Cell} (hcell : ∀ c ∈ cell, Storable schema dictionaries slot c) (name : String) :
    chunk.writeCell slot name offset cell = (.ok (), chunk.putCell slot offset cell) := by
  have hsegment : chunk.columns[slot]? = some chunk.columns[slot] :=
    Array.getElem?_eq_getElem hslot
  obtain ⟨kind, hs, hkind⟩ := h.segment_kind hsegment hcell
  unfold writeCell
  simp only [hsegment, hs.checkWrite_of_lt hlt hkind]
  rfl

theorem WellFormed.cell?_putCell (h : chunk.WellFormed chunkSize schema dictionaries)
    {slot offset : Nat} (hslot : slot < chunk.columns.size) (hlt : offset < chunk.capacity)
    {cell : Option Cell} (hcell : ∀ c ∈ cell, Storable schema dictionaries slot c)
    (slot' offset' : Nat) :
    (chunk.putCell slot offset cell).cell? slot' offset' =
      if slot' = slot ∧ offset' = offset then cell else chunk.cell? slot' offset' := by
  rw [cell?, cell?, putCell, Array.getElem?_modify]
  by_cases hs : slot = slot'
  · subst hs
    have hsegment : chunk.columns[slot]? = some chunk.columns[slot] :=
      Array.getElem?_eq_getElem hslot
    obtain ⟨kind, hs, hkind⟩ := h.segment_kind hsegment hcell
    rw [if_pos rfl, hsegment, Option.map_some, Option.bind_some, Option.bind_some,
      hs.cell?_write hlt hkind]
    simp only [true_and, eq_comm]
  · rw [if_neg hs, if_neg (by rintro ⟨rfl, -⟩; exact hs rfl)]

/-- Writing a cell keeps the parts in step. -/
theorem Lockstep.putCell (h : chunk.Lockstep chunkSize schema) {offset : Nat}
    (hlt : offset < chunk.capacity) (slot : Nat) (cell : Option Cell) :
    (chunk.putCell slot offset cell).Lockstep chunkSize schema :=
  { h with
    column := fun slot' segment hsegment => by
      rw [Chunk.putCell, Array.getElem?_modify] at hsegment
      split_ifs at hsegment
      · obtain ⟨old, hold, rfl⟩ := Option.map_eq_some_iff.mp hsegment
        obtain ⟨column, hcolumn, hs⟩ := h.column slot' old hold
        exact ⟨column, hcolumn, hs.write hlt cell⟩
      · exact h.column slot' segment hsegment
    columns_size_le := (Array.size_modify ..).trans_le h.columns_size_le }

theorem WellFormed.putCell (h : chunk.WellFormed chunkSize schema dictionaries)
    {slot offset : Nat} (hslot : slot < chunk.columns.size) (hlt : offset < chunk.capacity)
    {cell : Option Cell} (hcell : ∀ c ∈ cell, Storable schema dictionaries slot c) :
    (chunk.putCell slot offset cell).WellFormed chunkSize schema dictionaries :=
  { h.lockstep.putCell hlt slot cell with
    known := fun slot' offset' found hfound => by
      rw [h.cell?_putCell hslot hlt hcell] at hfound
      split_ifs at hfound with heq
      · rw [heq.1]
        exact (hcell found hfound).2
      · exact h.known slot' offset' found hfound
    indexes_size := h.indexes_size }

/-! ## The cells of a row -/

/-- The cell that a list of writes leaves in a slot: the last one for it. -/
def written (slot : Nat) : List (Nat × Cell) → Option Cell
  | [] => none
  | (s, cell) :: rest => (written slot rest).or (if s = slot then some cell else none)

theorem written_eq_none_iff {slot : Nat} {cells : List (Nat × Cell)} :
    written slot cells = none ↔ slot ∉ cells.map Prod.fst := by
  induction cells with
  | nil => simp [written]
  | cons entry rest ih =>
    rw [written, Option.or_eq_none_iff, ih, List.map_cons, List.mem_cons, not_or, and_comm]
    refine and_congr_left fun _ => ?_
    split_ifs with h
    · simp [h]
    · simp [Ne.symm h]

theorem mem_of_written {slot : Nat} {cells : List (Nat × Cell)} {cell : Cell}
    (h : written slot cells = some cell) : (slot, cell) ∈ cells := by
  induction cells with
  | nil => cases h
  | cons entry rest ih =>
    obtain ⟨first, found⟩ := entry
    rw [written, Option.or_eq_some_iff] at h
    rcases h with hrest | ⟨-, hfirst⟩
    · exact List.mem_cons_of_mem _ (ih hrest)
    · split_ifs at hfirst with heq
      cases hfirst
      rw [heq]
      exact List.mem_cons_self

theorem WellFormed.writeCells (h : chunk.WellFormed chunkSize schema dictionaries)
    (hcolumns : chunk.columns.size = schema.columns.size) {offset : Nat}
    (hlt : offset < chunk.capacity) {cells : List (Nat × Cell)}
    (hcells : ∀ entry ∈ cells, Storable schema dictionaries entry.1 entry.2) :
    ∃ chunk', chunk.writeCells offset cells = (.ok (), chunk') ∧
      chunk'.WellFormed chunkSize schema dictionaries ∧ chunk'.capacity = chunk.capacity ∧
      chunk'.fill = chunk.fill ∧ chunk'.indexes = chunk.indexes ∧
      ∀ slot' offset', chunk'.cell? slot' offset' =
        if offset' = offset then (written slot' cells).or (chunk.cell? slot' offset')
        else chunk.cell? slot' offset' := by
  induction cells generalizing chunk with
  | nil => exact ⟨chunk, rfl, h, rfl, rfl, rfl, fun _ _ => by simp [written]⟩
  | cons entry rest ih =>
    obtain ⟨slot, cell⟩ := entry
    have hcell : ∀ c ∈ some cell, Storable schema dictionaries slot c := by
      rintro c ⟨⟩
      exact hcells (slot, cell) List.mem_cons_self
    have hslot : slot < chunk.columns.size := by
      obtain ⟨⟨column, hcolumn, -⟩, -⟩ := hcell cell rfl
      rw [hcolumns]
      exact (Array.getElem?_eq_some_iff.mp hcolumn).1
    have hput := h.putCell hslot hlt hcell
    obtain ⟨chunk', hwrite, hwf, hcap, hfill, hindexes, hview⟩ :=
      ih hput ((Array.size_modify ..).trans hcolumns) hlt
        fun entry hentry => hcells entry (List.mem_cons_of_mem _ hentry)
    refine ⟨chunk', ?_, hwf, hcap, hfill, hindexes, fun slot' offset' => ?_⟩
    · rw [Chunk.writeCells, h.writeCell_eq hslot hlt hcell]
      exact hwrite
    · rw [hview, h.cell?_putCell hslot hlt hcell, written]
      by_cases hoffset : offset' = offset
      · by_cases heq : slot = slot'
        · cases written slot' rest <;> simp [hoffset, heq]
        · cases written slot' rest <;> simp [hoffset, heq, Ne.symm heq]
      · simp [hoffset]

/-! ## Index bits -/

theorem mem_indexesOn {source slot : Nat} {index : Index} :
    (slot, index) ∈ schema.indexesOn source ↔
      schema.indexes[slot]? = some index ∧ index.sourceSlot = source := by
  rw [Schema.indexesOn, List.mem_filter]
  refine and_congr ?_ (by simp)
  rw [List.mem_map]
  constructor
  · rintro ⟨⟨found, i⟩, hmem, heq⟩
    cases heq
    exact Schema.mem_zipIdx_iff.mp hmem
  · intro h
    exact ⟨(index, slot), Schema.mem_zipIdx_iff.mpr h, rfl⟩

theorem indexesOn_nodup (schema : Schema) (source : Nat) :
    ((schema.indexesOn source).map Prod.fst).Nodup := by
  rw [Schema.indexesOn]
  refine List.Nodup.sublist (List.filter_sublist.map Prod.fst) ?_
  rw [List.map_map]
  show (schema.indexes.toList.zipIdx.map Prod.snd).Nodup
  rw [List.zipIdx_map_snd]
  exact List.nodup_range'

/-- Changing elements one by one, each place once. -/
theorem getElem?_foldl_modify {α β : Type} (f : β → α → α) {places : List (Nat × β)}
    (hnodup : (places.map Prod.fst).Nodup) (xs : Array α) (i : Nat) :
    (∀ b, (i, b) ∈ places →
      (places.foldl (fun xs p => xs.modify p.1 (f p.2)) xs)[i]? = xs[i]?.map (f b)) ∧
    ((∀ b, (i, b) ∉ places) →
      (places.foldl (fun xs p => xs.modify p.1 (f p.2)) xs)[i]? = xs[i]?) := by
  induction places generalizing xs with
  | nil => simp
  | cons p rest ih =>
    obtain ⟨j, b⟩ := p
    rw [List.map_cons, List.nodup_cons] at hnodup
    obtain ⟨hj, hnodup⟩ := hnodup
    obtain ⟨hin, hout⟩ := ih hnodup (xs.modify j (f b))
    have hhead : (xs.modify j (f b))[i]? = if j = i then xs[i]?.map (f b) else xs[i]? :=
      Array.getElem?_modify
    simp only [List.foldl_cons]
    refine ⟨fun b' hb' => ?_, fun hnone => ?_⟩
    · rcases List.mem_cons.mp hb' with heq | hmem
      · cases heq
        rw [hout fun b' hb' => hj (List.mem_map.mpr ⟨(i, b'), hb', rfl⟩), hhead, if_pos rfl]
      · rw [hin b' hmem, hhead, if_neg]
        rintro rfl
        exact hj (List.mem_map.mpr ⟨(j, b'), hmem, rfl⟩)
    · rw [hout fun b' hb' => hnone b' (List.mem_cons_of_mem _ hb'), hhead, if_neg]
      rintro rfl
      exact hnone b List.mem_cons_self

/-- The bits after the indexes over some columns were asked anew for one offset. -/
def reasked (chunk : Chunk) (schema : Schema) (dictionaries : Array Dictionary) (offset : Nat)
    (sources : List Nat) (slot offset' : Nat) : Bool :=
  match schema.indexes[slot]? with
  | some index =>
    if offset' = offset ∧ index.sourceSlot ∈ sources then
      index.answer (dictionaryOf dictionaries index.sourceSlot)
        (chunk.cell? index.sourceSlot offset)
    else chunk.marks slot offset'
  | none => chunk.marks slot offset'

/-- The index bitmaps after the indexes over a column were asked about a cell. -/
def assignAnswers (schema : Schema) (dictionary : Dictionary) (offset source : Nat)
    (cell : Option Cell) (indexes : Array Bitmap) : Array Bitmap :=
  (schema.indexesOn source).foldl (fun indexes p => indexes.modify p.1 fun bits =>
    bits.assign offset (p.2.answer dictionary cell)) indexes

/-- The cell that the indexes over a column are asked about. -/
def askedCell (chunk : Chunk) (source offset : Nat) : Option Cell :=
  match chunk.columns[source]? with
  | some segment => (segment.valueAt offset).toOption.join
  | none => none

theorem WellFormed.askedCell_eq (h : chunk.WellFormed chunkSize schema dictionaries) {offset : Nat}
    (hlt : offset < chunk.capacity) (source : Nat) :
    chunk.askedCell source offset = chunk.cell? source offset := by
  unfold askedCell cell?
  cases hsegment : chunk.columns[source]? with
  | none => rfl
  | some segment =>
    obtain ⟨column, -, hs⟩ := h.column source segment hsegment
    simp only [hs.valueAt_of_lt hlt]
    cases hc : segment.cell? offset <;> simp [hc, Except.toOption]

/-- Reindexing, under the chunk's schema or another, asks the indexes that are over the column. -/
theorem WellFormed.reindex_eq (h : chunk.WellFormed chunkSize schema dictionaries)
    {under : Schema} {offset : Nat} (hlt : offset < chunk.capacity) (source : Nat) :
    chunk.reindex under dictionaries offset source =
      { chunk with
        indexes := assignAnswers under (dictionaryOf dictionaries source) offset source
          (chunk.cell? source offset) chunk.indexes } := by
  rw [← h.askedCell_eq hlt]
  rfl

theorem WellFormed.marks_reindex (h : chunk.WellFormed chunkSize schema dictionaries)
    {under : Schema} (hext : under.Extends schema) {offset : Nat} (hlt : offset < chunk.capacity)
    (source slot offset' : Nat) :
    (chunk.reindex under dictionaries offset source).marks slot offset' =
      chunk.reasked under dictionaries offset [source] slot offset' := by
  obtain ⟨hin, hout⟩ := getElem?_foldl_modify
    (fun (index : Index) (bits : Bitmap) => bits.assign offset
      (index.answer (dictionaryOf dictionaries source) (chunk.cell? source offset)))
    (indexesOn_nodup under source) chunk.indexes slot
  rw [h.reindex_eq hlt]
  unfold reasked marks assignAnswers
  cases hindex : under.indexes[slot]? with
  | none =>
    rw [hout fun index hmem => by rw [mem_indexesOn, hindex] at hmem; cases hmem.1]
  | some index =>
    by_cases hsource : index.sourceSlot = source
    · have hlt' : slot < chunk.indexes.size := by
        rw [h.indexes_size]
        exact (Array.getElem?_eq_some_iff.mp hindex).1.trans_le hext.indexes_size_le
      rw [hin index (mem_indexesOn.mpr ⟨hindex, hsource⟩), Array.getElem?_eq_getElem hlt']
      simp only [Option.map_some, Option.any_some, Bitmap.contains_assign, hsource,
        List.mem_singleton, and_true, eq_comm]
    · rw [hout fun other hmem => by
        rw [mem_indexesOn, hindex] at hmem
        obtain ⟨heq, hs⟩ := hmem
        cases heq
        exact hsource hs]
      simp [hsource]

theorem WellFormed.reindex (h : chunk.WellFormed chunkSize schema dictionaries)
    {under : Schema} {offset : Nat} (hlt : offset < chunk.capacity) (source : Nat) :
    (chunk.reindex under dictionaries offset source).WellFormed chunkSize schema dictionaries := by
  rw [h.reindex_eq hlt]
  -- each step of the fold keeps the number of bitmaps and what they have room for
  have hfold : ∀ (places : List (Nat × Index)) (indexes : Array Bitmap) (cell : Option Cell),
      indexes.size = schema.indexes.size →
      (∀ (slot : Nat) bits, indexes[slot]? = some bits → bits.Fits chunk.capacity) →
      (places.foldl (fun indexes p => indexes.modify p.1 fun bits => bits.assign offset
        (p.2.answer (dictionaryOf dictionaries source) cell)) indexes).size =
        schema.indexes.size ∧
      ∀ (slot : Nat) bits, (places.foldl (fun indexes p => indexes.modify p.1 fun bits =>
        bits.assign offset (p.2.answer (dictionaryOf dictionaries source) cell)) indexes)[slot]? =
          some bits → bits.Fits chunk.capacity := by
    intro places
    induction places with
    | nil => exact fun _ _ hsize hfits => ⟨hsize, hfits⟩
    | cons p rest ih =>
      intro indexes cell hsize hfits
      refine ih _ cell ((Array.size_modify ..).trans hsize) fun slot bits hbits => ?_
      rw [Array.getElem?_modify] at hbits
      split_ifs at hbits
      · obtain ⟨old, hold, rfl⟩ := Option.map_eq_some_iff.mp hbits
        exact (hfits slot old hold).assign hlt _
      · exact hfits slot bits hbits
  obtain ⟨hsize, hfits⟩ := hfold (under.indexesOn source) chunk.indexes
    (chunk.cell? source offset) h.indexes_size h.index
  exact { h with indexes_size := hsize, index := hfits }

/-- Asking the indexes over several columns, one column after the other. -/
theorem WellFormed.foldl_reindex (h : chunk.WellFormed chunkSize schema dictionaries) {offset : Nat}
    (hlt : offset < chunk.capacity) (cells : List (Nat × Cell)) :
    ∃ chunk', cells.foldl (fun chunk p => chunk.reindex schema dictionaries offset p.1) chunk =
        chunk' ∧
      chunk'.WellFormed chunkSize schema dictionaries ∧ chunk'.fill = chunk.fill ∧
      chunk'.columns = chunk.columns ∧
      ∀ slot offset', chunk'.marks slot offset' =
        chunk.reasked schema dictionaries offset (cells.map Prod.fst) slot offset' := by
  induction cells generalizing chunk with
  | nil =>
    refine ⟨chunk, rfl, h, rfl, rfl, fun slot offset' => ?_⟩
    rw [reasked]
    cases schema.indexes[slot]? <;> simp
  | cons entry rest ih =>
    obtain ⟨source, cell⟩ := entry
    have hcolumns : (chunk.reindex schema dictionaries offset source).columns = chunk.columns := rfl
    obtain ⟨chunk', heq, hwf, hfill, hcols, hmarks⟩ :=
      ih (h.reindex hlt source) (show offset < chunk.capacity from hlt)
    refine ⟨chunk', heq, hwf, hfill, hcols.trans hcolumns, fun slot offset' => ?_⟩
    have hcell : ∀ s, (chunk.reindex schema dictionaries offset source).cell? s offset =
        chunk.cell? s offset := fun _ => rfl
    rw [hmarks, reasked, reasked]
    simp only [h.marks_reindex (Schema.Extends.refl schema) hlt, hcell, reasked]
    cases schema.indexes[slot]? with
    | none => rfl
    | some index =>
      simp only [List.map_cons, List.mem_cons, List.not_mem_nil, or_false]
      split_ifs <;> first | rfl | (exfalso; tauto)

/-! ## Inserting a row -/

/-- What inserting a row does. -/
structure Inserted (schema : Schema) (dictionaries : Array Dictionary) (offset : Nat)
    (cells : List (Nat × Cell)) (chunk chunk' : Chunk) : Prop where
  fill : ∀ offset', chunk'.fill.contains offset' =
    (decide (offset = offset') || chunk.fill.contains offset')
  cell? : ∀ slot offset', chunk'.cell? slot offset' =
    if offset' = offset then (written slot cells).or (chunk.cell? slot offset')
    else chunk.cell? slot offset'
  marks : ∀ (slot : Nat) offset', chunk'.marks slot offset' =
    match schema.indexes[slot]? with
    | some index =>
      if offset' = offset ∧ index.sourceSlot ∈ cells.map Prod.fst then
        index.answer (dictionaryOf dictionaries index.sourceSlot)
          (chunk'.cell? index.sourceSlot offset)
      else chunk.marks slot offset'
    | none => chunk.marks slot offset'

/-- A row can be inserted at every offset below the chunk size. -/
theorem WellFormed.insert (h : chunk.WellFormed chunkSize schema dictionaries) {offset : Nat}
    (hlt : offset < chunkSize) {cells : List (Nat × Cell)}
    (hcells : ∀ entry ∈ cells, Storable schema dictionaries entry.1 entry.2) :
    ∃ chunk', chunk.insert schema dictionaries offset cells = (.ok (), chunk') ∧
      chunk'.WellFormed chunkSize schema dictionaries ∧
      Inserted schema dictionaries offset cells chunk chunk' := by
  obtain ⟨grown, hgrow, hgrown, hsame, hsize, hroom⟩ := h.sync_self.growFor hlt
  have hold := (sync_same chunk schema).trans hsame
  obtain ⟨filled, hwrite, hfilled, hcap, hfill, hindexes, hview⟩ :=
    hgrown.writeCells (hsize.trans h.sync_columns_size) hroom hcells
  have hlive : ({ filled with fill := filled.fill.set offset } : Chunk).WellFormed chunkSize schema
      dictionaries := { hfilled with fill := hfilled.fill.set (by rw [hcap]; exact hroom) }
  obtain ⟨chunk', heq, hwf, hfill', hcolumns, hmarks⟩ :=
    hlive.foldl_reindex (show offset < filled.capacity by rw [hcap]; exact hroom) cells
  refine ⟨chunk', ?_, hwf, ?_, ?_, ?_⟩
  · unfold Chunk.insert
    rw [hgrow]
    simp only
    rw [hwrite]
    simp only
    rw [← heq]
  · intro offset'
    rw [hfill', Bitmap.contains_set, hfill, hold.fill]
  · intro slot offset'
    have hcell : chunk'.cell? slot offset' = filled.cell? slot offset' := by
      rw [Chunk.cell?, Chunk.cell?, hcolumns]
    rw [hcell, hview, hold.cell?]
  · intro slot offset'
    have hcell : ∀ s, chunk'.cell? s offset = filled.cell? s offset := fun s => by
      rw [Chunk.cell?, Chunk.cell?, hcolumns]
    have hmark : filled.marks slot offset' = chunk.marks slot offset' := by
      rw [Chunk.marks, hindexes]
      exact hold.marks slot offset'
    rw [hmarks, reasked]
    cases schema.indexes[slot]? with
    | none => exact hmark
    | some index =>
      simp only [hcell]
      split_ifs
      · rfl
      · exact hmark

/-- Inserting a row keeps the attached indexes in step with their sources. -/
theorem Inserted.indexed {offset : Nat} {cells : List (Nat × Cell)} {chunk' : Chunk}
    (hins : Inserted schema dictionaries offset cells chunk chunk')
    (h : chunk.Indexed schema dictionaries) : chunk'.Indexed schema dictionaries := by
  intro slot index predicate hindex hpredicate offset'
  have hbit := hins.marks slot offset'
  simp only [hindex] at hbit
  rw [hbit]
  split_ifs with hcase
  · rw [Index.answer_of_attached hpredicate, hcase.1]
  · rw [h slot index predicate hindex hpredicate offset', hins.cell?]
    split_ifs with hoffset
    · -- no cell of the source was written
      have hnone : written index.sourceSlot cells = none :=
        written_eq_none_iff.mpr fun hmem => hcase ⟨hoffset, hmem⟩
      rw [hnone, Option.none_or]
    · rfl

/-! ## Overwriting one cell -/

/-- What overwriting one cell does. -/
structure Updated (schema : Schema) (dictionaries : Array Dictionary) (offset slot : Nat)
    (cell : Option Cell) (chunk chunk' : Chunk) : Prop where
  fill : ∀ offset', chunk'.fill.contains offset' = chunk.fill.contains offset'
  cell? : ∀ slot' offset', chunk'.cell? slot' offset' =
    if slot' = slot ∧ offset' = offset then cell else chunk.cell? slot' offset'
  marks : ∀ (slot' : Nat) offset', chunk'.marks slot' offset' =
    match schema.indexes[slot']? with
    | some index =>
      if offset' = offset ∧ index.sourceSlot = slot then
        index.answer (dictionaryOf dictionaries slot) cell
      else chunk.marks slot' offset'
    | none => chunk.marks slot' offset'

/-- One cell of every row that the chunk has room for can be overwritten, under the chunk's schema
    or an older one that has the column. -/
theorem WellFormed.update_eq (h : chunk.WellFormed chunkSize schema dictionaries) {older : Schema}
    (hext : older.Extends schema) {offset slot : Nat} (hlt : offset < chunk.capacity)
    (hslot : slot < older.columns.size) {cell : Option Cell}
    (hcell : ∀ c ∈ cell, Storable schema dictionaries slot c) (column : Column) :
    chunk.update older dictionaries offset slot column cell =
        (.ok (), ((chunk.sync older).putCell slot offset cell).reindex older dictionaries offset
          slot) ∧
      (((chunk.sync older).putCell slot offset cell).reindex older dictionaries offset
        slot).WellFormed chunkSize schema dictionaries := by
  have hsync := h.sync_older hext
  have hslot' : slot < (chunk.sync older).columns.size := by
    rw [Chunk.sync_columns_size]
    omega
  have hput := hsync.putCell hslot' (show offset < (chunk.sync older).capacity from hlt) hcell
  refine ⟨?_, hput.reindex (show offset < chunk.capacity from hlt) slot⟩
  unfold Chunk.update
  rw [hsync.writeCell_eq hslot' hlt hcell]

/-- What overwriting a cell does: the indexes that the older schema has are asked, and no others. -/
theorem WellFormed.update (h : chunk.WellFormed chunkSize schema dictionaries) {older : Schema}
    (hext : older.Extends schema) {offset slot : Nat} (hlt : offset < chunk.capacity)
    (hslot : slot < older.columns.size) {cell : Option Cell}
    (hcell : ∀ c ∈ cell, Storable schema dictionaries slot c) (column : Column) :
    ∃ chunk', chunk.update older dictionaries offset slot column cell = (.ok (), chunk') ∧
      chunk'.WellFormed chunkSize schema dictionaries ∧ chunk'.capacity = chunk.capacity ∧
      Updated older dictionaries offset slot cell chunk chunk' := by
  obtain ⟨hupdate, hwf⟩ := h.update_eq hext hlt hslot hcell column
  have hsync := h.sync_older hext
  have hslot' : slot < (chunk.sync older).columns.size := by
    rw [Chunk.sync_columns_size]
    omega
  have hsame := sync_same chunk older
  have hput := hsync.putCell hslot' (show offset < (chunk.sync older).capacity from hlt) hcell
  have hview := hsync.cell?_putCell hslot'
    (show offset < (chunk.sync older).capacity from hlt) hcell
  refine ⟨_, hupdate, hwf, rfl, hsame.fill, fun slot' offset' => ?_, fun slot' offset' => ?_⟩
  · show ((chunk.sync older).putCell slot offset cell).cell? slot' offset' = _
    rw [hview, hsame.cell?]
  · have hmark : ((chunk.sync older).putCell slot offset cell).marks slot' offset' =
        chunk.marks slot' offset' := hsame.marks slot' offset'
    rw [hput.marks_reindex hext (show offset < chunk.capacity from hlt), reasked, hmark]
    cases older.indexes[slot']? with
    | none => rfl
    | some index =>
      simp only [List.mem_singleton, hview]
      by_cases hsource : index.sourceSlot = slot <;> simp [hsource]

/-- Overwriting a cell keeps the attached indexes in step with their sources. -/
theorem Updated.indexed {offset slot : Nat} {cell : Option Cell} {chunk' : Chunk}
    (hupd : Updated schema dictionaries offset slot cell chunk chunk')
    (h : chunk.Indexed schema dictionaries) : chunk'.Indexed schema dictionaries := by
  intro slot' index predicate hindex hpredicate offset'
  have hbit := hupd.marks slot' offset'
  simp only [hindex] at hbit
  rw [hbit, hupd.cell?]
  by_cases hcase : offset' = offset ∧ index.sourceSlot = slot
  · rw [if_pos hcase, if_pos hcase.symm, Index.answer_of_attached hpredicate, hcase.2]
  · rw [if_neg hcase, if_neg fun hc => hcase hc.symm]
    exact h slot' index predicate hindex hpredicate offset'

end Chunk

end ColumnStore
