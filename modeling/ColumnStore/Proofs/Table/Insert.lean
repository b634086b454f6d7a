import ColumnStore.Proofs.Table

/-!
# Inserting records

A record is refused because of its first field that does not fit (`checkFields_eq`), and then the
table is as it was. Otherwise the insertion succeeds, whatever the table (`WellFormed.insert`): the
next row is live and holds the last present value given for each column, and all other rows are as
they were (`Inserted`).
-/

namespace ColumnStore

namespace Table

open Selection (row_eq_iff)

variable {config : Config} {table : Table}

/-! ## The fields of a record -/

/-- A field that its column cannot store. -/
def illTyped (field : Nat × Column × Value) : Bool := !field.2.1.kind.accepts field.2.2

theorem checkFields_eq (fields : List (Nat × Column × Value)) :
    checkFields fields =
      match fields.find? illTyped with
      | none => .ok ()
      | some (_, column, value) => .error (column.mismatch value) := by
  induction fields with
  | nil => rfl
  | cons field rest ih =>
    obtain ⟨slot, column, value⟩ := field
    rw [checkFields, Column.check, List.find?_cons, illTyped]
    cases haccepts : column.kind.accepts value with
    | false => rfl
    | true =>
      simp only [Bool.not_true, if_true]
      exact ih

theorem mem_fields {schema : Schema} {record : Record} {slot : Nat} {column : Column}
    {value : Value} (h : (slot, column, value) ∈ fields schema record) :
    schema.columns[slot]? = some column := by
  obtain ⟨⟨name, v⟩, -, heq⟩ := List.mem_filterMap.mp h
  obtain ⟨⟨slot', column'⟩, hfound, heq⟩ := Option.map_eq_some_iff.mp heq
  cases heq
  exact (Schema.exists_of_column? hfound).1

/-- The value that a list of fields leaves in a slot: the last one for it that is not `null`. -/
def stored (slot : Nat) : List (Nat × Column × Value) → Option Value
  | [] => none
  | (s, _, value) :: rest => (stored slot rest).or (if s = slot then value.present? else none)

/-- Fields that their columns accept are encoded, all of them. -/
theorem encodeFields_of_accepts {schema : Schema} {dictionaries : Array Dictionary}
    (hsize : dictionaries.size = schema.columns.size) {fields : List (Nat × Column × Value)}
    (hcolumns : ∀ slot column value, (slot, column, value) ∈ fields →
      schema.columns[slot]? = some column)
    (haccepts : ∀ field ∈ fields, illTyped field = false) :
    ∃ cells dictionaries', encodeFields dictionaries fields = (.ok cells, dictionaries') ∧
      Column.AllExtend dictionaries dictionaries' ∧
      ((∀ d ∈ dictionaries, d.WellFormed) → ∀ d ∈ dictionaries', d.WellFormed) ∧
      (∀ entry ∈ cells, Chunk.Storable schema dictionaries' entry.1 entry.2) ∧
      ∀ slot, (Chunk.written slot cells).map
        (Column.decode (Chunk.dictionaryOf dictionaries' slot)) = stored slot fields := by
  induction fields generalizing dictionaries with
  | nil =>
    exact ⟨[], dictionaries, rfl, Column.AllExtend.refl _, id, by simp, fun _ => rfl⟩
  | cons field rest ih =>
    obtain ⟨slot, column, value⟩ := field
    have hcolumn := hcolumns slot column value List.mem_cons_self
    have hslot : slot < dictionaries.size := by
      rw [hsize]
      exact (Array.getElem?_eq_some_iff.mp hcolumn).1
    have haccept : column.kind.accepts value = true := by
      simpa [illTyped] using haccepts _ List.mem_cons_self
    obtain ⟨cell, ds₁, hencode, hspec⟩ := Column.encodeAt_of_accepts haccept hslot
    obtain ⟨cells, ds₂, hrest, hext, hwf, hstorable, hvalues⟩ :=
      ih (hspec.allExtend.size.trans hsize)
        (fun s c v hmem => hcolumns s c v (List.mem_cons_of_mem _ hmem))
        fun f hf => haccepts f (List.mem_cons_of_mem _ hf)
    have hall := hspec.allExtend.trans hext
    have hwf' : (∀ d ∈ dictionaries, d.WellFormed) → ∀ d ∈ ds₂, d.WellFormed :=
      fun h => hwf (hspec.wellFormed h)
    have hvalue := hspec.value
    cases cell with
    | none =>
      refine ⟨cells, ds₂, by simp only [encodeFields, hencode, hrest], hall, hwf', hstorable,
        fun slot' => ?_⟩
      rw [stored, ← hvalues, ← hvalue]
      simp
    | some cell =>
      have hknown := hspec.known cell rfl
      refine ⟨(slot, cell) :: cells, ds₂, by simp only [encodeFields, hencode, hrest], hall, hwf',
        fun entry hentry => ?_, fun slot' => ?_⟩
      · rcases List.mem_cons.mp hentry with rfl | hmem
        · exact ⟨⟨column, hcolumn, hspec.kind cell rfl⟩, hknown.mono (hext.extends_ slot)⟩
        · exact hstorable entry hmem
      · rw [stored, ← hvalues, ← hvalue, Chunk.written, Option.map_or]
        congr 1
        split_ifs with heq
        · subst heq
          exact congrArg some (Column.decode_of_extends (hext.extends_ slot) hknown)
        · rfl

/-! ## Making room for a row -/

/-- The table with the chunk of the next row allocated. -/
def allocated (config : Config) (table : Table) : Table :=
  { table with
    chunks := allocate config table.schema table.chunks (table.nextRow / config.chunkSize) }

/-- At most one chunk is missing for the next row. -/
theorem WellFormed.allocated_cases (h : table.WellFormed config) :
    (table.nextRow / config.chunkSize < table.chunks.size ∧ table.allocated config = table) ∨
      table.nextRow / config.chunkSize = table.chunks.size ∧ ∃ capacity,
        table.allocated config = { table with
          chunks := table.chunks.push (Chunk.new config.chunkSize capacity table.schema) } := by
  have hle : table.nextRow / config.chunkSize ≤ table.chunks.size :=
    Nat.div_le_of_le_mul (by rw [Nat.mul_comm]; exact h.nextRow_le)
  unfold allocated allocate
  rcases Nat.lt_or_eq_of_le hle with hlt | heq
  · refine Or.inl ⟨hlt, ?_⟩
    rw [show table.nextRow / config.chunkSize + 1 - table.chunks.size = 0 by omega]
    rfl
  · refine Or.inr ⟨heq, presize config table.chunks.size, ?_⟩
    rw [heq, show table.chunks.size + 1 - table.chunks.size = 1 by omega]
    rfl

/-- A new chunk changes no row. -/
theorem WellFormed.allocated (h : table.WellFormed config) :
    (table.allocated config).WellFormed config ∧
      table.nextRow / config.chunkSize < (table.allocated config).chunks.size ∧
      table.chunks.size ≤ (table.allocated config).chunks.size ∧
      (∀ row, (table.allocated config).isLive config row = table.isLive config row) ∧
      (∀ slot row, (table.allocated config).cell? config slot row = table.cell? config slot row) ∧
      ∀ slot row, (table.allocated config).marks config slot row = table.marks config slot row := by
  rcases h.allocated_cases with ⟨hlt, heq⟩ | ⟨hid, capacity, heq⟩
  · rw [heq]
    exact ⟨h, hlt, le_rfl, fun _ => rfl, fun _ _ => rfl, fun _ _ => rfl⟩
  · have hsame := Chunk.same_new config.chunkSize capacity table.schema
    have hwf := Chunk.wellFormed_new (Config.chunkSize_of_usable h.usable).1 capacity table.schema
      table.dictionaries
    have hfill : ∀ offset, (Chunk.new config.chunkSize capacity table.schema).fill.contains offset =
        false := fun offset => (hsame.fill offset).trans (Bitmap.contains_empty offset)
    have hcount : (Chunk.new config.chunkSize capacity table.schema).fill.count = 0 := by
      rw [Bitmap.count_eq, List.length_eq_zero_iff, List.eq_nil_iff_forall_not_mem]
      intro offset hmem
      rw [Bitmap.mem_toList, hfill] at hmem
      cases hmem
    rw [heq]
    refine ⟨?_, by simp [hid], by simp, fun row => ?_, fun slot row => ?_, fun slot row => ?_⟩
    · refine { h with chunk := fun id chunk hchunk => ?_, nextRow_le := ?_, live_eq := ?_ }
      · simp only [Array.getElem?_push] at hchunk
        split_ifs at hchunk
        · cases hchunk
          exact ⟨hwf, (Chunk.indexed_of_empty _ _).of_same hsame, fun offset hoffset => by
            rw [hfill] at hoffset
            cases hoffset⟩
        · exact h.chunk id chunk hchunk
      · simp only [Array.size_push]
        exact h.nextRow_le.trans (Nat.mul_le_mul_right _ (Nat.le_succ _))
      · simp only [Array.toList_push, List.map_append, List.sum_append, List.map_cons, List.map_nil,
          List.sum_cons, List.sum_nil, hcount, Nat.add_zero]
        exact h.live_eq
    all_goals
      simp only [isLive, cell?, marks, Array.getElem?_push]
      split_ifs with hrow
      · rw [hrow, Array.getElem?_eq_none le_rfl]
        first
          | exact hfill _
          | exact hsame.cell? slot _
          | exact hsame.marks slot _
      · rfl

/-! ## The new row -/

/-- What inserting a record does to the rows. -/
structure Inserted (config : Config) (fields : List (Nat × Column × Value)) (table table' : Table) :
    Prop where
  schema_eq : table'.schema = table.schema
  chunks_size : table.chunks.size ≤ table'.chunks.size
  nextRow_eq : table'.nextRow = table.nextRow + 1
  live_eq : table'.live = table.live + 1
  isLive : ∀ row,
    table'.isLive config row = (decide (table.nextRow = row) || table.isLive config row)
  cellValue? : ∀ slot row, table'.cellValue? config slot row =
    if row = table.nextRow then (stored slot fields).or (table.cellValue? config slot row)
    else table.cellValue? config slot row
  marks : ∀ slot row, row ≠ table.nextRow →
    table'.marks config slot row = table.marks config slot row
  /-- A detached index is left by the new row if its source was written, and else has it or has it
      not as before. -/
  marks_detached : ∀ (slot : Nat) index, table.schema.indexes[slot]? = some index →
    index.predicate = none → table'.marks config slot table.nextRow =
      (table.marks config slot table.nextRow && (stored index.sourceSlot fields).isNone)

theorem insert_of_illTyped {record : Record} {slot : Nat} {column : Column} {value : Value}
    (h : (fields table.schema record).find? illTyped = some (slot, column, value)) :
    insert config record table = (.error (column.mismatch value), table) := by
  unfold insert
  simp only [checkFields_eq, h]

section Placed

-- the next row is put into its chunk, in a table with room for it
variable {room table' : Table} {dictionaries : Array Dictionary} {cells : List (Nat × Cell)}
  {chunk chunk' : Chunk}
  (hchunk : room.chunks[table.nextRow / config.chunkSize]? = some chunk)
  (hset : ∀ other : Nat, table'.chunks[other]? =
    if table.nextRow / config.chunkSize = other then some chunk' else room.chunks[other]?)
  (hins : Chunk.Inserted table.schema dictionaries (table.nextRow % config.chunkSize) cells chunk
    chunk')

include hchunk hset hins

theorem isLive_placed (row : Nat) :
    table'.isLive config row = (decide (table.nextRow = row) || room.isLive config row) := by
  rw [isLive_of_replaced hset]
  split_ifs with hrow
  · rw [isLive_of_row hchunk hrow, hins.fill]
    congr 1
    rw [Bool.eq_iff_iff, decide_eq_true_iff, decide_eq_true_iff]
    exact ⟨fun hmod => row_eq_iff.mpr ⟨hrow.symm, hmod⟩, fun heq => by rw [heq]⟩
  · have hne : ¬table.nextRow = row := fun heq => hrow (by rw [heq])
    rw [decide_eq_false hne, Bool.false_or]

theorem cell?_placed (slot row : Nat) :
    table'.cell? config slot row =
      if row = table.nextRow then (Chunk.written slot cells).or (room.cell? config slot row)
      else room.cell? config slot row := by
  rw [cell?_of_replaced hset]
  split_ifs with hrow heq heq
  · rw [cell?_of_row hchunk hrow, hins.cell?, if_pos (by rw [heq])]
  · rw [cell?_of_row hchunk hrow, hins.cell?, if_neg fun hmod => heq (row_eq_iff.mpr ⟨hrow, hmod⟩)]
  · exact absurd (by rw [heq]) hrow
  · rfl

theorem marks_placed (slot : Nat) {row : Nat} (hne : row ≠ table.nextRow) :
    table'.marks config slot row = room.marks config slot row := by
  rw [marks_of_replaced hset]
  split_ifs with hrow
  · have hmod : ¬row % config.chunkSize = table.nextRow % config.chunkSize :=
      fun hmod => hne (row_eq_iff.mpr ⟨hrow, hmod⟩)
    rw [marks_of_row hchunk hrow, hins.marks]
    cases table.schema.indexes[slot]? <;> simp [hmod]
  · rfl

theorem marks_placed_detached {slot : Nat} {index : Index}
    (hindex : table.schema.indexes[slot]? = some index) (hdetached : index.predicate = none) :
    table'.marks config slot table.nextRow =
      (room.marks config slot table.nextRow &&
        (Chunk.written index.sourceSlot cells).isNone) := by
  have hanswer : ∀ dictionary cell, index.answer dictionary cell = false := by
    intro dictionary cell
    rw [Index.answer, Index.evaluateCell, hdetached]
    rfl
  rw [marks_of_replaced hset, if_pos rfl, marks_of_row hchunk rfl, hins.marks, hindex]
  by_cases hwritten : index.sourceSlot ∈ cells.map Prod.fst
  · have hsome : Chunk.written index.sourceSlot cells ≠ none :=
      fun hnone => Chunk.written_eq_none_iff.mp hnone hwritten
    simp only [hwritten, hanswer, and_self, if_true, Option.isNone_eq_false_iff.mpr
      (Option.isSome_iff_ne_none.mpr hsome), Bool.and_false]
  · have hnone := Chunk.written_eq_none_iff.mpr hwritten
    simp only [hwritten, and_false, if_false, hnone, Option.isNone_none, Bool.and_true]

end Placed

/-- A record whose fields all fit is encoded, there is a chunk for the next row, and the chunk takes
    the cells. -/
theorem WellFormed.insert_chunk (h : table.WellFormed config) {record : Record}
    (haccepts : (fields table.schema record).find? illTyped = none) :
    ∃ cells dictionaries chunk chunk',
      encodeFields table.dictionaries (fields table.schema record) = (.ok cells, dictionaries) ∧
      (table.allocated config).chunks[table.nextRow / config.chunkSize]? = some chunk ∧
      chunk.insert table.schema dictionaries (table.nextRow % config.chunkSize) cells =
        (.ok (), chunk') ∧
      Column.AllExtend table.dictionaries dictionaries ∧
      (∀ d ∈ dictionaries, d.WellFormed) ∧
      chunk'.WellFormed config.chunkSize table.schema dictionaries ∧
      chunk'.Indexed table.schema dictionaries ∧
      Chunk.Inserted table.schema dictionaries (table.nextRow % config.chunkSize) cells chunk
        chunk' ∧
      ∀ slot, (Chunk.written slot cells).map
        (Column.decode (Chunk.dictionaryOf dictionaries slot)) =
          stored slot (fields table.schema record) := by
  have hfields : ∀ field ∈ fields table.schema record, illTyped field = false := by
    intro field hfield
    simpa using List.find?_eq_none.mp haccepts field hfield
  obtain ⟨cells, dictionaries, hencode, hext, hdict, hstorable, hvalues⟩ :=
    encodeFields_of_accepts h.dictionaries_size (fun s c v hmem => mem_fields hmem) hfields
  obtain ⟨hwf, hid, -⟩ := h.allocated
  have hget := Array.getElem?_eq_getElem hid
  have hchunk : ChunkOk config table.schema table.dictionaries table.nextRow _ _ :=
    hwf.chunk _ _ hget
  obtain ⟨chunk', hinsert, hwf', hins⟩ :=
    (hchunk.wellFormed.of_allExtend hext).insert (h.offset_lt table.nextRow) hstorable
  exact ⟨cells, dictionaries, _, chunk', hencode, hget, hinsert, hext, hdict h.dictionary, hwf',
    hins.indexed (hchunk.indexed.of_allExtend hchunk.wellFormed hext), hins, hvalues⟩

/-- A record that fits is inserted by putting its chunk in place. -/
theorem insert_of_chunk {record : Record}
    (haccepts : (fields table.schema record).find? illTyped = none) {cells : List (Nat × Cell)}
    {dictionaries : Array Dictionary} {chunk chunk' : Chunk}
    (hencode : encodeFields table.dictionaries (fields table.schema record) =
      (.ok cells, dictionaries))
    (hchunk : (table.allocated config).chunks[table.nextRow / config.chunkSize]? = some chunk)
    (hinsert : chunk.insert table.schema dictionaries (table.nextRow % config.chunkSize) cells =
      (.ok (), chunk')) :
    insert config record table =
      (.ok table.nextRow, { table with
        dictionaries
        chunks := (table.allocated config).chunks.setIfInBounds (table.nextRow / config.chunkSize)
          chunk'
        nextRow := table.nextRow + 1
        live := table.live + 1 }) := by
  obtain ⟨hid, hget⟩ := Array.getElem?_eq_some_iff.mp hchunk
  unfold Table.insert
  have hchunks : allocate config table.schema table.chunks (table.nextRow / config.chunkSize) =
      (table.allocated config).chunks := rfl
  simp only [checkFields_eq, haccepts, hencode, hchunks]
  rw [updateAt_of_lt _ _ _ _ hid, hget]
  simp only [hinsert]
  rw [Array.setIfInBounds, dif_pos hid]

/-- A record whose fields all fit is inserted. -/
theorem WellFormed.insert (h : table.WellFormed config) {record : Record}
    (haccepts : (fields table.schema record).find? illTyped = none) :
    ∃ table', insert config record table = (.ok table.nextRow, table') ∧
      table'.WellFormed config ∧ Inserted config (fields table.schema record) table table' := by
  obtain ⟨cells, dictionaries, chunk, chunk', hencode, hget, hinsert, hext, hdict', hwf', hindexed,
    hins, hvalues⟩ := h.insert_chunk haccepts
  have hinserted := insert_of_chunk haccepts hencode hget hinsert
  obtain ⟨hwf, hid, hsize, hlive, hcell, hmarks⟩ := h.allocated
  generalize hroom : table.allocated config = room at hwf hid hsize hlive hcell hmarks hget hinserted
  have hparts : room.schema = table.schema ∧ room.dictionaries = table.dictionaries ∧
      room.nextRow = table.nextRow ∧ room.live = table.live := by
    rw [← hroom]
    exact ⟨rfl, rfl, rfl, rfl⟩
  obtain ⟨hschema, hdictionaries, hnext, hcount⟩ := hparts
  have hchunk := hwf.chunk _ _ hget
  -- the row was not given out before
  have hfresh : chunk.fill.contains (table.nextRow % config.chunkSize) = false := by
    rw [← Bool.not_eq_true]
    intro hcontains
    have := hchunk.lt_nextRow _ hcontains
    rw [Nat.div_add_mod', hnext] at this
    omega
  have hfill := Bitmap.count_of_insert hins.fill hfresh
  have hok : ChunkOk config room.schema dictionaries (table.nextRow + 1)
      (table.nextRow / config.chunkSize) chunk' := by
    rw [hschema]
    refine ⟨hwf', hindexed, fun offset hcontains => ?_⟩
    rw [hins.fill, Bool.or_eq_true, decide_eq_true_iff] at hcontains
    rcases hcontains with rfl | hold
    · rw [Nat.div_add_mod']
      exact Nat.lt_succ_self _
    · have := hchunk.lt_nextRow offset hold
      omega
  have hle : table.nextRow + 1 ≤ room.chunks.size * config.chunkSize :=
    (Nat.div_lt_iff_lt_mul h.chunkSize_pos).mp hid
  have hset := hwf.setChunk hid (Array.getElem?_eq_some_iff.mp hget).2 (hdictionaries ▸ hext) hdict'
    hok (by omega) hle
    (show table.live + 1 + chunk.fill.count = room.live + chunk'.fill.count by omega)
  have hplaced : ∀ other : Nat,
      (room.chunks.set (table.nextRow / config.chunkSize) chunk')[other]? =
      if table.nextRow / config.chunkSize = other then some chunk' else room.chunks[other]? :=
    fun other => Array.getElem?_set ..
  refine ⟨_, ?_, hset, hschema, ?_, rfl, rfl, fun row => ?_, fun slot row => ?_,
    fun slot row hne => ?_, fun slot index hindex hdetached => ?_⟩
  · rw [hinserted, Array.setIfInBounds, dif_pos hid, hschema]
  · rw [Array.size_set]
    exact hsize
  · rw [isLive_placed hget hplaced hins, hlive]
  · rw [← hvalues, ← h.decode_of_allExtend hext, ← hcell, cellValue?,
      cell?_placed hget hplaced hins]
    split_ifs
    · exact Option.map_or
    · rfl
  · rw [marks_placed hget hplaced hins slot hne, hmarks]
  · rw [marks_placed_detached hget hplaced hins hindex hdetached, hmarks, ← hvalues,
      Option.isNone_map]

/-- Nothing is stored in the place of another row. -/
theorem Inserted.vacant {fields : List (Nat × Column × Value)} {table' : Table}
    (hins : Inserted config fields table table') {row : Nat} (hne : row ≠ table.nextRow)
    (hv : table.Vacant config row) : table'.Vacant config row where
  isLive := by rw [hins.isLive, hv.isLive, decide_eq_false (Ne.symm hne), Bool.or_false]
  cell? slot := by
    rw [← cellValue?_eq_none_iff, hins.cellValue?, if_neg hne, cellValue?_eq_none_iff, hv.cell?]
  marks slot := by rw [hins.marks slot row hne, hv.marks]

theorem Inserted.advances {fields : List (Nat × Column × Value)} {table' : Table}
    (hins : Inserted config fields table table') : Advances config table table' where
  extends_ := by
    rw [hins.schema_eq]
    exact Schema.Extends.refl _
  chunks_size := hins.chunks_size
  nextRow_le := by
    rw [hins.nextRow_eq]
    exact Nat.le_succ _
  live row hlive := Or.inl (by rw [hins.isLive, hlive, Bool.or_true])
  vacant _ hlt hv := hins.vacant (Nat.ne_of_lt hlt) hv

/-- Inserting keeps the rows that are not live empty. -/
theorem Inserted.tidy {fields : List (Nat × Column × Value)} {table' : Table}
    (hins : Inserted config fields table table') (h : table.Tidy config) : table'.Tidy config := by
  intro row hrow
  rw [hins.isLive, Bool.or_eq_false_iff, decide_eq_false_iff_not] at hrow
  exact hins.vacant (Ne.symm hrow.1) (h row hrow.2)

end Table

end ColumnStore
