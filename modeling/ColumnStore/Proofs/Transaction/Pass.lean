import ColumnStore.Proofs.Table
import ColumnStore.Proofs.Transaction.Visit

/-!
# Passes over a table

A table shows its rows as a list of maps (`Table.rows`). `Table.WellFormed.visitChunks`: a pass over
the chunks gives what the pass over that list gives, and leaves the list as that pass leaves it.
Rows that are not live are not touched (`Table.Visited`).
-/

namespace ColumnStore

namespace Table

open Selection (div_of_offset mod_of_offset row_eq_iff rowsFrom)

variable {config : Config} {table : Table}

/-! ## The rows as maps -/

/-- A row as a map. -/
def rowAt (config : Config) (table : Table) (row : Nat) : Row :=
  fun name => (table.schema.column? name).bind fun found => table.cellValue? config found.1 row

theorem rowAt_congr {table' : Table} {row : Nat} (hschema : table'.schema = table.schema)
    (hvalue : ∀ slot, table'.cellValue? config slot row = table.cellValue? config slot row) :
    table'.rowAt config row = table.rowAt config row := by
  funext name
  simp only [rowAt, hschema, hvalue]

/-- The rows given out so far, as maps; none for those that are gone. -/
def rows (config : Config) (table : Table) : List (Option Row) :=
  (List.range table.nextRow).map fun row =>
    if table.isLive config row then some (table.rowAt config row) else none

theorem length_rows (config : Config) (table : Table) :
    (table.rows config).length = table.nextRow := by
  rw [rows, List.length_map, List.length_range]

theorem WellFormed.getElem?_rows (h : table.WellFormed config) (row : Nat) :
    (table.rows config)[row]?.join =
      if table.isLive config row then some (table.rowAt config row) else none := by
  rw [rows, List.getElem?_map]
  by_cases hrow : row < table.nextRow
  · rw [List.getElem?_range hrow]
    rfl
  · have hlive : table.isLive config row = false := by
      rw [← Bool.not_eq_true]
      exact fun hl => hrow (h.lt_nextRow hl)
    rw [List.getElem?_eq_none (by simpa using hrow), hlive]
    rfl

/-! ## Changing rows of one chunk -/

/-- A table after live rows were overwritten. -/
structure Visited (config : Config) (table table' : Table) : Prop where
  schema_eq : table'.schema = table.schema
  chunks_size : table'.chunks.size = table.chunks.size
  nextRow_eq : table'.nextRow = table.nextRow
  live_eq : table'.live = table.live
  isLive : ∀ row, table'.isLive config row = table.isLive config row
  cellValue? : ∀ slot row, table.isLive config row = false →
    table'.cellValue? config slot row = table.cellValue? config slot row
  marks : ∀ slot row, table.isLive config row = false →
    table'.marks config slot row = table.marks config slot row

theorem Visited.refl (config : Config) (table : Table) : Visited config table table :=
  ⟨rfl, rfl, rfl, rfl, fun _ => rfl, fun _ _ _ => rfl, fun _ _ _ => rfl⟩

theorem Visited.trans {t₁ t₂ t₃ : Table} (h : Visited config t₁ t₂) (h' : Visited config t₂ t₃) :
    Visited config t₁ t₃ where
  schema_eq := h'.schema_eq.trans h.schema_eq
  chunks_size := h'.chunks_size.trans h.chunks_size
  nextRow_eq := h'.nextRow_eq.trans h.nextRow_eq
  live_eq := h'.live_eq.trans h.live_eq
  isLive row := (h'.isLive row).trans (h.isLive row)
  cellValue? slot row hrow :=
    (h'.cellValue? slot row ((h.isLive row).trans hrow)).trans (h.cellValue? slot row hrow)
  marks slot row hrow :=
    (h'.marks slot row ((h.isLive row).trans hrow)).trans (h.marks slot row hrow)

theorem Visited.vacant {table' : Table} (h : Visited config table table') {row : Nat}
    (hv : table.Vacant config row) : table'.Vacant config row where
  isLive := (h.isLive row).trans hv.isLive
  cell? slot := by
    rw [← cellValue?_eq_none_iff, h.cellValue? slot row hv.isLive, cellValue?_eq_none_iff, hv.cell?]
  marks slot := (h.marks slot row hv.isLive).trans (hv.marks slot)

theorem Visited.advances {table' : Table} (h : Visited config table table') :
    Advances config table table' where
  extends_ := by
    rw [h.schema_eq]
    exact Schema.Extends.refl _
  chunks_size := Nat.le_of_eq h.chunks_size.symm
  nextRow_le := Nat.le_of_eq h.nextRow_eq.symm
  live row hlive := Or.inl ((h.isLive row).trans hlive)
  vacant _ _ hv := h.vacant hv

theorem Visited.tidy {table' : Table} (h : Visited config table table')
    (htidy : table.Tidy config) : table'.Tidy config := by
  intro row hrow
  rw [h.isLive] at hrow
  exact h.vacant (htidy row hrow)

/-- The table with another chunk in a place, and with the dictionaries then. -/
def withChunk (table : Table) (id : Nat) (dictionaries : Array Dictionary) (chunk : Chunk) :
    Table :=
  { table with dictionaries, chunks := table.chunks.setIfInBounds id chunk }

theorem getElem?_withChunk {id : Nat} {chunk : Chunk} (hchunk : table.chunks[id]? = some chunk)
    (dictionaries : Array Dictionary) (chunk' : Chunk) (other : Nat) :
    (table.withChunk id dictionaries chunk').chunks[other]? =
      if id = other then some chunk' else table.chunks[other]? := by
  have hid := (Array.getElem?_eq_some_iff.mp hchunk).1
  rw [withChunk, Array.getElem?_setIfInBounds]
  simp only [hid, if_true]

theorem withChunk_withChunk (table : Table) (id : Nat) (ds ds' : Array Dictionary)
    (chunk chunk' : Chunk) :
    (table.withChunk id ds chunk).withChunk id ds' chunk' = table.withChunk id ds' chunk' := by
  simp [withChunk]

theorem withChunk_self {id : Nat} {chunk : Chunk} (hchunk : table.chunks[id]? = some chunk) :
    table.withChunk id table.dictionaries chunk = table := by
  obtain ⟨hid, rfl⟩ := Array.getElem?_eq_some_iff.mp hchunk
  simp [withChunk, Array.setIfInBounds, hid]

/-- Overwriting rows of one chunk. -/
theorem WellFormed.withChunk (h : table.WellFormed config) {id : Nat} {chunk : Chunk}
    (hchunk : table.chunks[id]? = some chunk) {touched : Nat → Prop}
    {dictionaries : Array Dictionary} {chunk' : Chunk}
    (ht : Chunk.Touched config.chunkSize table.schema touched table.dictionaries chunk dictionaries
      chunk') :
    (table.withChunk id dictionaries chunk').WellFormed config ∧
      (∀ row, (table.withChunk id dictionaries chunk').isLive config row =
        table.isLive config row) ∧
      ∀ slot row, ¬(row / config.chunkSize = id ∧ touched (row % config.chunkSize)) →
        (table.withChunk id dictionaries chunk').cellValue? config slot row =
            table.cellValue? config slot row ∧
          (table.withChunk id dictionaries chunk').marks config slot row =
            table.marks config slot row := by
  have hok := h.chunk id chunk hchunk
  obtain ⟨hid, heq⟩ := Array.getElem?_eq_some_iff.mp hchunk
  have hok' : ChunkOk config table.schema dictionaries table.nextRow id chunk' :=
    ⟨ht.wellFormed, ht.indexed, fun offset hoffset =>
      hok.lt_nextRow offset ((ht.fill offset).symm.trans hoffset)⟩
  have hcount : chunk'.fill.count = chunk.fill.count := by
    rw [Bitmap.count_eq, Bitmap.count_eq, Bitmap.toList_eq_iff.mpr ht.fill]
  have hset := h.setChunk hid heq ht.allExtend (ht.dictionary h.dictionary) hok' le_rfl
    h.nextRow_le (show table.live + chunk.fill.count = table.live + chunk'.fill.count by omega)
  have hreplaced := getElem?_withChunk hchunk dictionaries chunk'
  refine ⟨?_, fun row => ?_, fun slot row hrow => ⟨?_, ?_⟩⟩
  · have hsame : table.withChunk id dictionaries chunk' =
        { schema := table.schema, dictionaries, chunks := table.chunks.set id chunk' hid,
          nextRow := table.nextRow, live := table.live } := by
      simp [Table.withChunk, Array.setIfInBounds, hid]
    rw [hsame]
    exact hset
  · rw [isLive_of_replaced hreplaced]
    split_ifs with hrow
    · rw [isLive_of_row hchunk hrow, ht.fill]
    · rfl
  · rw [← h.decode_of_allExtend ht.allExtend, cellValue?, cell?_of_replaced hreplaced]
    split_ifs with heq'
    · rw [cell?_of_row hchunk heq', ht.cell? slot _ fun htouched => hrow ⟨heq', htouched⟩]
      rfl
    · rfl
  · rw [marks_of_replaced hreplaced]
    split_ifs with heq'
    · rw [marks_of_row hchunk heq', ht.marks slot _ fun htouched => hrow ⟨heq', htouched⟩]
    · rfl

theorem rowAt_of_chunk {id : Nat} {chunk : Chunk} (hchunk : table.chunks[id]? = some chunk)
    {offset : Nat} (hlt : offset < config.chunkSize) :
    table.rowAt config (id * config.chunkSize + offset) =
      chunk.rowAt table.schema table.dictionaries offset := by
  funext name
  simp only [rowAt, Chunk.rowAt, cellValue?, cell?, div_of_offset hlt, mod_of_offset hlt, hchunk,
    Option.bind_some]
  rfl

/-! ## Visiting -/

/-- Visiting one live row. -/
theorem WellFormed.visitRow {α : Type} (h : table.WellFormed config) {id : Nat} {chunk : Chunk}
    (hchunk : table.chunks[id]? = some chunk) {offset : Nat}
    (hlive : chunk.fill.contains offset = true) {slot : Nat} {column : Column}
    (hcolumn : table.schema.columns[slot]? = some column) (visit : Visit α) :
    ∃ dictionaries chunk' row,
      Cursor.run ⟨table.schema, slot, column, offset⟩ visit table.dictionaries chunk =
        ((visit.runOn table.schema.columns.toList column
          (table.rowAt config (id * config.chunkSize + offset))).1, dictionaries, chunk') ∧
      (visit.runOn table.schema.columns.toList column
        (table.rowAt config (id * config.chunkSize + offset))).2 = row ∧
      (table.withChunk id dictionaries chunk').WellFormed config ∧
      (table.withChunk id dictionaries chunk').rows config =
        (table.rows config).set (id * config.chunkSize + offset) (some row) ∧
      Visited config table (table.withChunk id dictionaries chunk') ∧
      ∀ other, chunk'.fill.contains other = chunk.fill.contains other := by
  have hok := h.chunk id chunk hchunk
  have hlt := (hok.wellFormed.fill.lt offset hlive).trans_le hok.wellFormed.capacity_le
  have hlive' : table.isLive config (id * config.chunkSize + offset) = true := by
    rw [isLive_of_chunk hchunk hlt, hlive]
  obtain ⟨ds, chunk', hrun, hrow, ht⟩ :=
    Cursor.run_spec ⟨table.schema, slot, column, offset⟩ h.schema hcolumn visit
      hok.wellFormed hok.indexed h.dictionaries_size hlive
  obtain ⟨hwf, hlives, hothers⟩ := h.withChunk hchunk ht
  have hchunk' : (table.withChunk id ds chunk').chunks[id]? = some chunk' := by
    rw [getElem?_withChunk hchunk, if_pos rfl]
  rw [rowAt_of_chunk hchunk hlt]
  refine ⟨ds, chunk', _, hrun, rfl, hwf, ?_, ?_, ht.fill⟩
  · rw [hrow]
    apply List.ext_getElem
    · rw [List.length_set, length_rows, length_rows]
      rfl
    · intro row hr hr'
      rw [length_rows] at hr
      have hnum : (table.withChunk id ds chunk').nextRow = table.nextRow := rfl
      rw [List.getElem_set]
      simp only [rows, List.getElem_map, List.getElem_range, hlives]
      by_cases heq : id * config.chunkSize + offset = row
      · subst heq
        rw [if_pos hlive', if_pos rfl, rowAt_of_chunk hchunk' hlt]
        rfl
      · rw [if_neg heq]
        have hne : ¬(row / config.chunkSize = id ∧ row % config.chunkSize = offset) := by
          rintro ⟨rfl, rfl⟩
          exact heq (Nat.div_add_mod' row config.chunkSize)
        have hsame : (table.withChunk id ds chunk').rowAt config row = table.rowAt config row :=
          rowAt_congr rfl fun slot' => (hothers slot' row hne).1
        rw [hsame]
  · have hne : ∀ row, table.isLive config row = false →
        ¬(row / config.chunkSize = id ∧ row % config.chunkSize = offset) := by
      rintro row hdead ⟨rfl, rfl⟩
      rw [Nat.div_add_mod', hdead] at hlive'
      cases hlive'
    exact ⟨rfl, Array.size_setIfInBounds, rfl, rfl, hlives,
      fun slot' row hdead => (hothers slot' row (hne row hdead)).1,
      fun slot' row hdead => (hothers slot' row (hne row hdead)).2⟩

variable {σ : Type} {slot : Nat} {column : Column}

/-- Visiting live rows of one chunk. -/
theorem WellFormed.visitOffsets (h : table.WellFormed config) {id : Nat} {chunk : Chunk}
    (hchunk : table.chunks[id]? = some chunk)
    (hcolumn : table.schema.columns[slot]? = some column) (visitor : Transaction.Visitor σ)
    {offsets : List Nat} (hlive : ∀ offset ∈ offsets, chunk.fill.contains offset = true)
    (state : σ) :
    ∃ dictionaries chunk',
      Transaction.visitOffsets visitor (fun offset => ⟨table.schema, slot, column, offset⟩)
          (id * config.chunkSize) offsets state table.dictionaries chunk =
        ((visitRows visitor table.schema.columns.toList column
          (offsets.map fun offset => id * config.chunkSize + offset) state
          (table.rows config)).1, dictionaries, chunk') ∧
      (table.withChunk id dictionaries chunk').WellFormed config ∧
      (table.withChunk id dictionaries chunk').rows config =
        (visitRows visitor table.schema.columns.toList column
          (offsets.map fun offset => id * config.chunkSize + offset) state
          (table.rows config)).2 ∧
      Visited config table (table.withChunk id dictionaries chunk') := by
  induction offsets generalizing table chunk state with
  | nil =>
    refine ⟨table.dictionaries, chunk, rfl, ?_⟩
    rw [withChunk_self hchunk]
    exact ⟨h, rfl, Visited.refl config table⟩
  | cons offset rest ih =>
    have hl := hlive offset List.mem_cons_self
    have hok := (h.chunk id chunk hchunk).wellFormed
    have hlt := (hok.fill.lt offset hl).trans_le hok.capacity_le
    obtain ⟨ds, chunk₁, row, hrun, hrow, hwf, hrows, hvisited, hfill⟩ :=
      h.visitRow hchunk hl hcolumn (visitor state (id * config.chunkSize + offset))
    have hfound : (table.rows config)[id * config.chunkSize + offset]?.join =
        some (table.rowAt config (id * config.chunkSize + offset)) := by
      rw [h.getElem?_rows, isLive_of_chunk hchunk hlt, hl, if_pos rfl]
    rw [Transaction.visitOffsets, hrun, List.map_cons, visitRows, hfound]
    simp only
    generalize hended : (visitor state (id * config.chunkSize + offset)).runOn
      table.schema.columns.toList column (table.rowAt config (id * config.chunkSize + offset)) =
        ended at hrow
    obtain ⟨⟨state', outcome⟩, row'⟩ := ended
    simp only at hrow
    subst hrow
    have hstop : (table.withChunk id ds chunk₁).WellFormed config ∧
        (table.withChunk id ds chunk₁).rows config =
          (table.rows config).set (id * config.chunkSize + offset) (some row') ∧
        Visited config table (table.withChunk id ds chunk₁) := ⟨hwf, hrows, hvisited⟩
    cases outcome with
    | error e => exact ⟨ds, chunk₁, rfl, hstop⟩
    | ok goOn =>
      cases goOn with
      | false => exact ⟨ds, chunk₁, rfl, hstop⟩
      | true =>
        have hchunk₁ : (table.withChunk id ds chunk₁).chunks[id]? = some chunk₁ := by
          rw [getElem?_withChunk hchunk, if_pos rfl]
        obtain ⟨ds₂, chunk₂, hrest, hwf₂, hrows₂, hvisited₂⟩ := ih hwf hchunk₁ hcolumn
          (fun o ho => (hfill o).trans (hlive o (List.mem_cons_of_mem _ ho))) state'
        rw [withChunk_withChunk] at hwf₂ hrows₂ hvisited₂
        rw [hrows] at hrest hrows₂
        exact ⟨ds₂, chunk₂, hrest, hwf₂, hrows₂, hvisited.trans hvisited₂⟩

/-! ## Whole passes -/

/-- Whether the row of a number is still there. -/
def stands (rows : List (Option Row)) (number : Nat) : Bool := rows[number]?.join.isSome

theorem stands_set {rows : List (Option Row)} {number : Nat} (h : stands rows number = true)
    (row : Row) (other : Nat) : stands (rows.set number (some row)) other = stands rows other := by
  unfold stands
  rw [List.getElem?_set]
  by_cases heq : number = other
  · subst heq
    have hlt : number < rows.length := by
      by_contra hle
      rw [stands, List.getElem?_eq_none (by omega)] at h
      cases h
    rw [if_pos rfl, if_pos hlt]
    exact h.symm
  · rw [if_neg heq]

/-- Rows that are gone do not matter to a pass. -/
theorem visitRows_filter (visitor : Transaction.Visitor σ) (columns : List Column) (column : Column)
    (numbers : List Nat) (state : σ) (rows : List (Option Row)) :
    visitRows visitor columns column (numbers.filter (stands rows)) state rows =
      visitRows visitor columns column numbers state rows := by
  induction numbers generalizing state rows with
  | nil => rfl
  | cons number rest ih =>
    cases hrow : rows[number]?.join with
    | none =>
      have hgone : stands rows number = false := by rw [stands, hrow]; rfl
      rw [List.filter_cons_of_neg (by simp [hgone]), visitRows, hrow]
      exact ih state rows
    | some row =>
      have hstands : stands rows number = true := by rw [stands, hrow]; rfl
      rw [List.filter_cons_of_pos hstands, visitRows, visitRows, hrow]
      simp only
      generalize (visitor state number).runOn columns column row = ended
      obtain ⟨⟨state', outcome⟩, row'⟩ := ended
      have hsame : stands (rows.set number (some row')) = stands rows :=
        funext (stands_set hstands row')
      cases outcome with
      | error e => rfl
      | ok goOn =>
        cases goOn with
        | false => rfl
        | true =>
          have hrest := ih state' (rows.set number (some row'))
          rw [hsame] at hrest
          exact hrest

theorem visitRows_append (visitor : Transaction.Visitor σ) (columns : List Column) (column : Column)
    (numbers others : List Nat) (state : σ) (rows : List (Option Row)) :
    visitRows visitor columns column (numbers ++ others) state rows =
      match visitRows visitor columns column numbers state rows with
      | ((state, .ok true), rows) => visitRows visitor columns column others state rows
      | stopped => stopped := by
  induction numbers generalizing state rows with
  | nil => rfl
  | cons number rest ih =>
    rw [List.cons_append, visitRows, visitRows]
    cases rows[number]?.join with
    | none => exact ih state rows
    | some row =>
      simp only
      generalize (visitor state number).runOn columns column row = ended
      obtain ⟨⟨state', outcome⟩, row'⟩ := ended
      cases outcome with
      | error e => rfl
      | ok goOn =>
        cases goOn with
        | false => rfl
        | true => exact ih state' _

/-- The selected rows of one chunk that a pass visits. -/
theorem WellFormed.visited_eq (h : table.WellFormed config) {id : Nat} {chunk : Chunk}
    (hchunk : table.chunks[id]? = some chunk) {bits : Bitmap}
    (hbits : ∀ offset, bits.contains offset = true → offset < config.chunkSize) :
    ((bits.and chunk.fill).toList.map fun offset => id * config.chunkSize + offset) =
      (bits.toList.map fun offset => id * config.chunkSize + offset).filter
        (stands (table.rows config)) := by
  rw [Bitmap.toList_eq_filter (Bitmap.contains_and bits chunk.fill), List.filter_map]
  congr 1
  apply List.filter_congr
  intro offset hoffset
  have hlt := hbits offset (Bitmap.mem_toList.mp hoffset)
  rw [Function.comp_apply, stands, h.getElem?_rows, isLive_of_chunk hchunk hlt]
  cases chunk.fill.contains offset <;> rfl

/-- A pass over the chunks is the pass over the rows. -/
theorem WellFormed.visitChunks (h : table.WellFormed config)
    (hcolumn : table.schema.columns[slot]? = some column) (visitor : Transaction.Visitor σ)
    {selection : List Bitmap} (hbounded : Selection.Bounded config.chunkSize selection) {id : Nat}
    (hsize : id + selection.length ≤ table.chunks.size) (state : σ) :
    ∃ dictionaries chunks,
      Transaction.visitChunks visitor (fun offset => ⟨table.schema, slot, column, offset⟩)
          config.chunkSize selection id state table.dictionaries table.chunks =
        ((visitRows visitor table.schema.columns.toList column
          (rowsFrom config.chunkSize selection id) state (table.rows config)).1,
          dictionaries, chunks) ∧
      ({ table with dictionaries, chunks } : Table).WellFormed config ∧
      ({ table with dictionaries, chunks } : Table).rows config =
        (visitRows visitor table.schema.columns.toList column
          (rowsFrom config.chunkSize selection id) state (table.rows config)).2 ∧
      Visited config table { table with dictionaries, chunks } := by
  induction selection generalizing table id state with
  | nil => exact ⟨table.dictionaries, table.chunks, rfl, h, rfl, Visited.refl config table⟩
  | cons bits rest ih =>
    rw [List.length_cons] at hsize
    rw [Transaction.visitChunks, Selection.rowsFrom_cons]
    cases hempty : bits.isEmpty with
    | true =>
      have hnil : bits.toList = [] := by
        rw [List.eq_nil_iff_forall_not_mem]
        intro offset hmem
        rw [Bitmap.mem_toList, Bitmap.isEmpty_iff.mp hempty] at hmem
        cases hmem
      rw [if_pos rfl, hnil]
      exact ih h hcolumn hbounded.tail (by omega) state
    | false =>
      have hid : id < table.chunks.size := by omega
      have hchunk : table.chunks[id]? = some table.chunks[id] := Array.getElem?_eq_getElem hid
      have hlive : ∀ offset ∈ (bits.and table.chunks[id].fill).toList,
          table.chunks[id].fill.contains offset = true := by
        intro offset hmem
        rw [Bitmap.mem_toList, Bitmap.contains_and, Bool.and_eq_true] at hmem
        exact hmem.2
      obtain ⟨ds, chunk', hvisit, hwf, hrows, hvisited⟩ :=
        h.visitOffsets hchunk hcolumn visitor hlive state
      have hset : table.chunks.set id chunk' hid = (table.withChunk id ds chunk').chunks := by
        simp [Table.withChunk, Array.setIfInBounds, hid]
      rw [h.visited_eq hchunk (hbounded bits List.mem_cons_self), visitRows_filter] at hvisit hrows
      rw [if_neg (by simp), updateAt_of_lt _ _ _ _ hid, visitRows_append]
      simp only [hvisit, hset]
      generalize visitRows visitor table.schema.columns.toList column
        (bits.toList.map fun offset => id * config.chunkSize + offset) state (table.rows config) =
          first at hrows
      obtain ⟨⟨state', outcome⟩, rows'⟩ := first
      simp only at hrows
      subst hrows
      cases outcome with
      | error e => exact ⟨ds, _, rfl, hwf, rfl, hvisited⟩
      | ok goOn =>
        cases goOn with
        | false => exact ⟨ds, _, rfl, hwf, rfl, hvisited⟩
        | true =>
          have hsize' : id + 1 + rest.length ≤ (table.withChunk id ds chunk').chunks.size := by
            rw [hvisited.chunks_size]
            omega
          obtain ⟨ds₂, chunks₂, hrest, hwf₂, hrows₂, hvisited₂⟩ :=
            ih hwf hcolumn hbounded.tail hsize' state'
          exact ⟨ds₂, chunks₂, hrest, hwf₂, hrows₂, hvisited.trans hvisited₂⟩

end Table

end ColumnStore
