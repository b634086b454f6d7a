import ColumnStore.Proofs.Transaction.Pass

/-!
# Passes as walks over a list of rows

A pass goes chunk by chunk and settles the rows of a chunk when it comes to it. `Table.walk` goes
through a list of rows that was settled before, one row at a time. No visit makes a row live or not
(`Cursor.fill_run`), so both come to the same rows. Nothing is asked of the contents here but the
number of their chunks.

`Table.visitChunks_eq_walk`: visiting the selected live rows of all chunks is the walk through the
rows that are selected and live at its start.
-/

namespace ColumnStore

/-! ## Visits do not decide which rows are live -/

namespace Chunk

theorem fill_writeCell (chunk : Chunk) (slot : Nat) (column : String) (offset : Nat)
    (cell : Option Cell) : (chunk.writeCell slot column offset cell).2.fill = chunk.fill := by
  unfold writeCell
  simp only
  split <;> rfl

theorem fill_update (chunk : Chunk) (schema : Schema) (dictionaries : Array Dictionary)
    (offset slot : Nat) (column : Column) (cell : Option Cell) :
    (chunk.update schema dictionaries offset slot column cell).2.fill = chunk.fill := by
  have hwrite := (chunk.sync schema).fill_writeCell slot column.name offset cell
  unfold update
  generalize (chunk.sync schema).writeCell slot column.name offset cell = written at hwrite ⊢
  obtain ⟨answer, chunk'⟩ := written
  cases answer <;> exact hwrite

end Chunk

namespace Cursor

variable {α : Type}

theorem fill_write (cursor : Cursor) (slot : Nat) (column : Column) (value : Value)
    (dictionaries : Array Dictionary) (chunk : Chunk) :
    (cursor.write slot column value dictionaries chunk).2.2.fill = chunk.fill := by
  unfold write
  generalize column.encodeAt dictionaries slot value = encoded
  obtain ⟨answer, dictionaries'⟩ := encoded
  cases answer with
  | error e => rfl
  | ok cell => exact chunk.fill_update ..

theorem fill_run (cursor : Cursor) (visit : Visit α) (dictionaries : Array Dictionary)
    (chunk : Chunk) : (cursor.run visit dictionaries chunk).2.2.fill = chunk.fill := by
  induction visit generalizing dictionaries chunk with
  | done a => rfl
  | value next ih => exact ih ..
  | float64 next ih => exact ih ..
  | valueOf name next ih => exact ih ..
  | write value next ih => exact (ih ..).trans (cursor.fill_write ..)
  | writeOf name value next ih =>
    rw [run]
    cases cursor.schema.column? name with
    | none => exact ih ..
    | some found => exact (ih ..).trans (cursor.fill_write ..)

end Cursor

namespace Table

open Selection (div_of_offset mod_of_offset rowsFrom)
open Transaction (Visitor)

variable {config : Config} {table : Table} {α σ : Type}

/-! ## Walks -/

/-- Runs a visit at a row; none if there is no chunk for the row. -/
def visitAt (config : Config) (cursor : Nat → Cursor) (row : Nat) (visit : Visit α)
    (table : Table) : Option α × Table :=
  match table.chunks[row / config.chunkSize]? with
  | none => (none, table)
  | some chunk =>
    let (result, dictionaries, chunk) :=
      (cursor (row % config.chunkSize)).run visit table.dictionaries chunk
    (some result, table.withChunk (row / config.chunkSize) dictionaries chunk)

/-- Visits the rows of a list, in order, and stops at the first visit that says so or fails. -/
def walk (config : Config) (cursor : Nat → Cursor) (visitor : Visitor σ) :
    List Nat → σ → Table → (σ × Except Error Bool) × Table
  | [], state, table => ((state, .ok true), table)
  | row :: rest, state, table =>
    match table.visitAt config cursor row (visitor state row) with
    | (some (state, .ok true), table) => walk config cursor visitor rest state table
    | (some stopped, table) => (stopped, table)
    | (none, table) => walk config cursor visitor rest state table

theorem visitAt_of_chunk {id : Nat} {chunk : Chunk} (hchunk : table.chunks[id]? = some chunk)
    {offset : Nat} (hlt : offset < config.chunkSize) (cursor : Nat → Cursor) (visit : Visit α) :
    table.visitAt config cursor (id * config.chunkSize + offset) visit =
      (some ((cursor offset).run visit table.dictionaries chunk).1,
        table.withChunk id ((cursor offset).run visit table.dictionaries chunk).2.1
          ((cursor offset).run visit table.dictionaries chunk).2.2) := by
  rw [visitAt, div_of_offset hlt, mod_of_offset hlt, hchunk]

theorem isLive_withChunk {id : Nat} {chunk chunk' : Chunk}
    (hchunk : table.chunks[id]? = some chunk) (hfill : chunk'.fill = chunk.fill)
    (dictionaries : Array Dictionary) :
    (table.withChunk id dictionaries chunk').isLive config = table.isLive config := by
  funext row
  rw [isLive_of_replaced (getElem?_withChunk hchunk dictionaries chunk')]
  split_ifs with hrow
  · rw [isLive_of_row hchunk hrow, hfill]
  · rfl

theorem walk_append (cursor : Nat → Cursor) (visitor : Visitor σ) (rows others : List Nat)
    (state : σ) (table : Table) :
    walk config cursor visitor (rows ++ others) state table =
      match walk config cursor visitor rows state table with
      | ((state, .ok true), table) => walk config cursor visitor others state table
      | stopped => stopped := by
  induction rows generalizing state table with
  | nil => rfl
  | cons row rest ih =>
    rw [List.cons_append, walk, walk]
    generalize table.visitAt config cursor row (visitor state row) = visited
    obtain ⟨result, table'⟩ := visited
    cases result with
    | none => exact ih state table'
    | some ended =>
      obtain ⟨state', outcome⟩ := ended
      cases outcome with
      | error e => rfl
      | ok goOn =>
        cases goOn with
        | false => rfl
        | true => exact ih state' table'

/-! ## A pass through one chunk and through all -/

/-- The rows of one chunk that a pass visits are those of the selection that are live. -/
theorem map_live_eq {id : Nat} {chunk : Chunk} (hchunk : table.chunks[id]? = some chunk)
    {bits : Bitmap} (hbits : ∀ offset, bits.contains offset = true → offset < config.chunkSize) :
    ((bits.and chunk.fill).toList.map fun offset => id * config.chunkSize + offset) =
      (bits.toList.map fun offset => id * config.chunkSize + offset).filter
        (table.isLive config) := by
  rw [Bitmap.toList_eq_filter (Bitmap.contains_and bits chunk.fill), List.filter_map]
  congr 1
  apply List.filter_congr
  intro offset hoffset
  have hlt := hbits offset (Bitmap.mem_toList.mp hoffset)
  rw [Function.comp_apply, isLive_of_chunk hchunk hlt]

/-- Visiting rows of one chunk is a walk through them. -/
theorem visitOffsets_eq_walk {id : Nat} {chunk : Chunk} (hchunk : table.chunks[id]? = some chunk)
    (visitor : Visitor σ) (cursor : Nat → Cursor) {offsets : List Nat}
    (hlt : ∀ offset ∈ offsets, offset < config.chunkSize) (state : σ) :
    ∃ ended dictionaries chunk',
      Transaction.visitOffsets visitor cursor (id * config.chunkSize) offsets state
        table.dictionaries chunk = (ended, dictionaries, chunk') ∧
      walk config cursor visitor (offsets.map fun offset => id * config.chunkSize + offset) state
        table = (ended, table.withChunk id dictionaries chunk') ∧
      chunk'.fill = chunk.fill := by
  induction offsets generalizing table chunk state with
  | nil =>
    refine ⟨(state, .ok true), table.dictionaries, chunk, rfl, ?_, rfl⟩
    rw [withChunk_self hchunk]
    rfl
  | cons offset rest ih =>
    rw [List.forall_mem_cons] at hlt
    rw [Transaction.visitOffsets, List.map_cons, walk, visitAt_of_chunk hchunk hlt.1]
    have hfill := (cursor offset).fill_run (visitor state (id * config.chunkSize + offset))
      table.dictionaries chunk
    generalize (cursor offset).run (visitor state (id * config.chunkSize + offset))
      table.dictionaries chunk = ran at hfill ⊢
    obtain ⟨⟨state₁, outcome⟩, ds₁, chunk₁⟩ := ran
    have hstop : chunk₁.fill = chunk.fill := hfill
    cases outcome with
    | error e => exact ⟨_, ds₁, chunk₁, rfl, rfl, hstop⟩
    | ok goOn =>
      cases goOn with
      | false => exact ⟨_, ds₁, chunk₁, rfl, rfl, hstop⟩
      | true =>
        have hchunk₁ : (table.withChunk id ds₁ chunk₁).chunks[id]? = some chunk₁ := by
          rw [getElem?_withChunk hchunk, if_pos rfl]
        obtain ⟨ended, ds₂, chunk₂, hvisit, hwalk, hfill₂⟩ := ih hchunk₁ hlt.2 state₁
        rw [withChunk_withChunk] at hwalk
        exact ⟨ended, ds₂, chunk₂, hvisit, hwalk, hfill₂.trans hstop⟩

/-- Visiting the selected live rows of all chunks is the walk through the selected rows that are
    live at its start. -/
theorem visitChunks_eq_walk (visitor : Visitor σ) (cursor : Nat → Cursor)
    {selection : List Bitmap} (hbounded : Selection.Bounded config.chunkSize selection) {id : Nat}
    (hsize : id + selection.length ≤ table.chunks.size) (state : σ) :
    ∃ ended dictionaries chunks,
      Transaction.visitChunks visitor cursor config.chunkSize selection id state
        table.dictionaries table.chunks = (ended, dictionaries, chunks) ∧
      walk config cursor visitor
        ((rowsFrom config.chunkSize selection id).filter (table.isLive config)) state table =
          (ended, { table with dictionaries, chunks }) := by
  induction selection generalizing table id state with
  | nil => exact ⟨_, table.dictionaries, table.chunks, rfl, rfl⟩
  | cons bits rest ih =>
    rw [List.length_cons] at hsize
    rw [Transaction.visitChunks, Selection.rowsFrom_cons, List.filter_append]
    cases hempty : bits.isEmpty with
    | true =>
      have hnil : bits.toList = [] := by
        rw [List.eq_nil_iff_forall_not_mem]
        intro offset hmem
        rw [Bitmap.mem_toList, Bitmap.isEmpty_iff.mp hempty] at hmem
        cases hmem
      rw [if_pos rfl, hnil]
      exact ih hbounded.tail (by omega) state
    | false =>
      have hid : id < table.chunks.size := by omega
      have hchunk : table.chunks[id]? = some table.chunks[id] := Array.getElem?_eq_getElem hid
      have hbits := hbounded bits List.mem_cons_self
      have hlive : ∀ offset ∈ (bits.and table.chunks[id].fill).toList,
          offset < config.chunkSize := by
        intro offset hmem
        rw [Bitmap.mem_toList, Bitmap.contains_and, Bool.and_eq_true] at hmem
        exact hbits offset hmem.1
      obtain ⟨ended, ds, chunk', hvisit, hwalk, hfill⟩ :=
        visitOffsets_eq_walk hchunk visitor cursor hlive state
      rw [if_neg (by simp), updateAt_of_lt _ _ _ _ hid, walk_append, ← map_live_eq hchunk hbits,
        hwalk]
      have hset : table.chunks.set id chunk' hid = (table.withChunk id ds chunk').chunks := by
        simp [Table.withChunk, Array.setIfInBounds, hid]
      simp only [hvisit, hset]
      obtain ⟨state₁, outcome⟩ := ended
      cases outcome with
      | error e => exact ⟨_, ds, _, rfl, rfl⟩
      | ok goOn =>
        cases goOn with
        | false => exact ⟨_, ds, _, rfl, rfl⟩
        | true =>
          have hsize' : id + 1 + rest.length ≤ (table.withChunk id ds chunk').chunks.size := by
            rw [withChunk, Array.size_setIfInBounds]
            omega
          obtain ⟨ended, ds₂, chunks₂, hrest, hwalk₂⟩ := ih hbounded.tail hsize' state₁
          -- the rows still to come were settled by the chunks as they were
          rw [isLive_withChunk hchunk hfill] at hwalk₂
          exact ⟨ended, ds₂, chunks₂, hrest, hwalk₂⟩

end Table

end ColumnStore
