import ColumnStore.Proofs.Chunk.Delete
import ColumnStore.Proofs.Chunk.Rebuild
import ColumnStore.Proofs.Chunk.Write
import ColumnStore.Proofs.Selection
import ColumnStore.Table

/-!
# Well-formed tables

A row of a table is looked at through what its chunk holds at its offset: whether it is live
(`isLive`), the value of the column in a slot (`cellValue?`) and the bit of the index in a slot
(`marks`). `WellFormed` is the invariant that every operation keeps; under it these three say all
that reading a table gives (`WellFormed.valueAt_eq`, `WellFormed.fetch_eq`).

`Advances` is what an operation may do to the rows that a transaction has selected: a row that is
live or gone for good stays so.
-/

namespace ColumnStore

namespace Config

/-- The bounds of a usable chunk size. -/
theorem chunkSize_of_usable {config : Config} (h : config.fault? = none) :
    Chunk.minCapacity ≤ config.chunkSize ∧ config.chunkSize ≤ 2 ^ 31 := by
  unfold fault? at h
  simp only [Bool.or_eq_true, decide_eq_true_eq, Bool.not_eq_true'] at h
  split_ifs at h with hsize
  rw [not_or, not_or] at hsize
  have hmin : minChunkSize = Chunk.minCapacity := rfl
  have hmax : maxChunkSize = 2 ^ 31 := rfl
  omega

end Config

/-- Replacing one summand. -/
theorem sum_map_set {α : Type} (f : α → Nat) (xs : List α) (i : Nat) (h : i < xs.length) (x : α) :
    ((xs.set i x).map f).sum + f xs[i] = (xs.map f).sum + f x := by
  induction xs generalizing i with
  | nil => simp at h
  | cons y rest ih =>
    cases i with
    | zero =>
      simp only [List.set_cons_zero, List.map_cons, List.sum_cons, List.getElem_cons_zero]
      omega
    | succ i =>
      have := ih i (by simpa using h)
      simp only [List.set_cons_succ, List.map_cons, List.sum_cons, List.getElem_cons_succ]
      omega

namespace Table

open Selection (div_of_offset mod_of_offset)

variable (config : Config) (table : Table)

/-! ## Rows -/

/-- Whether a row is live. -/
def isLive (row : Nat) : Bool :=
  table.chunks[row / config.chunkSize]?.any fun chunk =>
    chunk.fill.contains (row % config.chunkSize)

/-- The cell of a row for the column in a slot, whether or not the row is live. -/
def cell? (slot row : Nat) : Option Cell :=
  table.chunks[row / config.chunkSize]?.bind fun chunk =>
    chunk.cell? slot (row % config.chunkSize)

/-- The value of the cell of a row. -/
def cellValue? (slot row : Nat) : Option Value :=
  (table.cell? config slot row).map (Column.decode (table.dictionary slot))

/-- Whether the index in a slot has a row. -/
def marks (slot row : Nat) : Bool :=
  table.chunks[row / config.chunkSize]?.any fun chunk =>
    chunk.marks slot (row % config.chunkSize)

/-- A row that nothing is stored for. -/
structure Vacant (row : Nat) : Prop where
  isLive : table.isLive config row = false
  cell? : ∀ slot, table.cell? config slot row = none
  marks : ∀ slot, table.marks config slot row = false

/-! ## The invariant -/

/-- What holds of chunk `id`. -/
structure ChunkOk (config : Config) (schema : Schema) (dictionaries : Array Dictionary)
    (nextRow id : Nat) (chunk : Chunk) : Prop where
  wellFormed : chunk.WellFormed config.chunkSize schema dictionaries
  indexed : chunk.Indexed schema dictionaries
  lt_nextRow : ∀ offset, chunk.fill.contains offset = true →
    id * config.chunkSize + offset < nextRow

/-- The invariant of a table in use. -/
structure WellFormed : Prop where
  usable : config.fault? = none
  schema : table.schema.WellFormed
  dictionaries_size : table.dictionaries.size = table.schema.columns.size
  dictionary : ∀ d ∈ table.dictionaries, d.WellFormed
  chunk : ∀ (id : Nat) chunk, table.chunks[id]? = some chunk →
    ChunkOk config table.schema table.dictionaries table.nextRow id chunk
  nextRow_le : table.nextRow ≤ table.chunks.size * config.chunkSize
  live_eq : table.live = (table.chunks.toList.map fun chunk => chunk.fill.count).sum

/-- No row holds anything but the live ones. -/
def Tidy : Prop := ∀ row, table.isLive config row = false → table.Vacant config row

variable {config : Config} {table : Table}

theorem WellFormed.chunkSize_pos (h : table.WellFormed config) : 0 < config.chunkSize := by
  have := (Config.chunkSize_of_usable h.usable).1
  unfold Chunk.minCapacity at this
  omega

theorem WellFormed.offset_lt (h : table.WellFormed config) (row : Nat) :
    row % config.chunkSize < config.chunkSize := Nat.mod_lt _ h.chunkSize_pos

theorem wellFormed_empty (h : config.fault? = none) : empty.WellFormed config where
  usable := h
  schema := Schema.wellFormed_empty
  dictionaries_size := rfl
  dictionary d hd := by simp [empty] at hd
  chunk id chunk hc := by simp [empty] at hc
  nextRow_le := Nat.zero_le _
  live_eq := rfl

theorem tidy_empty (config : Config) : empty.Tidy config :=
  fun row _ => ⟨by simp [isLive, empty], by simp [cell?, empty], by simp [marks, empty]⟩

/-- A row lies in the chunk that holds it. -/
theorem isLive_of_chunk {id : Nat} {chunk : Chunk} (hchunk : table.chunks[id]? = some chunk)
    {offset : Nat} (hlt : offset < config.chunkSize) :
    table.isLive config (id * config.chunkSize + offset) = chunk.fill.contains offset := by
  rw [isLive, div_of_offset hlt, mod_of_offset hlt, hchunk, Option.any_some]

theorem cell?_of_chunk {id : Nat} {chunk : Chunk} (hchunk : table.chunks[id]? = some chunk)
    {offset : Nat} (hlt : offset < config.chunkSize) (slot : Nat) :
    table.cell? config slot (id * config.chunkSize + offset) = chunk.cell? slot offset := by
  rw [cell?, div_of_offset hlt, mod_of_offset hlt, hchunk, Option.bind_some]

theorem marks_of_chunk {id : Nat} {chunk : Chunk} (hchunk : table.chunks[id]? = some chunk)
    {offset : Nat} (hlt : offset < config.chunkSize) (slot : Nat) :
    table.marks config slot (id * config.chunkSize + offset) = chunk.marks slot offset := by
  rw [marks, div_of_offset hlt, mod_of_offset hlt, hchunk, Option.any_some]

section Replaced

variable {table' : Table} {id : Nat} {chunk : Chunk}
  (hset : ∀ other : Nat, table'.chunks[other]? =
    if id = other then some chunk else table.chunks[other]?)

include hset

/-- After a chunk was replaced, its rows are read in the new one and all others as before. -/
theorem isLive_of_replaced (row : Nat) :
    table'.isLive config row =
      if row / config.chunkSize = id then chunk.fill.contains (row % config.chunkSize)
      else table.isLive config row := by
  rw [isLive, isLive, hset]
  by_cases hrow : id = row / config.chunkSize
  · rw [if_pos hrow, if_pos hrow.symm, Option.any_some]
  · rw [if_neg hrow, if_neg (Ne.symm hrow)]

theorem cell?_of_replaced (slot row : Nat) :
    table'.cell? config slot row =
      if row / config.chunkSize = id then chunk.cell? slot (row % config.chunkSize)
      else table.cell? config slot row := by
  rw [cell?, cell?, hset]
  by_cases hrow : id = row / config.chunkSize
  · rw [if_pos hrow, if_pos hrow.symm, Option.bind_some]
  · rw [if_neg hrow, if_neg (Ne.symm hrow)]

theorem marks_of_replaced (slot row : Nat) :
    table'.marks config slot row =
      if row / config.chunkSize = id then chunk.marks slot (row % config.chunkSize)
      else table.marks config slot row := by
  rw [marks, marks, hset]
  by_cases hrow : id = row / config.chunkSize
  · rw [if_pos hrow, if_pos hrow.symm, Option.any_some]
  · rw [if_neg hrow, if_neg (Ne.symm hrow)]

end Replaced

/-- What is read of a row is read in its chunk. -/
theorem isLive_of_row {id row : Nat} {chunk : Chunk} (hchunk : table.chunks[id]? = some chunk)
    (hrow : row / config.chunkSize = id) :
    table.isLive config row = chunk.fill.contains (row % config.chunkSize) := by
  rw [isLive, hrow, hchunk, Option.any_some]

theorem cell?_of_row {id row : Nat} {chunk : Chunk} (hchunk : table.chunks[id]? = some chunk)
    (hrow : row / config.chunkSize = id) (slot : Nat) :
    table.cell? config slot row = chunk.cell? slot (row % config.chunkSize) := by
  rw [cell?, hrow, hchunk, Option.bind_some]

theorem marks_of_row {id row : Nat} {chunk : Chunk} (hchunk : table.chunks[id]? = some chunk)
    (hrow : row / config.chunkSize = id) (slot : Nat) :
    table.marks config slot row = chunk.marks slot (row % config.chunkSize) := by
  rw [marks, hrow, hchunk, Option.any_some]

theorem WellFormed.lt_nextRow (h : table.WellFormed config) {row : Nat}
    (hlive : table.isLive config row = true) : row < table.nextRow := by
  obtain ⟨chunk, hchunk, hcontains⟩ := (Option.any_eq_true ..).mp hlive
  have := (h.chunk _ chunk hchunk).lt_nextRow _ hcontains
  rwa [Nat.div_add_mod'] at this

theorem WellFormed.checkRow_eq (h : table.WellFormed config) (row : Nat) :
    table.checkRow config row =
      if row < table.nextRow then .ok () else .error (.outOfRange row table.nextRow) := by
  unfold checkRow
  by_cases hrow : row < table.nextRow
  · have hchunk : row / config.chunkSize < table.chunks.size := by
      rw [Nat.div_lt_iff_lt_mul h.chunkSize_pos]
      exact hrow.trans_le h.nextRow_le
    rw [if_pos ⟨hrow, hchunk⟩, if_pos hrow]
  · rw [if_neg fun hc => hrow hc.1, if_neg hrow]

theorem WellFormed.exists_chunk (h : table.WellFormed config) {row : Nat}
    (hrow : row < table.nextRow) :
    ∃ chunk, table.chunks[row / config.chunkSize]? = some chunk := by
  have hlt : row / config.chunkSize < table.chunks.size := by
    rw [Nat.div_lt_iff_lt_mul h.chunkSize_pos]
    exact hrow.trans_le h.nextRow_le
  exact ⟨_, Array.getElem?_eq_getElem hlt⟩

/-- The value that reading a column of a row gives. -/
def read? (config : Config) (table : Table) (slot row : Nat) : Option Value :=
  if table.isLive config row then table.cellValue? config slot row else none

theorem WellFormed.value_eq (h : table.WellFormed config) {row : Nat} {chunk : Chunk}
    (hchunk : table.chunks[row / config.chunkSize]? = some chunk) (slot : Nat) :
    chunk.value table.dictionaries slot (row % config.chunkSize) =
      .ok (table.read? config slot row) := by
  rw [(h.chunk _ chunk hchunk).wellFormed.value_eq (h.offset_lt row), read?, isLive, cellValue?,
    cell?, hchunk]
  rfl

/-- Reading a value fails for an unknown column and for a row never given out; of a row that is not
    live there is nothing to read. -/
theorem WellFormed.valueAt_eq (h : table.WellFormed config) (column : String) (row : Nat) :
    table.valueAt config column row =
      match table.schema.column? column with
      | none => .error (.unknownColumn column)
      | some (slot, _) =>
        if row < table.nextRow then .ok (table.read? config slot row)
        else .error (.outOfRange row table.nextRow) := by
  unfold valueAt
  cases table.schema.column? column with
  | none => rfl
  | some found =>
    obtain ⟨slot, column⟩ := found
    simp only [h.checkRow_eq]
    by_cases hrow : row < table.nextRow
    · obtain ⟨chunk, hchunk⟩ := h.exists_chunk hrow
      simp only [hrow, if_true, hchunk]
      exact h.value_eq hchunk slot
    · simp only [hrow, if_false]
      rfl

/-- A live row is fetched with the values it has, in the order of the columns. -/
theorem WellFormed.fetch_eq (h : table.WellFormed config) (row : Nat) :
    table.fetch config row =
      if table.isLive config row then
        some (table.schema.columns.toList.zipIdx.filterMap fun (column, slot) =>
          (table.cellValue? config slot row).map (column.name, ·))
      else none := by
  unfold fetch
  rw [h.checkRow_eq]
  by_cases hrow : row < table.nextRow
  · obtain ⟨chunk, hchunk⟩ := h.exists_chunk hrow
    have hlive : table.isLive config row = chunk.fill.contains (row % config.chunkSize) := by
      rw [isLive, hchunk, Option.any_some]
    simp only [hrow, if_true, hchunk, hlive, h.value_eq hchunk]
    split_ifs with hfill
    · simp only [read?, hlive, hfill, if_true]
      rfl
    · rfl
  · have hlive : table.isLive config row = false := by
      rw [← Bool.not_eq_true]
      exact fun hl => hrow (h.lt_nextRow hl)
    simp only [hrow, if_false, hlive]
    rfl

/-- An attached index has the rows whose source value is there and satisfies its predicate. -/
theorem WellFormed.marks_eq (h : table.WellFormed config) {slot : Nat} {index : Index}
    {predicate : Value → Bool} (hindex : table.schema.indexes[slot]? = some index)
    (hpredicate : index.predicate = some predicate) (row : Nat) :
    table.marks config slot row = (table.cellValue? config index.sourceSlot row).any predicate := by
  unfold marks cellValue? cell?
  cases hchunk : table.chunks[row / config.chunkSize]? with
  | none => rfl
  | some chunk =>
    rw [Option.any_some, Option.bind_some,
      (h.chunk _ chunk hchunk).indexed slot index predicate hindex hpredicate, Index.hits,
      Option.any_map]
    rfl

/-- A cell is of its column's kind, and its column's dictionary knows it. -/
theorem WellFormed.kind_of_cell? (h : table.WellFormed config) {slot row : Nat} {cell : Cell}
    (hcell : table.cell? config slot row = some cell) :
    (∃ column, table.schema.columns[slot]? = some column ∧ cell.kind = column.kind) ∧
      cell.Known (table.dictionary slot) := by
  obtain ⟨chunk, hchunk, hc⟩ := Option.bind_eq_some_iff.mp hcell
  have hwf := (h.chunk _ chunk hchunk).wellFormed
  exact ⟨hwf.kind_of_cell? hc, hwf.known slot _ cell hc⟩

theorem cellValue?_eq_none_iff {slot row : Nat} :
    table.cellValue? config slot row = none ↔ table.cell? config slot row = none :=
  Option.map_eq_none_iff

/-- The invariant after one chunk was replaced. -/
theorem WellFormed.setChunk (h : table.WellFormed config) {id : Nat} {chunk chunk' : Chunk}
    (hid : id < table.chunks.size) (hchunk : table.chunks[id] = chunk)
    {dictionaries : Array Dictionary} (hext : Column.AllExtend table.dictionaries dictionaries)
    (hdict : ∀ d ∈ dictionaries, d.WellFormed) {nextRow live : Nat}
    (hok : ChunkOk config table.schema dictionaries nextRow id chunk')
    (hnext : table.nextRow ≤ nextRow) (hle : nextRow ≤ table.chunks.size * config.chunkSize)
    (hlive : live + chunk.fill.count = table.live + chunk'.fill.count) :
    ({ schema := table.schema, dictionaries, chunks := table.chunks.set id chunk' hid, nextRow,
       live } : Table).WellFormed config where
  usable := h.usable
  schema := h.schema
  dictionaries_size := hext.size.trans h.dictionaries_size
  dictionary := hdict
  chunk other found hfound := by
    rw [Array.getElem?_set] at hfound
    split_ifs at hfound with heq
    · cases hfound
      exact heq ▸ hok
    · have hother := h.chunk other found hfound
      exact ⟨hother.wellFormed.of_allExtend hext,
        hother.indexed.of_allExtend hother.wellFormed hext,
        fun offset hoffset => (hother.lt_nextRow offset hoffset).trans_le hnext⟩
  nextRow_le := by rwa [Array.size_set]
  live_eq := by
    have hsum := sum_map_set (fun c => c.fill.count) table.chunks.toList id (by simpa using hid)
      chunk'
    simp only [Array.getElem_toList, hchunk] at hsum
    have := h.live_eq
    simp only [Array.toList_set]
    omega

/-- A cell that was known keeps its value. -/
theorem decode_of_known {dictionaries : Array Dictionary}
    (hext : Column.AllExtend table.dictionaries dictionaries) {slot row : Nat}
    (hknown : ∀ cell, table.cell? config slot row = some cell →
      cell.Known (table.dictionary slot)) :
    (table.cell? config slot row).map (Column.decode (Chunk.dictionaryOf dictionaries slot)) =
      table.cellValue? config slot row := by
  unfold cellValue?
  cases hcell : table.cell? config slot row with
  | none => rfl
  | some cell =>
    rw [Option.map_some, Option.map_some]
    exact congrArg some
      (Column.decode_of_extends (hext.extends_ slot) (hknown cell hcell))

theorem WellFormed.decode_of_allExtend (h : table.WellFormed config)
    {dictionaries : Array Dictionary} (hext : Column.AllExtend table.dictionaries dictionaries)
    (slot row : Nat) :
    (table.cell? config slot row).map (Column.decode (Chunk.dictionaryOf dictionaries slot)) =
      table.cellValue? config slot row :=
  decode_of_known hext fun _ hcell => (h.kind_of_cell? hcell).2

/-! ## Going on -/

/-- A row that was given out and is live, or gone with all it held. -/
structure Settled (config : Config) (table : Table) (row : Nat) : Prop where
  lt_nextRow : row < table.nextRow
  cases : table.isLive config row = true ∨ table.Vacant config row

/-- What an operation may do to rows that were given out: live rows may be changed or taken out, and
    rows that are gone stay gone. -/
structure Advances (config : Config) (older newer : Table) : Prop where
  extends_ : older.schema.Extends newer.schema
  chunks_size : older.chunks.size ≤ newer.chunks.size
  nextRow_le : older.nextRow ≤ newer.nextRow
  live : ∀ row, older.isLive config row = true →
    newer.isLive config row = true ∨ newer.Vacant config row
  vacant : ∀ row, row < older.nextRow → older.Vacant config row → newer.Vacant config row

theorem Advances.refl (config : Config) (table : Table) : Advances config table table :=
  ⟨Schema.Extends.refl _, le_rfl, le_rfl, fun _ hlive => Or.inl hlive, fun _ _ hv => hv⟩

/-- What was settled is settled still. -/
theorem Advances.settled {older newer : Table} (h : Advances config older newer) {row : Nat}
    (hs : older.Settled config row) : newer.Settled config row where
  lt_nextRow := hs.lt_nextRow.trans_le h.nextRow_le
  cases := hs.cases.elim (h.live row) fun hv => Or.inr (h.vacant row hs.lt_nextRow hv)

end Table

end ColumnStore
