import ColumnStore.Proofs.Table
import ColumnStore.Transaction

/-!
# Taking rows out of a table

`Removed` says what becomes of the rows: those taken out are vacant, all others are as they were.
It holds of the deletion of one row (`WellFormed.deleteAt_of_live`) and of the deletion of a
selection, chunk by chunk (`WellFormed.deleteFrom`). A row that is not live is left alone.

The live rows are counted (`WellFormed.live_eq_length`).
-/

namespace ColumnStore

namespace Table

open Selection (selects selects_zero row_eq_iff)

variable {config : Config} {table : Table}

/-! ## Live rows -/

/-- The live rows, ascending. -/
def liveRows (config : Config) (table : Table) : List Nat :=
  (List.range table.nextRow).filter (table.isLive config)

theorem isLive_eq_selects (config : Config) (table : Table) (row : Nat) :
    table.isLive config row =
      selects config.chunkSize (table.chunks.toList.map Chunk.fill) 0 row := by
  rw [selects_zero, isLive, List.getElem?_map, Array.getElem?_toList]
  cases table.chunks[row / config.chunkSize]? <;> rfl

theorem WellFormed.bounded (h : table.WellFormed config) :
    Selection.Bounded config.chunkSize (table.chunks.toList.map Chunk.fill) := by
  intro bits hbits offset hoffset
  obtain ⟨chunk, hmem, rfl⟩ := List.mem_map.mp hbits
  obtain ⟨id, hid⟩ := List.mem_iff_getElem?.mp hmem
  rw [Array.getElem?_toList] at hid
  have hwf := (h.chunk id chunk hid).wellFormed
  exact (hwf.fill.lt offset hoffset).trans_le hwf.capacity_le

theorem WellFormed.rowsFrom_eq_liveRows (h : table.WellFormed config) :
    Selection.rowsFrom config.chunkSize (table.chunks.toList.map Chunk.fill) 0 =
      table.liveRows config := by
  have hlimit : ∀ row, selects config.chunkSize (table.chunks.toList.map Chunk.fill) 0 row = true →
      row < table.nextRow := by
    intro row hrow
    rw [← isLive_eq_selects] at hrow
    exact h.lt_nextRow hrow
  rw [Selection.rowsFrom_eq_filter h.bounded hlimit, liveRows]
  exact List.filter_congr fun row _ => (isLive_eq_selects config table row).symm

/-- The number kept with a table is that of its live rows. -/
theorem WellFormed.live_eq_length (h : table.WellFormed config) :
    table.live = (table.liveRows config).length := by
  rw [← h.rowsFrom_eq_liveRows, Selection.length_rowsFrom, List.map_map, h.live_eq]
  rfl

/-! ## Taking rows out -/

/-- What taking some live rows out does. -/
structure Removed (config : Config) (gone : Nat → Bool) (table table' : Table) : Prop where
  schema_eq : table'.schema = table.schema
  chunks_size : table'.chunks.size = table.chunks.size
  nextRow_eq : table'.nextRow = table.nextRow
  isLive : ∀ row, table'.isLive config row = (table.isLive config row && !gone row)
  cellValue? : ∀ slot row, table'.cellValue? config slot row =
    if gone row then none else table.cellValue? config slot row
  marks : ∀ slot row,
    table'.marks config slot row = (table.marks config slot row && !gone row)

theorem Removed.refl {gone : Nat → Bool} (h : ∀ row, gone row = false) (table : Table) :
    Removed config gone table table where
  schema_eq := rfl
  chunks_size := rfl
  nextRow_eq := rfl
  isLive row := by rw [h, Bool.not_false, Bool.and_true]
  cellValue? slot row := by rw [h]; rfl
  marks slot row := by rw [h, Bool.not_false, Bool.and_true]

theorem Removed.trans {gone gone' : Nat → Bool} {t₁ t₂ t₃ : Table}
    (h : Removed config gone t₁ t₂) (h' : Removed config gone' t₂ t₃) :
    Removed config (fun row => gone row || gone' row) t₁ t₃ where
  schema_eq := h'.schema_eq.trans h.schema_eq
  chunks_size := h'.chunks_size.trans h.chunks_size
  nextRow_eq := h'.nextRow_eq.trans h.nextRow_eq
  isLive row := by rw [h'.isLive, h.isLive, Bool.not_or, Bool.and_assoc]
  cellValue? slot row := by
    rw [h'.cellValue?, h.cellValue?]
    cases gone row <;> cases gone' row <;> rfl
  marks slot row := by rw [h'.marks, h.marks, Bool.not_or, Bool.and_assoc]

theorem Removed.congr {gone gone' : Nat → Bool} {table' : Table}
    (h : Removed config gone table table') (heq : ∀ row, gone' row = gone row) :
    Removed config gone' table table' := by
  rw [show gone' = gone from funext heq]
  exact h

theorem Removed.vacant {gone : Nat → Bool} {table' : Table} (h : Removed config gone table table')
    {row : Nat} (hrow : table.Vacant config row ∨ gone row = true) : table'.Vacant config row := by
  refine ⟨?_, fun slot => ?_, fun slot => ?_⟩
  · rw [h.isLive]
    rcases hrow with hv | hgone
    · rw [hv.isLive, Bool.false_and]
    · rw [hgone, Bool.not_true, Bool.and_false]
  · rw [← cellValue?_eq_none_iff, h.cellValue?]
    rcases hrow with hv | hgone
    · rw [cellValue?_eq_none_iff.mpr (hv.cell? slot), ite_self]
    · rw [if_pos hgone]
  · rw [h.marks]
    rcases hrow with hv | hgone
    · rw [hv.marks, Bool.false_and]
    · rw [hgone, Bool.not_true, Bool.and_false]

theorem Removed.advances {gone : Nat → Bool} {table' : Table}
    (h : Removed config gone table table') : Advances config table table' where
  extends_ := by
    rw [h.schema_eq]
    exact Schema.Extends.refl _
  chunks_size := Nat.le_of_eq h.chunks_size.symm
  nextRow_le := Nat.le_of_eq h.nextRow_eq.symm
  live row hlive := by
    cases hgone : gone row with
    | false => exact Or.inl (by rw [h.isLive, hlive, hgone]; rfl)
    | true => exact Or.inr (h.vacant (Or.inr hgone))
  vacant _ _ hv := h.vacant (Or.inl hv)

theorem Removed.tidy {gone : Nat → Bool} {table' : Table} (h : Removed config gone table table')
    (htidy : table.Tidy config) : table'.Tidy config := by
  intro row hrow
  rw [h.isLive, Bool.and_eq_false_iff, Bool.not_eq_false'] at hrow
  exact h.vacant (hrow.imp_left (htidy row))

/-- The table with rows of one chunk taken out. -/
def withoutRows (table : Table) (id : Nat) (hid : id < table.chunks.size) (removed : Nat)
    (chunk : Chunk) : Table :=
  { table with chunks := table.chunks.set id chunk hid, live := table.live - removed }

theorem removed_withoutRows {id : Nat} (hid : id < table.chunks.size) {gone : Nat → Bool}
    {chunk' : Chunk} (hdel : Chunk.Deleted gone table.chunks[id] chunk') (removed : Nat) :
    Removed config (fun row => decide (row / config.chunkSize = id) &&
      gone (row % config.chunkSize)) table (table.withoutRows id hid removed chunk') := by
  have hreplaced : ∀ other : Nat, (table.withoutRows id hid removed chunk').chunks[other]? =
      if id = other then some chunk' else table.chunks[other]? :=
    fun other => Array.getElem?_set hid
  have hget := Array.getElem?_eq_getElem hid
  refine ⟨rfl, Array.size_set hid, rfl, fun row => ?_, fun slot row => ?_, fun slot row => ?_⟩
  · rw [isLive_of_replaced hreplaced]
    split_ifs with hrow
    · rw [isLive_of_row hget hrow, hdel.fill, decide_eq_true hrow, Bool.true_and]
    · rw [decide_eq_false hrow, Bool.false_and, Bool.not_false, Bool.and_true]
  · rw [cellValue?, cellValue?, cell?_of_replaced hreplaced]
    by_cases hrow : row / config.chunkSize = id
    · rw [if_pos hrow, cell?_of_row hget hrow, hdel.cell?, decide_eq_true hrow, Bool.true_and]
      split_ifs <;> rfl
    · rw [if_neg hrow, decide_eq_false hrow, Bool.false_and]
      rfl
  · rw [marks_of_replaced hreplaced]
    split_ifs with hrow
    · rw [marks_of_row hget hrow, hdel.marks, decide_eq_true hrow, Bool.true_and]
    · rw [decide_eq_false hrow, Bool.false_and, Bool.not_false, Bool.and_true]

theorem WellFormed.withoutRows (h : table.WellFormed config) {id : Nat}
    (hid : id < table.chunks.size) {gone : Nat → Bool} {chunk' : Chunk}
    (hwf : chunk'.WellFormed config.chunkSize table.schema table.dictionaries)
    (hdel : Chunk.Deleted gone table.chunks[id] chunk') {removed : Nat}
    (hcount : removed + chunk'.fill.count = table.chunks[id].fill.count) :
    (table.withoutRows id hid removed chunk').WellFormed config ∧
      Removed config (fun row => decide (row / config.chunkSize = id) &&
        gone (row % config.chunkSize)) table (table.withoutRows id hid removed chunk') ∧
      removed ≤ table.live := by
  have hok := h.chunk id _ (Array.getElem?_eq_getElem hid)
  have hle : table.chunks[id].fill.count ≤ table.live := by
    rw [h.live_eq]
    exact List.single_le_sum (by simp) _
      (List.mem_map.mpr ⟨table.chunks[id], by simp, rfl⟩)
  have hok' : ChunkOk config table.schema table.dictionaries table.nextRow id chunk' := by
    refine ⟨hwf, hdel.indexed hok.indexed, fun offset hoffset => hok.lt_nextRow offset ?_⟩
    rw [hdel.fill, Bool.and_eq_true] at hoffset
    exact hoffset.1
  exact ⟨h.setChunk hid rfl (Column.AllExtend.refl _) h.dictionary hok' le_rfl h.nextRow_le
    (by omega), removed_withoutRows hid hdel removed, by omega⟩

/-! ## Deleting one row -/

theorem WellFormed.deleteAt_of_le (h : table.WellFormed config) {row : Nat}
    (hrow : table.nextRow ≤ row) :
    deleteAt config row table = (.error (.outOfRange row table.nextRow), table) := by
  unfold deleteAt
  rw [h.checkRow_eq, if_neg (by omega)]

theorem WellFormed.deleteAt_of_live (h : table.WellFormed config) {row : Nat}
    (hlive : table.isLive config row = true) :
    ∃ table', deleteAt config row table = (.ok true, table') ∧ table'.WellFormed config ∧
      Removed config (fun other => decide (other = row)) table table' ∧
      table'.live = table.live - 1 := by
  have hrow := h.lt_nextRow hlive
  have hid : row / config.chunkSize < table.chunks.size := by
    rw [Nat.div_lt_iff_lt_mul h.chunkSize_pos]
    exact hrow.trans_le h.nextRow_le
  have hok := h.chunk _ _ (Array.getElem?_eq_getElem hid)
  have hfill : table.chunks[row / config.chunkSize].fill.contains (row % config.chunkSize) =
      true := by
    rw [isLive, Array.getElem?_eq_getElem hid, Option.any_some] at hlive
    exact hlive
  obtain ⟨chunk', hdelete, hwf, -, hdel, hcount⟩ := Chunk.delete_of_live hok.wellFormed hfill
  obtain ⟨hwf', hrem, -⟩ := h.withoutRows hid hwf hdel hcount
  refine ⟨table.withoutRows _ hid 1 chunk', ?_, hwf', hrem.congr fun other => ?_, rfl⟩
  · unfold Table.deleteAt
    rw [h.checkRow_eq, if_pos hrow]
    simp only
    rw [updateAt_of_lt _ _ _ _ hid, hdelete]
    rfl
  · rw [Bool.eq_iff_iff, Bool.and_eq_true, decide_eq_true_iff, decide_eq_true_iff,
      decide_eq_true_iff, row_eq_iff]
    exact and_congr_right fun _ => eq_comm

theorem WellFormed.deleteAt_of_not_live (h : table.WellFormed config) {row : Nat}
    (hrow : row < table.nextRow) (hlive : table.isLive config row = false) :
    deleteAt config row table = (.ok false, table) := by
  have hid : row / config.chunkSize < table.chunks.size := by
    rw [Nat.div_lt_iff_lt_mul h.chunkSize_pos]
    exact hrow.trans_le h.nextRow_le
  have hfill : table.chunks[row / config.chunkSize].fill.contains (row % config.chunkSize) =
      false := by
    rw [isLive, Array.getElem?_eq_getElem hid, Option.any_some] at hlive
    exact hlive
  unfold Table.deleteAt
  rw [h.checkRow_eq, if_pos hrow]
  simp only
  rw [updateAt_of_lt _ _ _ _ hid, Chunk.delete_of_not_live hfill, Array.set_getElem_self]
  rfl

/-! ## Deleting a selection -/

/-- The table after the selected rows of the chunks from `id` on were taken out. -/
def deleted (table : Table) (selection : List Bitmap) (id : Nat) : Table :=
  { table with
    chunks := (Transaction.deleteFrom selection id table.chunks).2
    live := table.live - (Transaction.deleteFrom selection id table.chunks).1 }

theorem deleted_cons_of_isEmpty {bits : Bitmap} (h : bits.isEmpty = true) (table : Table)
    (rest : List Bitmap) (id : Nat) :
    table.deleted (bits :: rest) id = table.deleted rest (id + 1) ∧
      (Transaction.deleteFrom (bits :: rest) id table.chunks).1 =
        (Transaction.deleteFrom rest (id + 1) table.chunks).1 := by
  unfold deleted
  simp [Transaction.deleteFrom, h]

theorem deleted_cons_of_le {id : Nat} (hid : table.chunks.size ≤ id) (bits : Bitmap)
    (rest : List Bitmap) :
    table.deleted (bits :: rest) id = table.deleted rest (id + 1) ∧
      (Transaction.deleteFrom (bits :: rest) id table.chunks).1 =
        (Transaction.deleteFrom rest (id + 1) table.chunks).1 := by
  unfold deleted
  cases hempty : bits.isEmpty <;>
    simp [Transaction.deleteFrom, hempty, updateAt_of_size_le _ _ _ _ hid]

theorem deleted_cons_of_lt {id : Nat} (hid : id < table.chunks.size) {bits : Bitmap}
    (h : bits.isEmpty = false) (rest : List Bitmap) :
    table.deleted (bits :: rest) id =
        (table.withoutRows id hid (table.chunks[id].deleteSelected bits).1
          (table.chunks[id].deleteSelected bits).2).deleted rest (id + 1) ∧
      (Transaction.deleteFrom (bits :: rest) id table.chunks).1 =
        (table.chunks[id].deleteSelected bits).1 +
          (Transaction.deleteFrom rest (id + 1) (table.withoutRows id hid
            (table.chunks[id].deleteSelected bits).1
            (table.chunks[id].deleteSelected bits).2).chunks).1 := by
  unfold deleted withoutRows
  simp [Transaction.deleteFrom, h, updateAt_of_lt _ _ _ _ hid, Nat.sub_sub]

/-- Deleting a selection takes out the selected rows that are live. -/
theorem WellFormed.deleteFrom (h : table.WellFormed config) (selection : List Bitmap) (id : Nat) :
    (table.deleted selection id).WellFormed config ∧
      Removed config (fun row => selects config.chunkSize selection id row &&
        table.isLive config row) table (table.deleted selection id) ∧
      (Transaction.deleteFrom selection id table.chunks).1 ≤ table.live := by
  induction selection generalizing table id with
  | nil =>
    refine ⟨?_, ?_, Nat.zero_le _⟩
    · exact h
    · exact Removed.refl (fun row => by rw [selects, Bool.false_and]) table
  | cons bits rest ih =>
    -- whether or not rows of this chunk go, the rest is deleted from what is left
    have hskip : (∀ row, (decide (row / config.chunkSize = id) &&
          bits.contains (row % config.chunkSize) && table.isLive config row) = false) →
        table.deleted (bits :: rest) id = table.deleted rest (id + 1) ∧
          (Transaction.deleteFrom (bits :: rest) id table.chunks).1 =
            (Transaction.deleteFrom rest (id + 1) table.chunks).1 →
        (table.deleted (bits :: rest) id).WellFormed config ∧
          Removed config (fun row => selects config.chunkSize (bits :: rest) id row &&
            table.isLive config row) table (table.deleted (bits :: rest) id) ∧
          (Transaction.deleteFrom (bits :: rest) id table.chunks).1 ≤ table.live := by
      rintro hnone ⟨htable, hcount⟩
      obtain ⟨hwf, hrem, hle⟩ := ih h (id + 1)
      rw [htable, hcount]
      refine ⟨hwf, hrem.congr fun row => ?_, hle⟩
      rw [selects, Bool.and_or_distrib_right, hnone, Bool.false_or]
    cases hempty : bits.isEmpty with
    | true =>
      refine hskip (fun row => ?_) (deleted_cons_of_isEmpty hempty table rest id)
      rw [Bitmap.isEmpty_iff.mp hempty, Bool.and_false, Bool.false_and]
    | false =>
      rcases Nat.lt_or_ge id table.chunks.size with hid | hid
      · have hok := h.chunk id _ (Array.getElem?_eq_getElem hid)
        obtain ⟨hwf₁, hdel, -⟩ := hok.wellFormed.deleteSelected bits
        obtain ⟨hwf₂, hrem₁, hle₁⟩ :=
          h.withoutRows hid hwf₁ hdel (hok.wellFormed.deleteSelected_count bits)
        obtain ⟨hwf₃, hrem₂, hle₂⟩ := ih hwf₂ (id + 1)
        obtain ⟨htable, hcount⟩ := deleted_cons_of_lt hid hempty rest
        rw [htable, hcount]
        refine ⟨hwf₃, (hrem₁.trans hrem₂).congr fun row => ?_, ?_⟩
        · have hgone : (decide (row / config.chunkSize = id) &&
              table.chunks[id].doomed bits (row % config.chunkSize)) =
              (decide (row / config.chunkSize = id) && bits.contains (row % config.chunkSize) &&
                table.isLive config row) := by
            by_cases hrow : row / config.chunkSize = id
            · rw [isLive, hrow, Array.getElem?_eq_getElem hid, Option.any_some, Chunk.doomed]
              simp
            · rw [decide_eq_false hrow]
              rfl
          rw [hrem₁.isLive, hgone, selects]
          cases table.isLive config row <;>
            cases decide (row / config.chunkSize = id) && bits.contains (row % config.chunkSize) <;>
            simp
        · have hlive : (table.withoutRows id hid (table.chunks[id].deleteSelected bits).1
              (table.chunks[id].deleteSelected bits).2).live =
              table.live - (table.chunks[id].deleteSelected bits).1 := rfl
          omega
      · refine hskip (fun row => ?_) (deleted_cons_of_le hid bits rest)
        by_cases hrow : row / config.chunkSize = id
        · rw [isLive, hrow, Array.getElem?_eq_none hid, Option.any_none, Bool.and_false]
        · rw [decide_eq_false hrow]
          rfl

theorem liveRows_length (config : Config) (table : Table) :
    (table.liveRows config).length = (List.range table.nextRow).countP (table.isLive config) := by
  rw [liveRows, List.countP_eq_length_filter]

/-- As many rows go as are selected and live. -/
theorem WellFormed.countP_deleted (h : table.WellFormed config) {selection : List Bitmap}
    (hbounded : Selection.Bounded config.chunkSize selection)
    (hlt : ∀ row, selects config.chunkSize selection 0 row = true → row < table.nextRow) :
    (Transaction.deleteFrom selection 0 table.chunks).1 =
      (Selection.rowsFrom config.chunkSize selection 0).countP (table.isLive config) := by
  obtain ⟨hwf, hrem, hle⟩ := h.deleteFrom selection 0
  have hlive : (table.deleted selection 0).live =
      table.live - (Transaction.deleteFrom selection 0 table.chunks).1 := rfl
  have hleft : ((table.deleted selection 0).liveRows config).length =
      ((List.range table.nextRow).filter fun row =>
        !selects config.chunkSize selection 0 row).countP (table.isLive config) := by
    rw [liveRows_length, hrem.nextRow_eq, List.countP_filter]
    refine List.countP_congr fun row _ => ?_
    rw [hrem.isLive]
    cases table.isLive config row <;> simp
  have hsplit := List.countP_eq_countP_filter_add (List.range table.nextRow) (table.isLive config)
    (selects config.chunkSize selection 0)
  rw [← liveRows_length, ← h.live_eq_length, ← Selection.rowsFrom_eq_filter hbounded hlt, ← hleft,
    ← hwf.live_eq_length, hlive] at hsplit
  omega

end Table

end ColumnStore
