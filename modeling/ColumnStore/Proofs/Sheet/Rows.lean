import ColumnStore.Proofs.Sheet.Table

/-!
# Writing rows of a sheet

Inserting a record and taking rows out, on a plain table and on its sheet: `Plain.insert_sheet`,
`Plain.deleteAt_sheet` and `Plain.deleteFrom_sheet`.
-/

namespace ColumnStore

namespace Table

open Selection (selects rowsFrom)

variable {config : Config} {table : Table}

/-! ## Inserting -/

/-- The fault of a record is that of its first field that does not fit. -/
theorem findSome?_fieldFault (config : Config) (table : Table) (record : Record) :
    record.findSome? (table.sheet config).fieldFault? =
      ((fields table.schema record).find? illTyped).map fun field =>
        field.2.1.mismatch field.2.2 := by
  induction record with
  | nil => rfl
  | cons field rest ih =>
    obtain ⟨name, value⟩ := field
    rw [List.findSome?_cons, Sheet.fieldFault?, columnNamed_sheet, fields, List.filterMap_cons]
    cases hcolumn : table.schema.column? name with
    | none =>
      simp only [hcolumn, Option.map_none, Option.bind_none]
      exact ih
    | some found =>
      obtain ⟨slot, column⟩ := found
      simp only [hcolumn, Option.map_some, Option.bind_some]
      cases haccepts : column.kind.accepts value with
      | false => simp [illTyped, haccepts]
      | true =>
        simp only [if_true, List.find?_cons, illTyped, haccepts, Bool.not_true]
        exact ih

/-- What the fields of a record leave in the slot of a column is what the record has last for its
    name. -/
theorem stored_fields {name : String} {slot : Nat} {column : Column}
    (hcolumn : table.schema.column? name = some (slot, column)) (record : Record) :
    stored slot (fields table.schema record) = record.last? name := by
  induction record with
  | nil => rfl
  | cons field rest ih =>
    obtain ⟨other, value⟩ := field
    rw [Record.last?, ← ih, fields, List.filterMap_cons]
    cases hother : table.schema.column? other with
    | none =>
      have hne : other ≠ name := by
        rintro rfl
        rw [hcolumn] at hother
        cases hother
      simp only [hother, Option.map_none, hne, if_false, Option.or_none]
      rfl
    | some found =>
      obtain ⟨otherSlot, otherColumn⟩ := found
      have hiff : otherSlot = slot ↔ other = name := by
        obtain ⟨hc, hname⟩ := Schema.exists_of_column? hcolumn
        obtain ⟨hc', hname'⟩ := Schema.exists_of_column? hother
        constructor
        · rintro rfl
          rw [hc] at hc'
          cases hc'
          exact hname'.symm.trans hname
        · rintro rfl
          rw [hcolumn] at hother
          cases hother
          rfl
      simp only [hother, Option.map_some, stored, hiff]
      rfl

/-- The new row is the one that the record makes. -/
theorem rowAt_inserted {record : Record} {table' : Table}
    (hins : Inserted config (fields table.schema record) table table')
    (hvacant : table.Vacant config table.nextRow) :
    table'.rowAt config table.nextRow = Row.ofRecord (table.sheet config).columns record := by
  funext name
  rw [rowAt, Row.ofRecord, hins.schema_eq, columnNamed_sheet]
  cases hcolumn : table.schema.column? name with
  | none => rfl
  | some found =>
    obtain ⟨slot, column⟩ := found
    have hold : table.cellValue? config slot table.nextRow = none :=
      cellValue?_eq_none_iff.mpr (hvacant.cell? slot)
    rw [Option.bind_some, hins.cellValue?, if_pos rfl, hold, Option.or_none,
      stored_fields hcolumn]
    rfl

theorem rows_inserted {record : Record} {table' : Table}
    (hins : Inserted config (fields table.schema record) table table')
    (hvacant : table.Vacant config table.nextRow) :
    table'.rows config =
      table.rows config ++ [some (Row.ofRecord (table.sheet config).columns record)] := by
  rw [rows, hins.nextRow_eq, List.range_succ, List.map_append, List.map_singleton]
  have hlast : table'.isLive config table.nextRow = true := by
    rw [hins.isLive, decide_eq_true rfl, Bool.true_or]
  rw [if_pos hlast, rowAt_inserted hins hvacant]
  congr 1
  refine List.map_congr_left fun row hrow => ?_
  have hne : row ≠ table.nextRow := Nat.ne_of_lt (List.mem_range.mp hrow)
  have hsame : table'.rowAt config row = table.rowAt config row :=
    rowAt_congr hins.schema_eq fun slot => by rw [hins.cellValue?, if_neg hne]
  rw [hins.isLive, decide_eq_false (Ne.symm hne), Bool.false_or, hsame]

/-- What inserting a record answers. -/
theorem WellFormed.insert_answer (h : table.WellFormed config) (record : Record) :
    (Table.insert config record table).1 = ((table.sheet config).insert record).1 := by
  rw [Sheet.insert, findSome?_fieldFault]
  cases hfind : (fields table.schema record).find? illTyped with
  | some field =>
    obtain ⟨slot, column, value⟩ := field
    rw [insert_of_illTyped hfind]
    rfl
  | none =>
    obtain ⟨table', hinsert, -⟩ := h.insert hfind
    rw [hinsert]
    show Except.ok table.nextRow = Except.ok (table.rows config).length
    rw [length_rows]

theorem Plain.insert_sheet (h : table.Plain config) (record : Record) :
    (insert config record table).1 = ((table.sheet config).insert record).1 ∧
      (insert config record table).2.sheet config = ((table.sheet config).insert record).2 ∧
      (insert config record table).2.Plain config := by
  refine ⟨h.wellFormed.insert_answer record, ?_⟩
  rw [Sheet.insert, findSome?_fieldFault]
  cases hfind : (fields table.schema record).find? illTyped with
  | some field =>
    obtain ⟨slot, column, value⟩ := field
    rw [insert_of_illTyped hfind]
    exact ⟨rfl, h⟩
  | none =>
    obtain ⟨table', hinsert, hwf, hins⟩ := h.wellFormed.insert hfind
    rw [hinsert]
    have hvacant : table.Vacant config table.nextRow := by
      apply h.tidy
      rw [← Bool.not_eq_true]
      exact fun hlive => Nat.lt_irrefl _ (h.wellFormed.lt_nextRow hlive)
    refine ⟨?_, hwf, ?_, hins.tidy h.tidy⟩
    · unfold sheet
      rw [rows_inserted hins hvacant, hins.schema_eq]
      rfl
    · rw [hins.schema_eq]
      exact h.attached

/-! ## Taking rows out -/

/-- Rows that are taken out are gone from the sheet. -/
theorem Removed.rows {gone : Nat → Bool} {table' : Table}
    (h : Removed config gone table table') :
    table'.rows config = (table.rows config).mapIdx fun row r => if gone row then none else r := by
  rw [Table.rows, Table.rows, h.nextRow_eq]
  apply List.ext_getElem
  · simp
  · intro row hrow hrow'
    rw [List.getElem_map, List.getElem_mapIdx, List.getElem_range, h.isLive]
    cases hgone : gone row with
    | true => simp
    | false =>
      have hsame : table'.rowAt config row = table.rowAt config row :=
        rowAt_congr h.schema_eq fun slot => by rw [h.cellValue?, hgone]; rfl
      simp only [Bool.not_false, Bool.and_true, hsame]
      rw [if_neg Bool.false_ne_true, List.getElem_map, List.getElem_range]

theorem Removed.plain {gone : Nat → Bool} {table' : Table} (h : Removed config gone table table')
    (hwf : table'.WellFormed config) (hplain : table.Plain config) : table'.Plain config where
  wellFormed := hwf
  attached := by
    rw [h.schema_eq]
    exact hplain.attached
  tidy := h.tidy hplain.tidy

theorem Plain.deleteAt_sheet (h : table.Plain config) (row : Nat) :
    (deleteAt config row table).1 = ((table.sheet config).deleteAt row).1 ∧
      (deleteAt config row table).2.sheet config = ((table.sheet config).deleteAt row).2 ∧
      (deleteAt config row table).2.Plain config := by
  have hlength : (table.sheet config).rows.length = table.nextRow := length_rows config table
  rw [Sheet.deleteAt, hlength, h.wellFormed.row?_sheet]
  rcases Nat.lt_or_ge row table.nextRow with hrow | hrow
  · rw [if_pos hrow]
    cases hlive : table.isLive config row with
    | true =>
      obtain ⟨table', hdelete, hwf, hrem, -⟩ := h.wellFormed.deleteAt_of_live hlive
      rw [hdelete]
      refine ⟨rfl, ?_, hrem.plain hwf h⟩
      unfold sheet
      rw [hrem.rows, hrem.schema_eq]
      congr 1
      apply List.ext_getElem
      · simp
      · intro other hother hother'
        rw [List.getElem_mapIdx, List.getElem_set]
        by_cases heq : row = other <;> simp [heq, eq_comm]
    | false =>
      rw [h.wellFormed.deleteAt_of_not_live hrow hlive]
      refine ⟨rfl, ?_, h⟩
      have hlt : row < (table.rows config).length := by
        rw [length_rows]
        exact hrow
      have hnone : (table.rows config)[row] = none := by
        simp [rows, hlive]
      show table.sheet config = { table.sheet config with rows := (table.rows config).set row none }
      rw [← hnone, List.set_getElem_self]
      rfl
  · rw [if_neg (by omega), h.wellFormed.deleteAt_of_le hrow]
    exact ⟨rfl, rfl, h⟩

theorem Plain.deleteFrom_sheet (h : table.Plain config) {selection : List Bitmap}
    (hbounded : Selection.Bounded config.chunkSize selection)
    (hlt : ∀ row, selects config.chunkSize selection 0 row = true → row < table.nextRow) :
    (Transaction.deleteFrom selection 0 table.chunks).1 =
        ((table.sheet config).deleteRows (rowsFrom config.chunkSize selection 0)).1 ∧
      (table.deleted selection 0).sheet config =
        ((table.sheet config).deleteRows (rowsFrom config.chunkSize selection 0)).2 ∧
      (table.deleted selection 0).Plain config := by
  obtain ⟨hwf, hrem, -⟩ := h.wellFormed.deleteFrom selection 0
  refine ⟨?_, ?_, hrem.plain hwf h⟩
  · rw [h.wellFormed.countP_deleted hbounded hlt, Sheet.deleteRows]
    refine List.countP_congr fun row _ => ?_
    rw [h.wellFormed.row?_sheet]
    cases table.isLive config row <;> simp
  · unfold sheet Sheet.deleteRows
    rw [hrem.rows, hrem.schema_eq]
    congr 1
    apply List.ext_getElem
    · simp
    · intro row hrow hrow'
      rw [List.getElem_mapIdx, List.getElem_mapIdx]
      simp only [Selection.mem_rowsFrom hbounded]
      cases selects config.chunkSize selection 0 row with
      | false => rfl
      | true =>
        -- a selected row that is not live is gone already
        cases hlive : table.isLive config row <;> simp [rows, hlive]

end Table

end ColumnStore
