import ColumnStore.Proofs.Sheet

/-!
# The sheet of a table

`Table.sheet` reads a table as a sheet. For a well-formed table whose indexes all have their
predicates and whose dead rows hold nothing (`Table.Plain`), reading the table is reading its sheet
(`WellFormed.fetch_sheet`, `WellFormed.valueAt_sheet`, `WellFormed.count_sheet`,
`Plain.satisfies_sheet`), and every operation on the table is the operation on its sheet
(`Plain.createColumn_sheet` and the like).
-/

namespace ColumnStore

namespace Table

open Selection (selects rowsFrom)

variable {config : Config} {table : Table}

/-- The sheet that a table shows. -/
def sheet (config : Config) (table : Table) : Sheet where
  columns := table.schema.columns.toList
  rules := table.schema.indexes.toList.map fun index =>
    ⟨index.name, index.source, index.predicate.getD fun _ => false⟩
  rows := table.rows config

/-! ## Reading -/

theorem WellFormed.row?_sheet (h : table.WellFormed config) (row : Nat) :
    (table.sheet config).row? row =
      if table.isLive config row then some (table.rowAt config row) else none :=
  h.getElem?_rows row

theorem rules_sheet (config : Config) (table : Table) :
    (table.sheet config).rules.map Sheet.Rule.name =
      table.schema.indexes.toList.map Index.name := by
  rw [sheet, List.map_map]
  rfl

theorem isTaken_sheet (config : Config) (table : Table) (name : String) :
    (table.sheet config).isTaken name = table.schema.isTaken name := by
  have hsome := congrArg not (Transaction.isNone_lookup table.schema name)
  rw [Bool.not_not, Option.not_isNone] at hsome
  rw [Sheet.isTaken, rules_sheet]
  exact hsome.symm

theorem columnNamed_sheet (config : Config) (table : Table) (name : String) :
    columnNamed (table.sheet config).columns name = (table.schema.column? name).map Prod.snd :=
  table.schema.columnNamed_eq name

/-- What is read of a row is its field in the sheet. -/
theorem WellFormed.read?_sheet (h : table.WellFormed config) {name : String} {slot : Nat}
    {column : Column} (hcolumn : table.schema.column? name = some (slot, column)) (row : Nat) :
    table.read? config slot row = ((table.sheet config).row? row).bind fun r => r name := by
  rw [h.row?_sheet, read?]
  split_ifs with hlive
  · rw [Option.bind_some, rowAt, hcolumn, Option.bind_some]
  · rfl

theorem WellFormed.valueAt_sheet (h : table.WellFormed config) (name : String) (row : Nat) :
    table.valueAt config name row = (table.sheet config).valueAt name row := by
  have hlength : (table.sheet config).rows.length = table.nextRow := length_rows config table
  rw [h.valueAt_eq, Sheet.valueAt, columnNamed_sheet, hlength]
  cases hcolumn : table.schema.column? name with
  | none => rfl
  | some found =>
    obtain ⟨slot, column⟩ := found
    simp only [h.read?_sheet hcolumn]
    rfl

/-- Columns with their slots are the columns by name. -/
theorem filterMap_zipIdx_fst {α β : Type} (xs : List α) (f : α → Option β) :
    xs.zipIdx.filterMap (fun x => f x.1) = xs.filterMap f := by
  have hmap : xs.zipIdx.map Prod.fst = xs := List.zipIdx_map_fst 0 xs
  conv_rhs => rw [← hmap, List.filterMap_map]
  rfl

theorem WellFormed.fetch_sheet (h : table.WellFormed config) (row : Nat) :
    table.fetch config row = (table.sheet config).fetch row := by
  rw [h.fetch_eq, Sheet.fetch, h.row?_sheet]
  split_ifs with hlive
  · rw [Option.map_some, ← filterMap_zipIdx_fst (table.sheet config).columns]
    congr 1
    refine List.filterMap_congr fun entry hentry => ?_
    obtain ⟨column, slot⟩ := entry
    have hslot : table.schema.columns[slot]? = some column := Schema.mem_zipIdx_iff.mp hentry
    have hcolumn := h.schema.column?_eq_some_iff.mpr ⟨hslot, rfl⟩
    rw [rowAt, hcolumn, Option.bind_some]
  · rfl

theorem WellFormed.count_sheet (h : table.WellFormed config) :
    table.live = (table.sheet config).count := by
  rw [h.live_eq_length, Sheet.count, liveRows, sheet, rows, List.countP_map,
    ← List.countP_eq_length_filter]
  refine List.countP_congr fun row _ => ?_
  show table.isLive config row = true ↔
    (if table.isLive config row then some (table.rowAt config row) else none).isSome = true
  cases table.isLive config row <;> simp

/-! ## Plain tables -/

/-- A table as it is without loads: every index has its predicate, and rows that are not live hold
    nothing. -/
structure Plain (config : Config) (table : Table) : Prop where
  wellFormed : table.WellFormed config
  attached : ∀ index ∈ table.schema.indexes, index.predicate.isSome
  tidy : table.Tidy config

variable {name source : String}

theorem Plain.registerIndex_of_unknown (hunknown : table.schema.column? source = none)
    (predicate : Value → Bool) :
    registerIndex table.schema name source predicate = .error (.unknownColumn source) := by
  rw [registerIndex, hunknown]

theorem Plain.registerIndex_of_taken (h : table.Plain config)
    (hsource : (table.schema.column? source).isSome) (htaken : table.schema.isTaken name = true)
    (predicate : Value → Bool) :
    registerIndex table.schema name source predicate = .error (.duplicateName name) := by
  obtain ⟨⟨sourceSlot, column⟩, hcolumn⟩ := Option.isSome_iff_exists.mp hsource
  unfold registerIndex
  simp only [hcolumn]
  cases hlookup : table.schema.lookup name with
  | none => simp [Schema.isTaken, hlookup] at htaken
  | some slot =>
    cases slot with
    | column slot => rfl
    | index slot =>
      obtain ⟨index, hindex, -⟩ := Schema.exists_of_lookup_index hlookup
      have hattached : index.isAttached = true := h.attached index (Array.mem_of_getElem? hindex)
      simp only [hindex, hattached, Bool.true_or, if_true]

theorem registerIndex_of_free {sourceSlot : Nat} {column : Column}
    (hcolumn : table.schema.column? source = some (sourceSlot, column))
    (hfree : table.schema.isTaken name = false) (predicate : Value → Bool) :
    registerIndex table.schema name source predicate =
      .ok ({ table.schema with
          indexes := table.schema.indexes.push ⟨name, source, sourceSlot, some predicate⟩ },
        table.schema.indexes.size, ⟨name, source, sourceSlot, some predicate⟩) := by
  have hlookup : table.schema.lookup name = none := by
    rwa [Schema.isTaken, Option.isSome_eq_false_iff, Option.isNone_iff_eq_none] at hfree
  unfold registerIndex Schema.addIndex
  simp only [hcolumn, hlookup, hfree]
  rfl

/-! ## Columns and indexes -/

/-- A row does not have a column that comes later. -/
theorem WellFormed.rowAt_withColumn (h : table.WellFormed config) {column : Column}
    (hfree : table.schema.isTaken column.name = false) (row : Nat) :
    (table.withColumn column).rowAt config row = table.rowAt config row := by
  have hnew := h.createColumn hfree
  funext other
  rw [rowAt, rowAt]
  cases hcolumn : table.schema.column? other with
  | some found =>
    have hfound : (table.withColumn column).schema.column? other = some found :=
      (Schema.extends_addColumn table.schema column).column? hnew.schema hcolumn
    rw [hfound, Option.bind_some, Option.bind_some, cellValue?_withColumn]
  | none =>
    rw [Option.bind_none]
    cases hfound : (table.withColumn column).schema.column? other with
    | none => rfl
    | some found =>
      obtain ⟨slot, late⟩ := found
      rw [Option.bind_some, cellValue?_withColumn, cellValue?_eq_none_iff]
      obtain ⟨hslot, hname⟩ := Schema.exists_of_column? hfound
      cases hcell : table.cell? config slot row with
      | none => rfl
      | some cell =>
        -- a slot that holds a cell has a column, which has the name already
        obtain ⟨⟨old, hold, -⟩, -⟩ := h.kind_of_cell? hcell
        have hsame := (Schema.extends_addColumn table.schema column).columns slot old hold
        rw [show (table.withColumn column).schema.columns[slot]? = some old from hsame] at hslot
        cases hslot
        rw [h.schema.column?_eq_some_iff.mpr ⟨hold, hname⟩] at hcolumn
        cases hcolumn

theorem rows_congr {table' : Table} (hnext : table'.nextRow = table.nextRow)
    (hlive : ∀ row, table'.isLive config row = table.isLive config row)
    (hrow : ∀ row, table'.rowAt config row = table.rowAt config row) :
    table'.rows config = table.rows config := by
  simp only [rows, hnext, hlive, hrow]

theorem Plain.createColumn_sheet (h : table.Plain config) (name : String) (kind : Kind) :
    (createColumn name kind table).1 = ((table.sheet config).createColumn name kind).1 ∧
      (createColumn name kind table).2.sheet config =
        ((table.sheet config).createColumn name kind).2 ∧
      (createColumn name kind table).2.Plain config := by
  rw [Sheet.createColumn, isTaken_sheet]
  cases htaken : table.schema.isTaken name with
  | true =>
    rw [createColumn_of_taken htaken]
    exact ⟨rfl, rfl, h⟩
  | false =>
    have hsteps := h.wellFormed.createColumn_steps name kind
    rw [createColumn_of_free htaken] at hsteps ⊢
    refine ⟨rfl, ?_, hsteps.wellFormed, h.attached, hsteps.tidy h.tidy⟩
    have hrows : (table.withColumn ⟨name, kind⟩).rows config = table.rows config :=
      rows_congr rfl (fun _ => rfl) (h.wellFormed.rowAt_withColumn htaken)
    unfold sheet
    rw [hrows]
    simp only [withColumn, Array.toList_push]
    rfl

theorem WellFormed.rows_withIndex (h : table.WellFormed config) {predicate : Value → Bool}
    {schema' : Schema} {slot : Nat} {index : Index}
    (hreg : Registers table.schema name source predicate schema' slot index) :
    (table.withIndex schema' slot index).rows config = table.rows config := by
  refine rows_congr rfl (h.isLive_withIndex hreg) fun row => ?_
  funext other
  have hcolumn : (table.withIndex schema' slot index).schema.column? other =
      table.schema.column? other := Schema.column?_congr hreg.columns_eq other
  simp only [rowAt, hcolumn, h.cellValue?_withIndex hreg]

theorem Plain.createIndex_sheet (h : table.Plain config) (name source : String)
    (predicate : Value → Bool) :
    (createIndex name source predicate table).1 =
        ((table.sheet config).createIndex name source predicate).1 ∧
      (createIndex name source predicate table).2.sheet config =
        ((table.sheet config).createIndex name source predicate).2 ∧
      (createIndex name source predicate table).2.Plain config := by
  rw [Sheet.createIndex, isTaken_sheet, columnNamed_sheet]
  cases hcolumn : table.schema.column? source with
  | none =>
    rw [createIndex_of_error (Plain.registerIndex_of_unknown hcolumn predicate)]
    exact ⟨rfl, rfl, h⟩
  | some found =>
    obtain ⟨sourceSlot, column⟩ := found
    cases htaken : table.schema.isTaken name with
    | true =>
      rw [createIndex_of_error (h.registerIndex_of_taken (by rw [hcolumn]; rfl) htaken predicate)]
      exact ⟨rfl, rfl, h⟩
    | false =>
      have hreg := registerIndex_of_free hcolumn htaken predicate
      have hregisters := registers_of_ok h.wellFormed.schema hreg
      have hsteps := h.wellFormed.createIndex_steps name source predicate
      rw [createIndex_of_ok hreg] at hsteps ⊢
      refine ⟨rfl, ?_, hsteps.wellFormed, ?_, hsteps.tidy h.tidy⟩
      · unfold sheet
        rw [h.wellFormed.rows_withIndex hregisters]
        simp only [withIndex, Array.toList_push, List.map_append]
        rfl
      · intro index hindex
        rcases Array.mem_push.mp hindex with hold | rfl
        · exact h.attached index hold
        · rfl

end Table

end ColumnStore
