import ColumnStore.Proofs.Row
import ColumnStore.Proofs.Table.Delete
import ColumnStore.Proofs.Transaction.Visit

/-!
# Filters row by row

`Filter` collects the four filters. `Filter.fault?` says when one is refused, which depends on the
names that its transaction knows, and `Collection.satisfies` when a row passes it, by the values
that the row has at that moment. `Open.apply_of_fault` and `Open.apply_of_fine`: a filter on an open
transaction fails with its fault, or keeps exactly the selected rows that satisfy it.

`Open` is the invariant of a transaction whose contents were not retired: what it selected is live
or gone for good.
-/

namespace ColumnStore

open Selection (selects rowsFrom mem_rowsFrom)

/-- A filter of a transaction. -/
inductive Filter where
  /-- Keeps the rows that every named selector keeps. -/
  | select (names : List String)
  /-- Keeps the rows by their number in a column of numbers. -/
  | whereFloat (column : String) (f : Binary64 → Bool)
  /-- Keeps the rows by their text in a column that has texts. -/
  | whereString (column : String) (f : String → Bool)
  /-- Keeps the rows by their value in any column. -/
  | whereValue (column : String) (f : Value → Bool)

namespace Filter

/-- The transaction with the filter applied. -/
def apply (filter : Filter) (t : Transaction) (c : Collection) : Except Error Transaction :=
  match filter with
  | select names => t.select c names
  | whereFloat column f => t.whereFloat c column f
  | whereString column f => t.whereString c column f
  | whereValue column f => t.whereValue c column f

/-- Why the filter is refused where only some columns and indexes are known. -/
def fault? (columns : List Column) (indexes : List String) : Filter → Option Error
  | select names =>
    (names.find? fun name =>
      !((columnNamed columns name).isSome || indexes.contains name)).map Error.unknownSelector
  | whereFloat name _ =>
    match columnNamed columns name with
    | none => some (.unknownSelector name)
    | some column =>
      if column.kind = .float64 then none
      else some (.typeMismatch name Kind.float64.name column.kind.name)
  | whereString name _ =>
    match columnNamed columns name with
    | none => some (.unknownSelector name)
    | some column =>
      if column.kind = .enum ∨ column.kind = .any then none
      else some (.typeMismatch name Kind.enum.name column.kind.name)
  | whereValue name _ =>
    match columnNamed columns name with
    | none => some (.unknownSelector name)
    | some _ => none

end Filter

namespace Collection

/-- The value that a row has in a column, as reading it gives. -/
def current (c : Collection) (column : String) (row : Nat) : Option Value :=
  (c.valueAt column row).toOption.join

/-- Whether a selector keeps a row: an index with a predicate asks it about the present source value
    and an index without one its bit; a column of truth values has to be present and true, any other
    column to be present. -/
def keeps (c : Collection) (name : String) (row : Nat) : Bool :=
  match c.table.schema.column? name with
  | some (_, column) =>
    if column.kind = .bool then (c.current name row).any fun v => v.asBool? == some true
    else (c.current name row).isSome
  | none =>
    match c.table.schema.index? name with
    | some (slot, index) =>
      match index.predicate with
      | some predicate => (c.current index.source row).any predicate
      | none => c.table.marks c.config slot row
    | none => false

/-- Whether a row satisfies a filter, judged by its present values. -/
def satisfies (c : Collection) : Filter → Nat → Bool
  | .select names, row => names.all fun name => c.keeps name row
  | .whereFloat column f, row => (c.current column row).any fun v => v.asFloat64?.any f
  | .whereString column f, row => (c.current column row).any fun v => v.asString?.any f
  | .whereValue column f, row => (c.current column row).any f

end Collection

namespace Transaction

/-- A transaction whose contents are those of a table. -/
structure Open (config : Config) (table : Table) (t : Transaction) : Prop where
  schema : t.schema.WellFormed
  extends_ : t.schema.Extends table.schema
  size_le : t.selection.size ≤ table.chunks.size
  bounded : Selection.Bounded config.chunkSize t.selection.toList
  settled : ∀ row, selects config.chunkSize t.selection.toList 0 row = true →
    table.Settled config row

theorem Open.advance {config : Config} {table table' : Table} {t : Transaction}
    (h : t.Open config table) (hadv : Table.Advances config table table') :
    t.Open config table' where
  schema := h.schema
  extends_ := h.extends_.trans hadv.extends_
  size_le := h.size_le.trans hadv.chunks_size
  bounded := h.bounded
  settled row hrow := hadv.settled (h.settled row hrow)

theorem toList_start_selection (c : Collection) :
    (start c).selection.toList = c.table.chunks.toList.map Chunk.fill := Array.toList_map

/-- A new transaction selects the live rows. -/
theorem open_start {c : Collection} (h : c.table.WellFormed c.config) :
    (start c).Open c.config c.table where
  schema := h.schema
  extends_ := Schema.Extends.refl _
  size_le := Nat.le_of_eq (Array.size_map ..)
  bounded := by
    rw [toList_start_selection]
    exact h.bounded
  settled row hrow := by
    rw [toList_start_selection, ← Table.isLive_eq_selects] at hrow
    exact ⟨h.lt_nextRow hrow, Or.inl hrow⟩

theorem rows_start {c : Collection} (h : c.table.WellFormed c.config) :
    (start c).rows c = c.table.liveRows c.config := by
  rw [← h.rowsFrom_eq_liveRows, ← toList_start_selection]
  rfl

theorem rows_eq (t : Transaction) (c : Collection) :
    t.rows c = rowsFrom c.config.chunkSize t.selection.toList 0 := rfl

/-! ## Narrowing -/

variable {config : Config} {table : Table}

/-- A filter of chunks that judges rows by `keep`. -/
structure Judges (config : Config) (table : Table) (filter : Chunk → Bitmap → Bitmap)
    (keep : Nat → Bool) : Prop where
  subset : ∀ chunk bits offset,
    (filter chunk bits).contains offset = true → bits.contains offset = true
  settled : ∀ (id : Nat) chunk bits offset, table.chunks[id]? = some chunk →
    offset < config.chunkSize → table.Settled config (id * config.chunkSize + offset) →
      (filter chunk bits).contains offset =
        (bits.contains offset && keep (id * config.chunkSize + offset))

theorem Judges.nothing : Judges config table (fun _ bits => bits) fun _ => true :=
  ⟨fun _ _ _ hb => hb, fun _ _ _ _ _ _ _ => (Bool.and_true _).symm⟩

theorem Judges.comp {filter filter' : Chunk → Bitmap → Bitmap} {keep keep' : Nat → Bool}
    (h : Judges config table filter keep) (h' : Judges config table filter' keep') :
    Judges config table (fun chunk bits => filter' chunk (filter chunk bits))
      fun row => keep row && keep' row where
  subset chunk bits offset hb := h.subset chunk bits offset (h'.subset chunk _ offset hb)
  settled id chunk bits offset hchunk hlt hs := by
    rw [h'.settled id chunk _ offset hchunk hlt hs, h.settled id chunk bits offset hchunk hlt hs,
      Bool.and_assoc]

theorem getElem?_narrow (t : Transaction) (table : Table) (filter : Chunk → Bitmap → Bitmap)
    (hsize : t.selection.size ≤ table.chunks.size) (id : Nat) :
    (t.narrow table filter).selection.toList[id]? =
      (table.chunks[id]?.bind fun chunk => t.selection.toList[id]?.map (filter chunk)) := by
  rw [Array.getElem?_toList, Array.getElem?_toList, narrow, Array.getElem?_mapIdx]
  cases hbits : t.selection[id]? with
  | none => cases table.chunks[id]? <;> rfl
  | some bits =>
    have hlt := (Array.getElem?_eq_some_iff.mp hbits).1
    rw [Array.getElem?_eq_getElem (show id < table.chunks.size by omega)]
    rfl

theorem bounded_narrow {t : Transaction} {chunkSize : Nat}
    (h : Selection.Bounded chunkSize t.selection.toList)
    (hsize : t.selection.size ≤ table.chunks.size) {filter : Chunk → Bitmap → Bitmap}
    (hsubset : ∀ chunk bits offset,
      (filter chunk bits).contains offset = true → bits.contains offset = true) :
    Selection.Bounded chunkSize (t.narrow table filter).selection.toList := by
  intro bits hbits offset hoffset
  obtain ⟨id, hid⟩ := List.mem_iff_getElem?.mp hbits
  rw [getElem?_narrow t table filter hsize] at hid
  obtain ⟨chunk, -, hmap⟩ := Option.bind_eq_some_iff.mp hid
  obtain ⟨old, hold, rfl⟩ := Option.map_eq_some_iff.mp hmap
  exact h old (List.mem_of_getElem? hold) offset (hsubset chunk old offset hoffset)

/-- Narrowing by a filter that judges rows keeps the rows it judges so. -/
theorem Open.narrow {t : Transaction} (h : t.Open config table) {filter : Chunk → Bitmap → Bitmap}
    {keep : Nat → Bool} (hjudges : Judges config table filter keep) :
    (t.narrow table filter).Open config table ∧
      rowsFrom config.chunkSize (t.narrow table filter).selection.toList 0 =
        (rowsFrom config.chunkSize t.selection.toList 0).filter keep := by
  have hbounded := bounded_narrow h.bounded h.size_le hjudges.subset
  have hselects : ∀ row, selects config.chunkSize (t.narrow table filter).selection.toList 0 row =
      (selects config.chunkSize t.selection.toList 0 row && keep row) := by
    intro row
    rw [Selection.selects_zero, getElem?_narrow t table filter h.size_le, Selection.selects_zero]
    cases hbits : t.selection.toList[row / config.chunkSize]? with
    | none => cases table.chunks[row / config.chunkSize]? <;> rfl
    | some bits =>
      have hlt : row / config.chunkSize < table.chunks.size := by
        have := (List.getElem?_eq_some_iff.mp hbits).1
        rw [Array.length_toList] at this
        exact this.trans_le h.size_le
      have hchunk := Array.getElem?_eq_getElem hlt
      rw [hchunk, Option.bind_some, Option.map_some, Option.any_some, Option.any_some]
      cases hcontains : bits.contains (row % config.chunkSize) with
      | false =>
        rw [Bool.false_and, ← Bool.not_eq_true]
        intro hfilter
        rw [hjudges.subset _ bits _ hfilter] at hcontains
        cases hcontains
      | true =>
        have hselected : selects config.chunkSize t.selection.toList 0 row = true := by
          rw [Selection.selects_zero, hbits, Option.any_some, hcontains]
        have hoffset := h.bounded bits (List.mem_of_getElem? hbits) _ hcontains
        have hset := h.settled row hselected
        rw [← Nat.div_add_mod' row config.chunkSize] at hset
        rw [hjudges.settled _ _ bits _ hchunk hoffset hset, hcontains, Nat.div_add_mod']
  refine ⟨⟨h.schema, h.extends_, ?_, hbounded, fun row hrow => ?_⟩, ?_⟩
  · rw [Transaction.narrow, Array.size_mapIdx]
    exact h.size_le
  · rw [hselects, Bool.and_eq_true] at hrow
    exact h.settled row hrow.1
  · apply Bitmap.eq_of_pairwise_lt (Selection.rowsFrom_pairwise hbounded 0)
      ((Selection.rowsFrom_pairwise h.bounded 0).filter keep)
    intro row
    rw [mem_rowsFrom hbounded, List.mem_filter, mem_rowsFrom h.bounded, hselects, Bool.and_eq_true]

/-! ## What filters see of a row -/

/-- A filter over one column judges rows by their cells. -/
theorem judges_of_cell (slot : Nat) (keepCell : Option Cell → Bool)
    {filter : Chunk → Bitmap → Bitmap} {keep : Nat → Bool}
    (hfilter : ∀ chunk bits offset, (∃ id : Nat, table.chunks[id]? = some chunk) →
      (filter chunk bits).contains offset =
        (bits.contains offset && keepCell (chunk.cell? slot offset)))
    (hsubset : ∀ chunk bits offset,
      (filter chunk bits).contains offset = true → bits.contains offset = true)
    (hkeep : ∀ row, table.Settled config row → keepCell (table.cell? config slot row) = keep row) :
    Judges config table filter keep where
  subset := hsubset
  settled id chunk bits offset hchunk hlt hs := by
    rw [hfilter chunk bits offset ⟨id, hchunk⟩, ← hkeep _ hs, Table.cell?_of_chunk hchunk hlt]

/-- What is read of a settled row is what its cell holds. -/
theorem current_of_settled {c : Collection} (h : c.table.WellFormed c.config) {row : Nat}
    (hs : c.table.Settled c.config row) {name : String} {slot : Nat} {column : Column}
    (hcolumn : c.table.schema.column? name = some (slot, column)) :
    c.current name row = c.table.cellValue? c.config slot row := by
  unfold Collection.current Collection.valueAt
  rw [h.valueAt_eq, hcolumn]
  simp only [hs.lt_nextRow, if_true, Except.toOption, Option.join_some, Table.read?]
  rcases hs.cases with hlive | hv
  · rw [if_pos hlive]
  · rw [hv.isLive, Table.cellValue?, hv.cell?]
    rfl

theorem filterColumn_subset (chunk : Chunk) (slot : Nat) {filter : Segment → Bitmap → Bitmap}
    (hfilter : ∀ s bits offset,
      (filter s bits).contains offset = true → bits.contains offset = true)
    (bits : Bitmap) (offset : Nat)
    (h : (chunk.filterColumn slot filter bits).contains offset = true) :
    bits.contains offset = true := by
  unfold Chunk.filterColumn at h
  cases hsegment : chunk.columns[slot]? with
  | none => simp [hsegment] at h
  | some s =>
    simp only [hsegment] at h
    exact hfilter s bits offset h

theorem contains_filterColumn {chunk : Chunk} {slot : Nat} {filter : Segment → Bitmap → Bitmap}
    {keepCell : Option Cell → Bool} (hnone : keepCell none = false)
    (hfilter : ∀ (s : Segment) bits offset, (filter s bits).contains offset =
      (bits.contains offset && keepCell (s.cell? offset))) (bits : Bitmap) (offset : Nat) :
    (chunk.filterColumn slot filter bits).contains offset =
      (bits.contains offset && keepCell (chunk.cell? slot offset)) := by
  unfold Chunk.filterColumn Chunk.cell?
  cases chunk.columns[slot]? with
  | none => simp [hnone]
  | some s => exact hfilter s bits offset

/-- A filter over the segments of a column judges rows by their cells. -/
theorem judges_filterColumn {slot : Nat} (keepCell : Option Cell → Bool)
    {filter : Segment → Bitmap → Bitmap} {keep : Nat → Bool} (hnone : keepCell none = false)
    (hfilter : ∀ (s : Segment) bits offset, (filter s bits).contains offset =
      (bits.contains offset && keepCell (s.cell? offset)))
    (hkeep : ∀ row, table.Settled config row → keepCell (table.cell? config slot row) = keep row) :
    Judges config table (fun chunk => chunk.filterColumn slot filter) keep := by
  refine judges_of_cell slot keepCell
    (fun chunk bits offset _ => contains_filterColumn hnone hfilter bits offset)
    (fun chunk bits offset =>
      filterColumn_subset chunk slot (fun s bits offset hs => ?_) bits offset)
    hkeep
  rw [hfilter, Bool.and_eq_true] at hs
  exact hs.1

variable {c : Collection} {t : Transaction}

theorem contains_select (chunk : Chunk) (slot : Slot) (bits : Bitmap) (offset : Nat) :
    (chunk.select slot bits).contains offset =
      (bits.contains offset && (chunk.selected slot).any fun sel => sel.contains offset) := by
  unfold Chunk.select
  cases chunk.selected slot <;> simp [Bitmap.contains_and]

/-- A selector judges rows by what they hold now. -/
theorem judges_select (h : c.table.WellFormed c.config) {name : String} {slot : Slot}
    (hlookup : c.table.schema.lookup name = some slot) :
    Judges c.config c.table (fun chunk bits => chunk.select slot bits) (c.keeps name) := by
  have hsubset : ∀ (chunk : Chunk) (bits : Bitmap) offset,
      (chunk.select slot bits).contains offset = true → bits.contains offset = true := by
    intro chunk bits offset hb
    rw [contains_select, Bool.and_eq_true] at hb
    exact hb.1
  cases slot with
  | column slot =>
    obtain ⟨column, hc, hname⟩ := h.schema.lookup_eq_column_iff.mp hlookup
    have hcolumn := h.schema.column?_eq_some_iff.mpr ⟨hc, hname⟩
    apply judges_of_cell slot (fun cell => cell.any Cell.isTruthy) ?_ hsubset
    · -- a row is kept by its cell
      intro row hs
      unfold Collection.keeps
      simp only [hcolumn, current_of_settled h hs hcolumn, Table.cellValue?]
      cases hcell : c.table.cell? c.config slot row with
      | none => simp
      | some cell =>
        obtain ⟨⟨found, hfound, hkind⟩, -⟩ := h.kind_of_cell? hcell
        rw [hc] at hfound
        cases hfound
        rw [← hkind]
        cases cell with
        | bool b => cases b <;> rfl
        | _ => rfl
    · rintro chunk bits offset ⟨id, hchunk⟩
      rw [contains_select, Chunk.cell?]
      show (bits.contains offset && (chunk.columns[slot]?.map Segment.truthy).any _) = _
      cases hsegment : chunk.columns[slot]? with
      | none => rfl
      | some segment =>
        obtain ⟨column', -, hs⟩ := (h.chunk id chunk hchunk).wellFormed.column slot segment hsegment
        rw [Option.map_some, Option.any_some, Option.bind_some, hs.contains_truthy]
  | index slot =>
    obtain ⟨index, hindex, hname⟩ := h.schema.lookup_eq_index_iff.mp hlookup
    refine ⟨hsubset, fun id chunk bits offset hchunk hlt hs => ?_⟩
    have hmarks : (chunk.select (.index slot) bits).contains offset =
        (bits.contains offset && chunk.marks slot offset) := contains_select ..
    have hcolumn : c.table.schema.column? name = none := by
      cases hfound : c.table.schema.column? name with
      | none => rfl
      | some found =>
        obtain ⟨slot', column⟩ := found
        rw [h.schema.lookup_eq_column_iff.mpr ⟨column, Schema.exists_of_column? hfound⟩] at hlookup
        cases hlookup
    rw [hmarks, ← Table.marks_of_chunk hchunk hlt]
    congr 1
    unfold Collection.keeps
    simp only [hcolumn, h.schema.index?_eq_some_iff.mpr ⟨hindex, hname⟩]
    cases hpredicate : index.predicate with
    | none => rfl
    | some predicate =>
      obtain ⟨column, hc, hsource⟩ := h.schema.source index (Array.mem_of_getElem? hindex)
      rw [h.marks_eq hindex hpredicate,
        current_of_settled h hs (h.schema.column?_eq_some_iff.mpr ⟨hc, hsource⟩)]

/-- Selectors in a row judge rows by all of them. -/
theorem judges_resolve {schema : Schema} (h : c.table.WellFormed c.config)
    (hext : schema.Extends c.table.schema) {names : List String} {slots : List Slot}
    (hresolve : resolve schema names = .ok slots) :
    Judges c.config c.table
      (fun chunk bits => slots.foldl (fun bits slot => chunk.select slot bits) bits)
      fun row => names.all fun name => c.keeps name row := by
  induction names generalizing slots with
  | nil =>
    cases hresolve
    exact Judges.nothing
  | cons name rest ih =>
    rw [resolve] at hresolve
    cases hlookup : schema.lookup name with
    | none => simp [hlookup] at hresolve
    | some slot =>
      simp only [hlookup] at hresolve
      cases hrest : resolve schema rest with
      | error e =>
        rw [hrest] at hresolve
        cases hresolve
      | ok others =>
        rw [hrest] at hresolve
        cases hresolve
        exact (judges_select h (hext.lookup h.schema hlookup)).comp (ih hrest)

/-- Numbers are judged by value. -/
theorem judges_filterFloat (h : c.table.WellFormed c.config) {name : String} {slot : Nat}
    {column : Column} (hcolumn : c.table.schema.column? name = some (slot, column))
    (hkind : column.kind = .float64) (f : Binary64 → Bool) :
    Judges c.config c.table (fun chunk => chunk.filterColumn slot fun s => s.filterFloat f)
      (c.satisfies (.whereFloat name f)) := by
  apply judges_filterColumn (fun cell => (cell.bind Cell.number?).any f) rfl
    (fun s bits offset => s.contains_filterFloat f bits offset)
  intro row hs
  rw [Collection.satisfies, current_of_settled h hs hcolumn, Table.cellValue?]
  cases hcell : c.table.cell? c.config slot row with
  | none => rfl
  | some cell =>
    obtain ⟨⟨found, hfound, hcellKind⟩, -⟩ := h.kind_of_cell? hcell
    rw [(Schema.exists_of_column? hcolumn).1] at hfound
    cases hfound
    rw [hkind] at hcellKind
    cases cell <;> first | rfl | cases hcellKind

/-- Texts of a dictionary column are judged by value, though they are found by id. -/
theorem judges_filterEnum (h : c.table.WellFormed c.config) {name : String} {slot : Nat}
    {column : Column} (hcolumn : c.table.schema.column? name = some (slot, column))
    (hkind : column.kind = .enum) (f : String → Bool) :
    Judges c.config c.table
      (fun chunk => chunk.filterColumn slot fun s =>
        s.filterEnum ((c.table.dictionary slot).evaluate f))
      (c.satisfies (.whereString name f)) := by
  apply judges_filterColumn
    (fun cell => (cell.bind Cell.id?).any fun id =>
      ((c.table.dictionary slot).evaluate f)[id]?.getD false) rfl
    (fun s bits offset => s.contains_filterEnum _ bits offset)
  intro row hs
  rw [Collection.satisfies, current_of_settled h hs hcolumn, Table.cellValue?]
  cases hcell : c.table.cell? c.config slot row with
  | none => rfl
  | some cell =>
    obtain ⟨⟨found, hfound, hcellKind⟩, hknown⟩ := h.kind_of_cell? hcell
    rw [(Schema.exists_of_column? hcolumn).1] at hfound
    cases hfound
    rw [hkind] at hcellKind
    cases cell with
    | enum id =>
      obtain ⟨s, htext, hanswer⟩ := Index.getElem?_evaluate (f := f) hknown
      simp [Cell.id?, hanswer, Column.decode, htext, Value.asString?]
    | _ => cases hcellKind

/-- Values of any kind are judged by what they decode to. -/
theorem judges_filterValue (h : c.table.WellFormed c.config) {name : String} {slot : Nat}
    {column : Column} (hcolumn : c.table.schema.column? name = some (slot, column))
    (f : Value → Bool) :
    Judges c.config c.table
      (fun chunk => chunk.filterColumn slot fun s => s.filterValue (c.table.dictionary slot) f)
      (c.satisfies (.whereValue name f)) := by
  apply judges_filterColumn
    (fun cell => cell.any fun cell =>
      f (Column.decode (c.table.dictionary slot) cell)) rfl
    (fun s bits offset => s.contains_filterValue _ f bits offset)
  intro row hs
  rw [Collection.satisfies, current_of_settled h hs hcolumn, Table.cellValue?, Option.any_map]

/-! ## Filters -/

theorem resolve_of_unknown {schema : Schema} {names : List String} {name : String}
    (h : (names.find? fun name => (schema.lookup name).isNone) = some name) :
    resolve schema names = .error (.unknownSelector name) := by
  induction names with
  | nil => cases h
  | cons first rest ih =>
    rw [List.find?_cons] at h
    rw [resolve]
    cases hlookup : schema.lookup first with
    | none =>
      simp only [hlookup, Option.isNone_none, Option.some.injEq] at h
      rw [h]
    | some slot =>
      simp only [hlookup, Option.isNone_some] at h
      simp only [ih h]
      rfl

theorem resolve_of_known {schema : Schema} {names : List String}
    (h : (names.find? fun name => (schema.lookup name).isNone) = none) :
    ∃ slots, resolve schema names = .ok slots := by
  induction names with
  | nil => exact ⟨[], rfl⟩
  | cons first rest ih =>
    rw [List.find?_cons] at h
    rw [resolve]
    cases hlookup : schema.lookup first with
    | none => simp [hlookup] at h
    | some slot =>
      simp only [hlookup, Option.isNone_some] at h
      obtain ⟨slots, hslots⟩ := ih h
      refine ⟨slot :: slots, ?_⟩
      simp only [hslots]
      rfl

theorem isNone_lookup (schema : Schema) (name : String) :
    (schema.lookup name).isNone =
      !((columnNamed schema.columns.toList name).isSome ||
        (schema.indexes.toList.map Index.name).contains name) := by
  rw [← Option.not_isSome]
  congr 1
  have hfree : (schema.lookup name).isSome = false ↔ _ := Schema.isTaken_eq_false_iff
  have hcolumn : (columnNamed schema.columns.toList name).isSome = true ↔
      name ∈ schema.columns.toList.map Column.name := by
    rw [columnNamed, List.find?_isSome, List.mem_map]
    simp only [beq_iff_eq]
  rw [Bool.eq_iff_iff, Bool.or_eq_true, hcolumn, List.contains_iff_mem, ← not_iff_not,
    Bool.not_eq_true, hfree, not_or]

theorem column_eq (t : Transaction) (name : String) :
    (columnNamed t.schema.columns.toList name = none ∧
        t.column name = .error (.unknownSelector name)) ∨
      ∃ slot column, columnNamed t.schema.columns.toList name = some column ∧
        t.schema.column? name = some (slot, column) ∧ t.column name = .ok (slot, column) := by
  rw [Schema.columnNamed_eq, Transaction.column]
  cases t.schema.column? name with
  | none => exact Or.inl ⟨rfl, rfl⟩
  | some found => exact Or.inr ⟨found.1, found.2, rfl, rfl, rfl⟩

/-- A filter by texts goes by the kind of its column. -/
theorem whereString_of_column {name : String} {slot : Nat} {column : Column}
    (hcolumn : t.column name = .ok (slot, column)) (c : Collection) (f : String → Bool) :
    t.whereString c name f =
      match column.kind with
      | .enum =>
        .ok (t.narrow (t.table c) fun chunk => chunk.filterColumn slot fun s =>
          s.filterEnum (((t.table c).dictionary slot).evaluate f))
      | .any =>
        .ok (t.narrow (t.table c) fun chunk => chunk.filterColumn slot fun s =>
          s.filterValue ((t.table c).dictionary slot) fun v => v.asString?.any f)
      | kind => .error (.typeMismatch column.name Kind.enum.name kind.name) := by
  unfold whereString
  rw [hcolumn]
  rfl

/-- A filter with a fault fails with it. -/
theorem apply_of_fault {filter : Filter} {e : Error}
    (h : filter.fault? t.schema.columns.toList (t.schema.indexes.toList.map Index.name) = some e)
    (c : Collection) : filter.apply t c = .error e := by
  cases filter with
  | select names =>
    simp only [Filter.fault?, ← isNone_lookup] at h
    obtain ⟨name, hname, rfl⟩ := Option.map_eq_some_iff.mp h
    simp only [Filter.apply, Transaction.select, resolve_of_unknown hname]
    rfl
  | whereFloat name f =>
    rcases column_eq t name with ⟨hnamed, hcolumn⟩ | ⟨slot, column, hnamed, -, hcolumn⟩
    · simp only [Filter.fault?, hnamed, Option.some.injEq] at h
      simp only [Filter.apply, Transaction.whereFloat, typedColumn, hcolumn, ← h]
      rfl
    · simp only [Filter.fault?, hnamed] at h
      split_ifs at h with hkind
      cases h
      simp only [Filter.apply, Transaction.whereFloat, typedColumn, hcolumn]
      show (if column.kind = .float64 then _ else _) >>= _ = _
      rw [if_neg hkind]
      rfl
  | whereString name f =>
    rcases column_eq t name with ⟨hnamed, hcolumn⟩ | ⟨slot, column, hnamed, hfound, hcolumn⟩
    · simp only [Filter.fault?, hnamed, Option.some.injEq] at h
      simp only [Filter.apply, Transaction.whereString, hcolumn, ← h]
      rfl
    · simp only [Filter.fault?, hnamed] at h
      split_ifs at h with hkind
      cases h
      have hname := (Schema.exists_of_column? hfound).2
      rw [Filter.apply, whereString_of_column hcolumn, hname]
      cases hk : column.kind with
      | enum => exact absurd (Or.inl hk) hkind
      | any => exact absurd (Or.inr hk) hkind
      | _ => rfl
  | whereValue name f =>
    rcases column_eq t name with ⟨hnamed, hcolumn⟩ | ⟨slot, column, hnamed, -, hcolumn⟩
    · simp only [Filter.fault?, hnamed, Option.some.injEq] at h
      simp only [Filter.apply, Transaction.whereValue, hcolumn, ← h]
      rfl
    · simp [Filter.fault?, hnamed] at h

/-- What a filter that is not refused does to the bitmap of each chunk, given the names that its
    transaction knows and the contents. -/
inductive Narrows (schema : Schema) (table : Table) : Filter → (Chunk → Bitmap → Bitmap) → Prop
  | select {names : List String} {slots : List Slot} (hslots : resolve schema names = .ok slots) :
    Narrows schema table (.select names) fun chunk bits =>
      slots.foldl (fun bits slot => chunk.select slot bits) bits
  | numbers {name : String} {slot : Nat} {column : Column}
    (hcolumn : schema.column? name = some (slot, column)) (hkind : column.kind = .float64)
    (f : Binary64 → Bool) :
    Narrows schema table (.whereFloat name f) fun chunk =>
      chunk.filterColumn slot fun s => s.filterFloat f
  | ids {name : String} {slot : Nat} {column : Column}
    (hcolumn : schema.column? name = some (slot, column)) (hkind : column.kind = .enum)
    (f : String → Bool) :
    Narrows schema table (.whereString name f) fun chunk =>
      chunk.filterColumn slot fun s => s.filterEnum ((table.dictionary slot).evaluate f)
  | texts {name : String} {slot : Nat} {column : Column}
    (hcolumn : schema.column? name = some (slot, column)) (hkind : column.kind = .any)
    (f : String → Bool) :
    Narrows schema table (.whereString name f) fun chunk =>
      chunk.filterColumn slot fun s =>
        s.filterValue (table.dictionary slot) fun v => v.asString?.any f
  | values {name : String} {slot : Nat} {column : Column}
    (hcolumn : schema.column? name = some (slot, column)) (f : Value → Bool) :
    Narrows schema table (.whereValue name f) fun chunk =>
      chunk.filterColumn slot fun s => s.filterValue (table.dictionary slot) f

/-- A filter without a fault narrows, in the same way whatever is selected. -/
theorem exists_narrows {filter : Filter}
    (hfine : filter.fault? t.schema.columns.toList
      (t.schema.indexes.toList.map Index.name) = none) (c : Collection) :
    ∃ judge, Narrows t.schema (t.table c) filter judge ∧
      ∀ selection, filter.apply { t with selection } c =
        .ok ({ t with selection }.narrow (t.table c) judge) := by
  cases filter with
  | select names =>
    simp only [Filter.fault?, ← isNone_lookup, Option.map_eq_none_iff] at hfine
    obtain ⟨slots, hslots⟩ := resolve_of_known hfine
    refine ⟨_, .select hslots, fun selection => ?_⟩
    simp only [Filter.apply, Transaction.select, hslots]
    rfl
  | whereFloat name f =>
    rcases column_eq t name with ⟨hnamed, -⟩ | ⟨slot, column, hnamed, hfound, -⟩
    · simp [Filter.fault?, hnamed] at hfine
    · simp only [Filter.fault?, hnamed, ite_eq_left_iff, reduceCtorEq, imp_false, not_not] at hfine
      refine ⟨_, .numbers hfound hfine f, fun selection => ?_⟩
      simp only [Filter.apply, Transaction.whereFloat, typedColumn, Transaction.column, hfound]
      show (if column.kind = .float64 then _ else _) >>= _ = _
      rw [if_pos hfine]
      rfl
  | whereString name f =>
    rcases column_eq t name with ⟨hnamed, -⟩ | ⟨slot, column, hnamed, hfound, hcolumn⟩
    · simp [Filter.fault?, hnamed] at hfine
    · simp only [Filter.fault?, hnamed, ite_eq_left_iff, reduceCtorEq, imp_false, not_not] at hfine
      rcases hfine with hkind | hkind
      · refine ⟨_, .ids hfound hkind f, fun selection => ?_⟩
        rw [Filter.apply, whereString_of_column (t := { t with selection }) hcolumn, hkind]
        rfl
      · refine ⟨_, .texts hfound hkind f, fun selection => ?_⟩
        rw [Filter.apply, whereString_of_column (t := { t with selection }) hcolumn, hkind]
        rfl
  | whereValue name f =>
    rcases column_eq t name with ⟨hnamed, -⟩ | ⟨slot, column, hnamed, hfound, -⟩
    · simp [Filter.fault?, hnamed] at hfine
    · refine ⟨_, .values hfound f, fun selection => ?_⟩
      simp only [Filter.apply, Transaction.whereValue, Transaction.column, hfound]
      rfl

/-- What narrows the selection judges rows by the values they have. -/
theorem Narrows.judges {schema : Schema} {filter : Filter} {judge : Chunk → Bitmap → Bitmap}
    (hnarrows : Narrows schema c.table filter judge) (h : c.table.WellFormed c.config)
    (hext : schema.Extends c.table.schema) :
    Judges c.config c.table judge (c.satisfies filter) := by
  cases hnarrows with
  | select hslots => exact judges_resolve h hext hslots
  | numbers hcolumn hkind f => exact judges_filterFloat h (hext.column? h.schema hcolumn) hkind f
  | ids hcolumn hkind f => exact judges_filterEnum h (hext.column? h.schema hcolumn) hkind f
  | texts hcolumn hkind f => exact judges_filterValue h (hext.column? h.schema hcolumn) _
  | values hcolumn f => exact judges_filterValue h (hext.column? h.schema hcolumn) f

/-- A filter without a fault narrows by a filter of chunks that judges rows. -/
theorem apply_of_fine (h : c.table.WellFormed c.config) (ht : t.Open c.config c.table)
    (htable : t.table c = c.table) {filter : Filter}
    (hfine : filter.fault? t.schema.columns.toList
      (t.schema.indexes.toList.map Index.name) = none) :
    ∃ judge, filter.apply t c = .ok (t.narrow c.table judge) ∧
      Judges c.config c.table judge (c.satisfies filter) := by
  obtain ⟨judge, hnarrows, happly⟩ := exists_narrows hfine c
  rw [htable] at hnarrows happly
  exact ⟨judge, happly t.selection, hnarrows.judges h ht.extends_⟩

/-- A filter that succeeds only narrows the selection. -/
theorem narrow_of_apply {filter : Filter} {t' : Transaction} (h : filter.apply t c = .ok t') :
    ∃ judge, t' = t.narrow (t.table c) judge := by
  cases hfault : filter.fault? t.schema.columns.toList (t.schema.indexes.toList.map Index.name) with
  | some e =>
    rw [apply_of_fault hfault] at h
    cases h
  | none =>
    obtain ⟨judge, -, happly⟩ := exists_narrows hfault c
    rw [show t = { t with selection := t.selection } from rfl, happly t.selection] at h
    cases h
    exact ⟨judge, rfl⟩

/-- A filter that succeeds on an open transaction leaves it open and keeps the rows that satisfy
    it. -/
theorem Open.apply {t' : Transaction} (ht : t.Open c.config c.table)
    (h : c.table.WellFormed c.config) (htable : t.table c = c.table) {filter : Filter}
    (happly : filter.apply t c = .ok t') :
    t'.Open c.config c.table ∧ t'.rows c = (t.rows c).filter (c.satisfies filter) := by
  cases hfault : filter.fault? t.schema.columns.toList (t.schema.indexes.toList.map Index.name) with
  | some e =>
    rw [apply_of_fault hfault] at happly
    cases happly
  | none =>
    obtain ⟨judge, hnarrow, hjudges⟩ := apply_of_fine h ht htable hfault
    rw [hnarrow] at happly
    cases happly
    exact ht.narrow hjudges

end Transaction

end ColumnStore
