import ColumnStore.Proofs.Sheet.Rows
import ColumnStore.Proofs.Snapshot.RoundTrip

/-!
# Snapshots of sessions

What a collection answers after it was loaded with the snapshot of another (`Collection.Restored`),
in terms of its columns, indexes and rows alone.

* `Table.Restores.rows_eq`: a restored table shows the rows of the other;
* `Reachable.load_snapshot`: the snapshot of the collection of any session, if it fits, is accepted
  by the collection of any other with the same chunk size, which then answers as the first does.
-/

namespace ColumnStore

namespace Schema

variable {schema : Schema}

/-- The columns of a name are told by the names alone. -/
theorem WellFormed.columnNamed_eq_some_iff (h : schema.WellFormed) {name : String}
    {column : Column} :
    columnNamed schema.columns.toList name = some column ↔
      column ∈ schema.columns ∧ column.name = name := by
  rw [columnNamed_eq, Option.map_eq_some_iff]
  constructor
  · rintro ⟨⟨slot, found⟩, hfound, rfl⟩
    obtain ⟨hslot, hname⟩ := h.column?_eq_some_iff.mp hfound
    exact ⟨Array.mem_of_getElem? hslot, hname⟩
  · rintro ⟨hmem, hname⟩
    obtain ⟨slot, hslot⟩ := Array.mem_iff_getElem?.mp hmem
    exact ⟨(slot, column), h.column?_eq_some_iff.mpr ⟨hslot, hname⟩, rfl⟩

end Schema

/-! ## Reading a restored table -/

namespace Table

variable {registered : Schema} {config config' : Config} {table table' : Table}

theorem Restores.columnNamed_eq (hr : Restores registered config config' table table')
    (h : table.WellFormed config) (h' : table'.WellFormed config') (name : String) :
    columnNamed table'.schema.columns.toList name =
      columnNamed table.schema.columns.toList name := by
  apply Option.ext
  intro column
  rw [h.schema.columnNamed_eq_some_iff, h'.schema.columnNamed_eq_some_iff,
    ← Array.mem_toList_iff, ← Array.mem_toList_iff, hr.columns.mem_iff]

/-- A column is found by its name, with the values and texts it had. -/
theorem Restores.column? (hr : Restores registered config config' table table')
    (h : table.WellFormed config) (h' : table'.WellFormed config') {name : String} {slot : Nat}
    {column : Column} (hcolumn : table.schema.column? name = some (slot, column)) :
    ∃ slot', table'.schema.column? name = some (slot', column) ∧
      (∀ row, table'.cellValue? config' slot' row = table.cellValue? config slot row) ∧
      (column.kind = .enum → table'.dictionary slot' = table.dictionary slot) := by
  obtain ⟨hslot, hname⟩ := h.schema.column?_eq_some_iff.mp hcolumn
  obtain ⟨slot', hslot', hvalues, htexts⟩ := hr.column slot column hslot
  exact ⟨slot', h'.schema.column?_eq_some_iff.mpr ⟨hslot', hname⟩, hvalues, htexts⟩

theorem Restores.rowAt_eq (hr : Restores registered config config' table table')
    (h : table.WellFormed config) (h' : table'.WellFormed config') (row : Nat) :
    table'.rowAt config' row = table.rowAt config row := by
  funext name
  rw [rowAt, rowAt]
  cases hcolumn : table.schema.column? name with
  | some found =>
    obtain ⟨slot, column⟩ := found
    obtain ⟨slot', hcolumn', hvalues, -⟩ := hr.column? h h' hcolumn
    rw [hcolumn', Option.bind_some, Option.bind_some, hvalues]
  | none =>
    have hnamed := hr.columnNamed_eq h h' name
    rw [Schema.columnNamed_eq, Schema.columnNamed_eq, hcolumn, Option.map_none,
      Option.map_eq_none_iff] at hnamed
    rw [hnamed]
    rfl

/-- The rows are the same, numbers, gaps and values. -/
theorem Restores.rows_eq (hr : Restores registered config config' table table')
    (h : table.WellFormed config) (h' : table'.WellFormed config') :
    table'.rows config' = table.rows config := by
  simp only [rows, hr.nextRow, hr.isLive, hr.rowAt_eq h h']

theorem Restores.row?_sheet (hr : Restores registered config config' table table')
    (h : table.WellFormed config) (h' : table'.WellFormed config') (row : Nat) :
    (table'.sheet config').row? row = (table.sheet config).row? row := by
  show (table'.rows config')[row]?.join = (table.rows config)[row]?.join
  rw [hr.rows_eq h h']

theorem Restores.valueAt_eq (hr : Restores registered config config' table table')
    (h : table.WellFormed config) (h' : table'.WellFormed config') (name : String) (row : Nat) :
    table'.valueAt config' name row = table.valueAt config name row := by
  have hrows : (table'.sheet config').rows = (table.sheet config).rows := hr.rows_eq h h'
  have hnamed : columnNamed (table'.sheet config').columns name =
      columnNamed (table.sheet config).columns name := hr.columnNamed_eq h h' name
  rw [h.valueAt_sheet, h'.valueAt_sheet, Sheet.valueAt, Sheet.valueAt, hnamed, hrows,
    hr.row?_sheet h h']

/-- A row is fetched with the fields it had, in the order of their names. -/
theorem Restores.fetch_eq (hr : Restores registered config config' table table')
    (h : table.WellFormed config) (h' : table'.WellFormed config') (row : Nat) :
    table'.fetch config' row = (table.fetch config row).map Entries.ofList := by
  rw [h.fetch_sheet, h'.fetch_sheet, Sheet.fetch, Sheet.fetch, hr.row?_sheet h h', Option.map_map]
  congr 1
  funext r
  refine (Entries.ofList_eq_of_perm ?_ ?_).symm
  · exact (hr.columns.filterMap fun column => (r column.name).map (column.name, ·)).symm
  · have hnames : (((table'.sheet config').columns.filterMap fun column =>
        (r column.name).map (column.name, ·)).map Prod.fst).Sublist
          (table'.schema.columns.toList.map Column.name) := by
      show ((table'.schema.columns.toList.filterMap _).map Prod.fst).Sublist _
      generalize table'.schema.columns.toList = columns
      induction columns with
      | nil => exact List.Sublist.slnil
      | cons column rest ih =>
        rw [List.filterMap_cons, List.map_cons]
        cases r column.name with
        | none => exact ih.cons _
        | some v => exact ih.cons_cons _
    exact hr.sorted.sublist hnames

theorem Restores.insert_eq (hr : Restores registered config config' table table')
    (h : table.WellFormed config) (h' : table'.WellFormed config') (record : Record) :
    (Table.insert config' record table').1 = (Table.insert config record table).1 := by
  have hrows : (table'.sheet config').rows = (table.sheet config).rows := hr.rows_eq h h'
  have hfault : (table'.sheet config').fieldFault? = (table.sheet config).fieldFault? := by
    funext field
    have hnamed : columnNamed (table'.sheet config').columns field.1 =
        columnNamed (table.sheet config).columns field.1 := hr.columnNamed_eq h h' field.1
    rw [Sheet.fieldFault?, Sheet.fieldFault?, hnamed]
  rw [h.insert_answer, h'.insert_answer, Sheet.insert, Sheet.insert, hfault, hrows]
  cases record.findSome? (table.sheet config).fieldFault? <;> rfl

end Table

/-! ## What an index selects -/

namespace Collection

variable {c : Collection}

/-- The rows that a new transaction selects by a name. -/
def selected (c : Collection) (name : String) : Except Error (List Nat) := do
  let t ← (Transaction.start c).select c [name]
  pure (t.rows c)

/-- An index selects the live rows that it marks. -/
theorem selected_eq_marks (h : c.table.WellFormed c.config) {slot : Nat} {index : Index}
    (hindex : c.table.schema.indexes[slot]? = some index) :
    c.selected index.name =
      .ok ((c.table.liveRows c.config).filter (c.table.marks c.config slot)) := by
  have hlookup : c.table.schema.lookup index.name = some (.index slot) :=
    h.schema.lookup_eq_index_iff.mpr ⟨index, hindex, rfl⟩
  have hselect : (Transaction.start c).select c [index.name] =
      .ok ((Transaction.start c).narrow c.table fun chunk bits =>
        chunk.select (.index slot) bits) := by
    have hresolve : Transaction.resolve (Transaction.start c).schema [index.name] =
        .ok [.index slot] := by
      show Transaction.resolve c.table.schema [index.name] = _
      simp only [Transaction.resolve, hlookup]
      rfl
    rw [Transaction.select, hresolve, Transaction.table_of_current rfl]
    rfl
  have hjudges : Transaction.Judges c.config c.table
      (fun chunk bits => chunk.select (.index slot) bits) (c.table.marks c.config slot) := by
    refine ⟨fun chunk bits offset hoffset => ?_, fun id chunk bits offset hchunk hlt _ => ?_⟩
    · rw [Transaction.contains_select, Bool.and_eq_true] at hoffset
      exact hoffset.1
    · rw [Table.marks_of_chunk hchunk hlt]
      exact Transaction.contains_select ..
  have hrows := ((Transaction.open_start h).narrow hjudges).2
  rw [selected, hselect, ← Transaction.rows_start h, Transaction.rows_eq, ← hrows]
  rfl

/-- A live row has the value that it is read with. -/
theorem current_of_isLive (h : c.table.WellFormed c.config) {name : String} {slot : Nat}
    {column : Column} (hcolumn : c.table.schema.column? name = some (slot, column)) {row : Nat}
    (hlive : c.table.isLive c.config row = true) :
    c.current name row = c.table.cellValue? c.config slot row :=
  Transaction.current_of_settled h ⟨h.lt_nextRow hlive, Or.inl hlive⟩ hcolumn

/-- An attached index selects the live rows whose present source value satisfies its predicate. -/
theorem selected_eq_current (h : c.table.WellFormed c.config) {slot : Nat} {index : Index}
    (hindex : c.table.schema.indexes[slot]? = some index) {predicate : Value → Bool}
    (hpredicate : index.predicate = some predicate) :
    c.selected index.name =
      .ok ((List.range c.table.nextRow).filter fun row =>
        (c.fetch row).isSome && (c.current index.source row).any predicate) := by
  obtain ⟨column, hslot, hsource⟩ := h.schema.source index (Array.mem_of_getElem? hindex)
  have hcolumn := h.schema.column?_eq_some_iff.mpr ⟨hslot, hsource⟩
  rw [selected_eq_marks h hindex, Table.liveRows, List.filter_filter]
  congr 1
  refine List.filter_congr fun row _ => ?_
  rw [isSome_fetch h]
  cases hlive : c.table.isLive c.config row with
  | false => rw [Bool.and_false, Bool.false_and]
  | true =>
    rw [Bool.and_true, Bool.true_and, h.marks_eq hindex hpredicate,
      current_of_isLive h hcolumn hlive]

end Collection

/-! ## Registered predicates -/

namespace Snapshot

variable {registered : Schema} {name source : String}

/-- Whether a predicate is registered for an index of a name and source. -/
def IsRegistered (registered : Schema) (name source : String) (predicate : Value → Bool) : Prop :=
  ∃ index ∈ registered.indexes,
    index.name = name ∧ index.source = source ∧ index.predicate = some predicate

theorem registered?_eq_some_iff (h : registered.WellFormed) {predicate : Value → Bool} :
    registered? registered name source = some predicate ↔
      IsRegistered registered name source predicate := by
  unfold registered?
  constructor
  · intro hfound
    cases hindex : registered.index? name with
    | none =>
      rw [hindex] at hfound
      cases hfound
    | some found =>
      obtain ⟨slot, index⟩ := found
      simp only [hindex] at hfound
      split_ifs at hfound with hsource
      obtain ⟨hslot, hname⟩ := h.index?_eq_some_iff.mp hindex
      exact ⟨index, Array.mem_of_getElem? hslot, hname, hsource, hfound⟩
  · rintro ⟨index, hmem, hname, hsource, hpredicate⟩
    obtain ⟨slot, hslot⟩ := Array.mem_iff_getElem?.mp hmem
    simp only [h.index?_eq_some_iff.mpr ⟨hslot, hname⟩, hsource, if_true, hpredicate]

theorem registered?_eq_none_iff (h : registered.WellFormed) :
    registered? registered name source = none ↔
      ∀ predicate, ¬IsRegistered registered name source predicate := by
  rw [Option.eq_none_iff_forall_ne_some]
  exact forall_congr' fun predicate => not_congr (registered?_eq_some_iff h)

end Snapshot

/-! ## Loading the snapshot of another collection -/

open Snapshot (Fits IsRegistered)

/-- A collection that answers as another does, with the predicates of a schema attached to the
    indexes that it has registered and no other. -/
structure Collection.Restored (registered : Schema) (c c' : Collection) : Prop where
  columns : c'.table.schema.columns.toList.Perm c.table.schema.columns.toList
  indexes : (c'.table.schema.indexes.toList.map fun index => (index.name, index.source)).Perm
    (c.table.schema.indexes.toList.map fun index => (index.name, index.source))
  count : c'.count = c.count
  nextRow : c'.table.nextRow = c.table.nextRow
  fetch : ∀ row, c'.fetch row = (c.fetch row).map Entries.ofList
  valueAt : ∀ column row, c'.valueAt column row = c.valueAt column row
  insert : ∀ record, (c'.insert record).1 = (c.insert record).1
  /-- Every text of a dictionary column has the id it had, and a new one gets the id it would have
      got. -/
  texts : ∀ name slot column, c.table.schema.column? name = some (slot, column) →
    column.kind = .enum → ∃ slot', c'.table.schema.column? name = some (slot', column) ∧
      c'.table.dictionary slot' = c.table.dictionary slot
  attached : ∀ index ∈ c.table.schema.indexes, ∀ predicate,
    IsRegistered registered index.name index.source predicate →
    (∃ index' ∈ c'.table.schema.indexes, index'.name = index.name ∧
        index'.source = index.source ∧ index'.predicate = some predicate) ∧
      c'.selected index.name = .ok ((List.range c'.table.nextRow).filter fun row =>
        (c'.fetch row).isSome && (c'.current index.source row).any predicate)
  detached : ∀ index ∈ c.table.schema.indexes,
    (∀ predicate, ¬IsRegistered registered index.name index.source predicate) →
    (∃ index' ∈ c'.table.schema.indexes, index'.name = index.name ∧
        index'.source = index.source ∧ index'.predicate = none) ∧
      ∃ rows, c.selected index.name = .ok rows ∧ c'.selected index.name = .ok rows

/-- A collection whose table restores that of another answers as it does. -/
theorem Table.Restores.restored {registered : Schema} {c c' : Collection}
    (hr : Restores registered c.config c'.config c.table c'.table)
    (hregistered : registered.WellFormed) (h : c.table.WellFormed c.config)
    (h' : c'.table.WellFormed c'.config) : c.Restored registered c' where
  columns := hr.columns
  indexes := hr.indexes
  count := hr.live
  nextRow := hr.nextRow
  fetch := hr.fetch_eq h h'
  valueAt := hr.valueAt_eq h h'
  insert := hr.insert_eq h h'
  texts name slot column hcolumn hkind := by
    obtain ⟨slot', hcolumn', -, htexts⟩ := hr.column? h h' hcolumn
    exact ⟨slot', hcolumn', htexts hkind⟩
  attached index hmem predicate hpredicate := by
    obtain ⟨slot, hslot⟩ := Array.mem_iff_getElem?.mp hmem
    obtain ⟨slot', index', hslot', hname, hsource, hfound, -⟩ := hr.index slot index hslot
    rw [(Snapshot.registered?_eq_some_iff hregistered).mpr hpredicate] at hfound
    refine ⟨⟨index', Array.mem_of_getElem? hslot', hname, hsource, hfound⟩, ?_⟩
    rw [← hname, ← hsource]
    exact Collection.selected_eq_current h' hslot' hfound
  detached index hmem hnone := by
    obtain ⟨slot, hslot⟩ := Array.mem_iff_getElem?.mp hmem
    obtain ⟨slot', index', hslot', hname, hsource, hfound, hmarks⟩ := hr.index slot index hslot
    rw [(Snapshot.registered?_eq_none_iff hregistered).mpr hnone] at hfound
    refine ⟨⟨index', Array.mem_of_getElem? hslot', hname, hsource, hfound⟩, _,
      Collection.selected_eq_marks h hslot, ?_⟩
    have hlive : c'.table.liveRows c'.config = c.table.liveRows c.config := by
      rw [Table.liveRows, Table.liveRows, hr.nextRow]
      exact List.filter_congr fun row _ => hr.isLive row
    rw [← hname, Collection.selected_eq_marks h' hslot', hlive]
    congr 1
    exact List.filter_congr fun row _ => hmarks hfound row

/-- The snapshot of the collection of any session, if it fits the stored form, is accepted by the
    collection of any other with the same chunk size, whatever that one held. It then answers as the
    first does; the predicates it had registered for indexes of the same name and source are
    attached and all other indexes detached. -/
theorem Reachable.load_snapshot {s t : Session} (hs : Reachable s) (ht : Reachable t)
    (hsize : t.collection.chunkSize = s.collection.chunkSize)
    (hfits : Fits s.collection.table) :
    ∃ c', t.collection.load ⟨s.collection.snapshot, none⟩ = (.ok (), c') ∧
      s.collection.Restored t.collection.table.schema c' := by
  have h := hs.wellFormed.table
  have hregistered := ht.wellFormed.table.schema
  have husable := ht.wellFormed.table.usable
  have hdecode := Snapshot.decode_encode h hfits t.collection.table.schema
  have hload : t.collection.load ⟨s.collection.snapshot, none⟩ =
      (.ok (), t.collection.replaceTable
        (Snapshot.restored s.collection.chunkSize t.collection.table.schema
          s.collection.table)) := by
    show t.collection.loadBytes s.collection.snapshot = _
    rw [Collection.loadBytes, Collection.snapshot, hsize]
    simp only [show s.collection.chunkSize = s.collection.config.chunkSize from rfl, hdecode]
  refine ⟨_, hload, ?_⟩
  have hrestores := Snapshot.restores_restored h hfits hsize t.collection.table.schema
  exact Table.Restores.restored hrestores hregistered h
    (Snapshot.wellFormed_restored h hfits hsize t.collection.table.schema husable)

theorem indexes_flags : Session.flags.collection.table.schema.indexes =
    #[⟨"set", "flag", 0, some Value.isTrue⟩] := by
  cbv

/-- The flags fit. -/
theorem fits_flags : Fits Session.flags.collection.table where
  chunks := by decide +kernel
  columns := by decide +kernel
  indexes := by decide +kernel
  columnName := by decide +kernel
  indexName := by
    intro index hindex
    rw [indexes_flags, List.mem_toArray, List.mem_singleton] at hindex
    subst hindex
    decide
  dictionary := by decide +kernel
  value chunk hchunk slot offset v hcell := by
    have hkinds : ∀ column ∈ Session.flags.collection.table.schema.columns,
        column.kind = .bool := by
      decide +kernel
    obtain ⟨id, hid, rfl⟩ := Array.mem_iff_getElem.mp hchunk
    have hok := reachable_flags.wellFormed.table.chunk id _ (Array.getElem?_eq_getElem hid)
    obtain ⟨column, hcolumn, hkind⟩ := hok.wellFormed.kind_of_cell? hcell
    rw [hkinds column (Array.mem_of_getElem? hcolumn)] at hkind
    cases hkind

/-- The flags loaded back into their own collection. -/
theorem load_snapshot_flags :
    ∃ c', Session.flags.collection.load ⟨Session.flags.collection.snapshot, none⟩ = (.ok (), c') ∧
      c'.count = 2 ∧ c'.fetch 1 = some [("flag", .bool false)] ∧
      c'.selected "set" = .ok [0] := by
  obtain ⟨c', hload, hrestored⟩ :=
    reachable_flags.load_snapshot reachable_flags rfl fits_flags
  refine ⟨c', hload, ?_, ?_, ?_⟩
  · rw [hrestored.count]
    decide +kernel
  · rw [hrestored.fetch]
    cbv
  · have hindexes : Session.flags.collection.table.schema.indexes =
        #[⟨"set", "flag", 0, some Value.isTrue⟩] := by
      cbv
    have hmem : (⟨"set", "flag", 0, some Value.isTrue⟩ : Index) ∈
        Session.flags.collection.table.schema.indexes := by
      rw [hindexes]
      exact Array.mem_singleton.mpr rfl
    have hselected := (hrestored.attached _ hmem Value.isTrue ⟨_, hmem, rfl, rfl, rfl⟩).2
    rw [hselected]
    simp only [Collection.current, hrestored.nextRow, hrestored.fetch, hrestored.valueAt]
    cbv

end ColumnStore
