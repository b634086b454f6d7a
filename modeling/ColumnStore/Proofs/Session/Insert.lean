import ColumnStore.Proofs.Session.Snapshot

/-!
# New rows of sessions

A new row takes a place in a chunk that no row had before, and insertion writes only what the record
has. So the row shows what its record gives and, where this gives nothing, what the place holds
already. Only a load can leave something in such a place: of the parts of a snapshot it compares the
live rows with the row watermark, but neither the present values nor the bits of indexes.

* `Table.WellFormed.fetch_inserted`, `Table.WellFormed.marks_inserted`: what a new row shows;
* `Reachable.insert_shows_iff`: new rows show their records and nothing else if and only if nothing
  is left in the place of the next row;
* `Homegrown.insert_shows`: so it is as long as the only bytes that are loaded were written by such
  sessions;
* `not_shows_leftover`: a snapshot that is accepted and leaves a value in the first place.
-/

namespace ColumnStore

/-! ## What a new row shows -/

/-- A row shows a record and nothing else: fetching it gives the fields of the record that name a
    column and are not `null`, and a query by an index selects it just if the index is attached, the
    record has a value for its source and the predicate accepts that value. -/
structure Collection.Shows (c : Collection) (record : Record) (row : Nat) : Prop where
  fetch : c.fetch row = some (c.table.schema.columns.toList.filterMap fun column =>
    (record.last? column.name).map (column.name, ·))
  index : ∀ index ∈ c.table.schema.indexes, ∃ rows, c.selected index.name = .ok rows ∧
    (row ∈ rows ↔ ∃ predicate v, index.predicate = some predicate ∧
      record.last? index.source = some v ∧ predicate v = true)

/-- In a record that names nothing twice, the last value of a name is its value. -/
theorem Record.last?_eq_some_iff {record : Record} (h : (record.map Prod.fst).Nodup)
    {name : String} {v : Value} :
    record.last? name = some v ↔ (name, v) ∈ record ∧ v.isNull = false := by
  induction record generalizing v with
  | nil => simp [last?]
  | cons field rest ih =>
    obtain ⟨other, value⟩ := field
    rw [List.map_cons, List.nodup_cons] at h
    have hrest : ∀ v, (other, v) ∉ rest := fun v hmem =>
      h.1 (List.mem_map.mpr ⟨(other, v), hmem, rfl⟩)
    rw [last?, List.mem_cons, Prod.mk.injEq]
    by_cases hname : other = name
    · subst hname
      have hlast : last? other rest = none := by
        cases hfound : last? other rest with
        | none => rfl
        | some w => exact absurd ((ih h.2).mp hfound).1 (hrest w)
      rw [hlast, Option.none_or, if_pos rfl]
      simp only [hrest, or_false, true_and]
      exact Value.present?_eq_some_iff
    · rw [if_neg hname, Option.or_none, ih h.2]
      simp only [Ne.symm hname, false_and, false_or]

/-- The fields that are fetched are the entries of the record that name a column and are not
    `null`. -/
theorem Collection.Shows.mem_fetch_iff {c : Collection} {record : Record} {row : Nat}
    (h : c.Shows record row) (hnodup : (record.map Prod.fst).Nodup) :
    ∃ fields, c.fetch row = some fields ∧ ∀ name v, (name, v) ∈ fields ↔
      (name, v) ∈ record ∧ v.isNull = false ∧
        ∃ column ∈ c.table.schema.columns, column.name = name := by
  refine ⟨_, h.fetch, fun name v => ?_⟩
  rw [List.mem_filterMap, ← and_assoc, ← Record.last?_eq_some_iff hnodup]
  constructor
  · rintro ⟨column, hcolumn, hfield⟩
    obtain ⟨v', hlast, heq⟩ := Option.map_eq_some_iff.mp hfield
    cases heq
    exact ⟨hlast, column, Array.mem_toList_iff.mp hcolumn, rfl⟩
  · rintro ⟨hlast, column, hcolumn, rfl⟩
    exact ⟨column, Array.mem_toList_iff.mpr hcolumn, by rw [hlast, Option.map_some]⟩

namespace Table

/-- The value that the column in a slot has in a new row: the one that the record gives it, or else
    the one that is left in the place of the row. -/
def newValue? (config : Config) (table : Table) (record : Record) (slot : Nat) (name : String) :
    Option Value :=
  (record.last? name).or (table.cellValue? config slot table.nextRow)

/-- Whether the index in a slot has a new row: an attached one judges the value that its source then
    has; a detached one has the row if it had its place, unless the record gives its source a
    value. -/
def newMark (config : Config) (table : Table) (record : Record) (slot : Nat) (index : Index) :
    Bool :=
  match index.predicate with
  | some predicate =>
    (table.newValue? config record index.sourceSlot index.source).any predicate
  | none => table.marks config slot table.nextRow && (record.last? index.source).isNone

variable {config : Config} {table table' : Table} {record : Record}

theorem Inserted.isLive_nextRow {fields : List (Nat × Column × Value)}
    (hins : Inserted config fields table table') : table'.isLive config table.nextRow = true := by
  rw [hins.isLive, decide_eq_true rfl, Bool.true_or]

theorem WellFormed.cellValue?_inserted (h : table.WellFormed config)
    (hins : Inserted config (fields table.schema record) table table') {slot : Nat}
    {column : Column} (hcolumn : table.schema.columns[slot]? = some column) :
    table'.cellValue? config slot table.nextRow =
      table.newValue? config record slot column.name := by
  have hfound := h.schema.column?_eq_some_iff.mpr ⟨hcolumn, rfl⟩
  rw [hins.cellValue?, if_pos rfl, stored_fields hfound, newValue?]

theorem WellFormed.fetch_inserted (h : table.WellFormed config) (h' : table'.WellFormed config)
    (hins : Inserted config (fields table.schema record) table table') :
    table'.fetch config table.nextRow =
      some (table.schema.columns.toList.zipIdx.filterMap fun (column, slot) =>
        (table.newValue? config record slot column.name).map (column.name, ·)) := by
  rw [h'.fetch_eq, if_pos hins.isLive_nextRow, hins.schema_eq]
  congr 1
  refine List.filterMap_congr fun place hplace => ?_
  obtain ⟨column, slot⟩ := place
  have hslot : table.schema.columns[slot]? = some column := Schema.mem_zipIdx_iff.mp hplace
  show (table'.cellValue? config slot table.nextRow).map _ = _
  rw [h.cellValue?_inserted hins hslot]

theorem WellFormed.marks_inserted (h : table.WellFormed config) (h' : table'.WellFormed config)
    (hins : Inserted config (fields table.schema record) table table') {slot : Nat} {index : Index}
    (hindex : table.schema.indexes[slot]? = some index) :
    table'.marks config slot table.nextRow = table.newMark config record slot index := by
  obtain ⟨column, hcolumn, hname⟩ := h.schema.source index (Array.mem_of_getElem? hindex)
  have hindex' : table'.schema.indexes[slot]? = some index := by
    rw [hins.schema_eq]
    exact hindex
  unfold newMark
  cases hpredicate : index.predicate with
  | some predicate =>
    rw [h'.marks_eq hindex' hpredicate, h.cellValue?_inserted hins hcolumn, hname]
  | none =>
    have hfound := h.schema.column?_eq_some_iff.mpr ⟨hcolumn, hname⟩
    rw [hins.marks_detached slot index hindex hpredicate, stored_fields hfound]

/-- Nothing is left at a row if no column has a value and no index a bit there. -/
theorem WellFormed.vacant_of_schema (h : table.WellFormed config) {row : Nat}
    (hlive : table.isLive config row = false)
    (hcell : ∀ (slot : Nat) column, table.schema.columns[slot]? = some column →
      table.cellValue? config slot row = none)
    (hmarks : ∀ (slot : Nat) index, table.schema.indexes[slot]? = some index →
      table.marks config slot row = false) : table.Vacant config row where
  isLive := hlive
  cell? slot := by
    cases hfound : table.cell? config slot row with
    | none => rfl
    | some cell =>
      obtain ⟨⟨column, hcolumn, -⟩, -⟩ := h.kind_of_cell? hfound
      rw [← hfound, ← cellValue?_eq_none_iff, hcell slot column hcolumn]
  marks slot := by
    rw [← Bool.not_eq_true]
    intro hmarked
    obtain ⟨chunk, hchunk, hbit⟩ := (Option.any_eq_true ..).mp hmarked
    obtain ⟨bits, hbits, -⟩ := (Option.any_eq_true ..).mp hbit
    have hlt := (Array.getElem?_eq_some_iff.mp hbits).1
    rw [(h.chunk _ chunk hchunk).wellFormed.indexes_size] at hlt
    rw [hmarks slot _ (Array.getElem?_eq_getElem hlt)] at hmarked
    cases hmarked

theorem WellFormed.isLive_nextRow (h : table.WellFormed config) :
    table.isLive config table.nextRow = false := by
  rw [← Bool.not_eq_true]
  exact fun hlive => Nat.lt_irrefl _ (h.lt_nextRow hlive)

end Table

/-! ## Insertion into a collection -/

namespace Collection

variable {c : Collection} {record : Record} {row : Nat}

/-- An insertion that succeeds gives the next row, and the record is put there. -/
theorem inserted_of_ok (h : c.table.WellFormed c.config)
    (hinsert : (c.insert record).1 = .ok row) :
    row = c.table.nextRow ∧ ∃ table', (c.insert record).2 = { c with table := table' } ∧
      table'.WellFormed c.config ∧
      Table.Inserted c.config (Table.fields c.table.schema record) c.table table' := by
  have hchange : c.insert record = ((Table.insert c.config record c.table).1,
      { c with table := (Table.insert c.config record c.table).2 }) := rfl
  rw [hchange] at hinsert ⊢
  cases hfind : (Table.fields c.table.schema record).find? Table.illTyped with
  | some field =>
    obtain ⟨slot, column, value⟩ := field
    rw [Table.insert_of_illTyped hfind] at hinsert
    cases hinsert
  | none =>
    obtain ⟨table', htable, hwf, hins⟩ := h.insert hfind
    rw [htable] at hinsert ⊢
    cases hinsert
    exact ⟨rfl, table', rfl, hwf, hins⟩

/-- A new row shows what its record gives and what was left in its place. -/
theorem insert_spec (h : c.table.WellFormed c.config) (hinsert : (c.insert record).1 = .ok row) :
    row = c.table.nextRow ∧ (c.insert record).2.table.schema = c.table.schema ∧
      (c.insert record).2.fetch row =
        some (c.table.schema.columns.toList.zipIdx.filterMap fun (column, slot) =>
          (c.table.newValue? c.config record slot column.name).map (column.name, ·)) ∧
      ∀ (slot : Nat) index, c.table.schema.indexes[slot]? = some index →
        ∃ rows, (c.insert record).2.selected index.name = .ok rows ∧
          (row ∈ rows ↔ c.table.newMark c.config record slot index = true) := by
  obtain ⟨rfl, table', hresult, hwf, hins⟩ := inserted_of_ok h hinsert
  rw [hresult]
  refine ⟨rfl, hins.schema_eq, h.fetch_inserted hwf hins, fun slot index hindex => ?_⟩
  have hindex' : table'.schema.indexes[slot]? = some index := by
    rw [hins.schema_eq]
    exact hindex
  have hselected := selected_eq_marks (c := { c with table := table' }) hwf hindex'
  refine ⟨_, hselected, ?_⟩
  rw [← h.marks_inserted hwf hins hindex, List.mem_filter]
  refine ⟨And.right, fun hmark => ⟨?_, hmark⟩⟩
  rw [Table.liveRows, List.mem_filter, List.mem_range]
  exact ⟨hwf.lt_nextRow hins.isLive_nextRow, hins.isLive_nextRow⟩

/-- If nothing is left in the place of the next row, a new row shows its record. -/
theorem shows_of_vacant (h : c.table.WellFormed c.config)
    (hvacant : c.table.Vacant c.config c.table.nextRow)
    (hinsert : (c.insert record).1 = .ok row) : (c.insert record).2.Shows record row := by
  obtain ⟨-, hschema, hfetch, hindexes⟩ := insert_spec h hinsert
  have hvalue : ∀ slot name, c.table.newValue? c.config record slot name = record.last? name := by
    intro slot name
    rw [Table.newValue?, Table.cellValue?_eq_none_iff.mpr (hvacant.cell? slot), Option.or_none]
  refine ⟨?_, fun index hmem => ?_⟩
  · rw [hfetch, hschema]
    simp only [hvalue]
    exact congrArg some (Table.filterMap_zipIdx_fst _ fun column : Column =>
      (record.last? column.name).map (column.name, ·))
  · rw [hschema] at hmem
    obtain ⟨slot, hslot⟩ := Array.mem_iff_getElem?.mp hmem
    obtain ⟨rows, hrows, hiff⟩ := hindexes slot index hslot
    refine ⟨rows, hrows, hiff.trans ?_⟩
    rw [Table.newMark, hvalue, hvacant.marks]
    cases index.predicate with
    | none => simp
    | some predicate => simp [Option.any_eq_true]

/-- If every new row shows its record, nothing is left in the place of the next one: a row without
    fields would show it. -/
theorem vacant_of_shows (h : c.table.WellFormed c.config)
    (hshows : ∀ record row, (c.insert record).1 = .ok row → (c.insert record).2.Shows record row) :
    c.table.Vacant c.config c.table.nextRow := by
  have hinsert : (c.insert []).1 = .ok c.table.nextRow := by
    have hfind : (Table.fields c.table.schema []).find? Table.illTyped = none := rfl
    obtain ⟨table', htable, -⟩ := h.insert hfind
    show (Table.insert c.config [] c.table).1 = _
    rw [htable]
  obtain ⟨-, hschema, hfetch, hindexes⟩ := insert_spec h hinsert
  have hshown := hshows [] _ hinsert
  have hvalue : ∀ slot name, c.table.newValue? c.config [] slot name =
      c.table.cellValue? c.config slot c.table.nextRow := fun _ _ => Option.none_or
  have hcell : ∀ (slot : Nat) column, c.table.schema.columns[slot]? = some column →
      c.table.cellValue? c.config slot c.table.nextRow = none := by
    intro slot column hcolumn
    have hnil : (c.table.schema.columns.toList.zipIdx.filterMap fun place : Column × Nat =>
        (c.table.newValue? c.config [] place.2 place.1.name).map (place.1.name, ·)) = [] := by
      have hnone := hshown.fetch
      rw [hfetch, Option.some.injEq] at hnone
      rw [hnone, List.filterMap_eq_nil_iff]
      exact fun _ _ => rfl
    have := List.filterMap_eq_nil_iff.mp hnil (column, slot) (Schema.mem_zipIdx_iff.mpr hcolumn)
    rwa [Option.map_eq_none_iff, hvalue] at this
  refine h.vacant_of_schema h.isLive_nextRow hcell fun slot index hindex => ?_
  -- a query by the index would select the row
  have hunmarked : c.table.newMark c.config [] slot index = false := by
    obtain ⟨rows, hrows, hiff⟩ := hindexes slot index hindex
    obtain ⟨rows', hrows', hiff'⟩ := hshown.index index (by
      rw [hschema]
      exact Array.mem_of_getElem? hindex)
    rw [hrows] at hrows'
    cases hrows'
    rw [← Bool.not_eq_true, ← hiff, hiff']
    rintro ⟨predicate, v, -, hlast, -⟩
    cases hlast
  unfold Table.newMark at hunmarked
  cases hpredicate : index.predicate with
  | none => simpa [hpredicate, Record.last?] using hunmarked
  | some predicate =>
    rw [h.marks_eq hindex hpredicate]
    simpa [hpredicate, hvalue] using hunmarked

end Collection

/-! ## Sessions -/

/-- New rows of a session show their records and nothing else if and only if nothing is left in the
    place of the next row. -/
theorem Reachable.insert_shows_iff {s : Session} (h : Reachable s) :
    (∀ record row, (s.collection.insert record).1 = .ok row →
      (s.collection.insert record).2.Shows record row) ↔
      s.collection.table.Vacant s.collection.config s.collection.table.nextRow :=
  ⟨Collection.vacant_of_shows h.wellFormed.table, fun hvacant _ _ hinsert =>
    Collection.shows_of_vacant h.wellFormed.table hvacant hinsert⟩

theorem Session.collection_load (s : Session) (source : Source) :
    (s.step (.load source)).2.collection = (s.collection.load source).2 := rfl

/-- A collection is loaded with the snapshot of another. -/
theorem Collection.load_restored {c c' : Collection} (h : c'.table.WellFormed c'.config)
    (hfits : Snapshot.Fits c'.table) (hsize : c.chunkSize = c'.chunkSize) :
    c.load ⟨c'.snapshot, none⟩ =
      (.ok (), c.replaceTable (Snapshot.restored c'.chunkSize c.table.schema c'.table)) := by
  have hdecode : Snapshot.decode c'.chunkSize c.table.schema c'.snapshot = .ok _ :=
    Snapshot.decode_encode h hfits c.table.schema
  show c.loadBytes c'.snapshot = _
  rw [loadBytes, hsize]
  simp only [hdecode]
  rfl

/-- What a tidy table wrote is tidy again. -/
theorem Table.Restores.tidy {registered : Schema} {config config' : Config} {table table' : Table}
    (hr : Restores registered config config' table table') (h' : table'.WellFormed config')
    (htidy : table.Tidy config) : table'.Tidy config' := by
  intro row hrow
  rw [hr.isLive] at hrow
  have hvacant := htidy row hrow
  have hcell : ∀ (slot : Nat) column, table'.schema.columns[slot]? = some column →
      table'.cellValue? config' slot row = none := by
    intro slot column hcolumn
    have hmem : column ∈ table.schema.columns.toList :=
      hr.columns.mem_iff.mp (Array.mem_toList_iff.mpr (Array.mem_of_getElem? hcolumn))
    obtain ⟨old, hold⟩ := Array.mem_iff_getElem?.mp (Array.mem_toList_iff.mp hmem)
    obtain ⟨slot', hcolumn', hvalue, -⟩ := hr.column old column hold
    have hplace := h'.schema.column?_eq_some_iff.mpr ⟨hcolumn, rfl⟩
    rw [h'.schema.column?_eq_some_iff.mpr ⟨hcolumn', rfl⟩] at hplace
    cases hplace
    rw [hvalue, cellValue?_eq_none_iff, hvacant.cell?]
  refine h'.vacant_of_schema (by rw [hr.isLive, hrow]) hcell fun slot index hindex => ?_
  cases hpredicate : index.predicate with
  | some predicate =>
    obtain ⟨column, hcolumn, -⟩ := h'.schema.source index (Array.mem_of_getElem? hindex)
    rw [h'.marks_eq hindex hpredicate, hcell _ column hcolumn]
    rfl
  | none =>
    have hmem : (index.name, index.source) ∈
        table.schema.indexes.toList.map fun index => (index.name, index.source) :=
      hr.indexes.mem_iff.mp (List.mem_map.mpr
        ⟨index, Array.mem_toList_iff.mpr (Array.mem_of_getElem? hindex), rfl⟩)
    obtain ⟨oldIndex, hmem, heq⟩ := List.mem_map.mp hmem
    obtain ⟨old, hold⟩ := Array.mem_iff_getElem?.mp (Array.mem_toList_iff.mp hmem)
    obtain ⟨slot', index', hindex', hname, -, -, hmarks⟩ := hr.index old oldIndex hold
    have hplace := h'.schema.index?_eq_some_iff.mpr ⟨hindex, rfl⟩
    rw [h'.schema.index?_eq_some_iff.mpr
      ⟨hindex', hname.trans (Prod.mk.inj heq).1⟩] at hplace
    cases hplace
    rw [hmarks hpredicate, hvacant.marks]

/-- Sessions that load nothing but what such sessions wrote; a load may also be refused. -/
inductive Homegrown : Session → Prop where
  | new (capacity : Nat) : Homegrown (.start (.new capacity))
  | withConfig {config : Config} {c : Collection} (h : Collection.withConfig config = .ok c) :
    Homegrown (.start c)
  | step {s : Session} (h : Homegrown s) {op : Op} (hop : op.isLoad = false) :
    Homegrown (s.step op).2
  | load {s t : Session} (hs : Homegrown s) (ht : Homegrown t)
    (hsize : s.collection.chunkSize = t.collection.chunkSize)
    (hfits : Snapshot.Fits t.collection.table) :
    Homegrown (s.step (.load ⟨t.collection.snapshot, none⟩)).2
  | refused {s : Session} (h : Homegrown s) {source : Source} {e : Error}
    (hload : (s.collection.load source).1 = .error e) : Homegrown (s.step (.load source)).2

theorem Homegrown.reachable {s : Session} (h : Homegrown s) : Reachable s := by
  induction h with
  | new capacity => exact .new capacity
  | withConfig h => exact .withConfig h
  | step _ _ ih => exact ih.step _
  | load _ _ _ _ ih _ => exact ih.step _
  | refused _ _ ih => exact ih.step _

theorem Homegrown.run {s : Session} (h : Homegrown s) {ops : List Op}
    (hops : ∀ op ∈ ops, op.isLoad = false) : Homegrown (s.run ops) := by
  induction ops generalizing s with
  | nil => exact h
  | cons op rest ih =>
    rw [List.forall_mem_cons] at hops
    exact ih (h.step hops.1) hops.2

theorem homegrown_flags : Homegrown Session.flags :=
  (Homegrown.new 2).run (by simp [Op.isLoad])

/-- Nothing is left anywhere in them but in live rows. -/
theorem Homegrown.tidy {s : Session} (h : Homegrown s) :
    s.collection.table.Tidy s.collection.config := by
  induction h with
  | new capacity => exact Table.tidy_empty _
  | @withConfig config c hc =>
    obtain ⟨-, rfl⟩ := Collection.build_of_withConfig hc
    exact Table.tidy_empty config
  | step h hop ih =>
    have hsteps := h.reachable.wellFormed.step_steps hop
    rw [hsteps.config]
    exact hsteps.table.tidy ih
  | @load s t hs ht hsize hfits _ ih =>
    have h := ht.reachable.wellFormed.table
    have husable := hs.reachable.wellFormed.table.usable
    have hrestores := Snapshot.restores_restored h hfits hsize s.collection.table.schema
    have hwf := Snapshot.wellFormed_restored h hfits hsize s.collection.table.schema husable
    rw [Session.collection_load, Collection.load_restored h hfits hsize]
    exact hrestores.tidy hwf ih
  | refused h hload ih =>
    rw [Session.collection_load, Collection.load_of_error hload]
    exact ih

theorem Homegrown.insert_shows {s : Session} (h : Homegrown s) {record : Record} {row : Nat}
    (hinsert : (s.collection.insert record).1 = .ok row) :
    (s.collection.insert record).2.Shows record row :=
  Collection.shows_of_vacant h.reachable.wellFormed.table
    (h.tidy _ h.reachable.wellFormed.table.isLive_nextRow) hinsert

/-- A third flag, set: a query by the index selects it. -/
theorem insert_shows_iff_flags :
    (Session.flags.collection.insert [("flag", .bool true)]).2.Shows [("flag", .bool true)] 2 := by
  have hvacant : Session.flags.collection.table.Vacant Session.flags.collection.config
      Session.flags.collection.table.nextRow :=
    homegrown_flags.tidy _ reachable_flags.wellFormed.table.isLive_nextRow
  exact reachable_flags.insert_shows_iff.mpr hvacant _ _ (by cbv)

/-! ## What a snapshot can leave -/

/-- The snapshot of one chunk without rows, in which a column of flags has a value at the first
    offset: after the magic, the version and the sizes come the column with its name, kind and
    segment, no index, the row watermark, the number of live rows, and the bitmap of live rows. -/
def Snapshot.leftover : Bytes :=
  [0x4b, 0x4c, 0x53, 0x4e, 1, 0, 64, 0, 0, 0, 1, 0, 0, 0,
    1, 0, 0, 0, 4, 0, 0, 0, 0x66, 0x6c, 0x61, 0x67, 1,
    1, 64, 0, 0, 0, 1, 0, 0, 0, 1, 0, 0, 0, 0, 0, 0, 0, 1,
    0, 0, 0, 0,
    0, 0, 0, 0, 0, 0, 0, 0, 0, 0, 0, 0, 0, 0, 0, 0, 1, 0, 0, 0, 0, 0, 0, 0, 0, 0, 0, 0]

/-- A collection that was loaded with it. -/
def Session.leftover : Session :=
  (start (.build ⟨0, 64, none⟩)).run [.load ⟨Snapshot.leftover, none⟩]

theorem fetch_leftover :
    (Session.leftover.collection.insert []).2.fetch 0 = some [("flag", .bool true)] := by
  cbv

/-- The snapshot is accepted, and then a row that was inserted without fields shows the flag. -/
theorem not_shows_leftover :
    Session.leftover.collection.generation = 1 ∧
      (Session.leftover.collection.insert []).1 = .ok 0 ∧
      (Session.leftover.collection.insert []).2.fetch 0 = some [("flag", .bool true)] ∧
      ¬(Session.leftover.collection.insert []).2.Shows [] 0 := by
  refine ⟨by decide +kernel, by cbv, fetch_leftover, fun hshows => ?_⟩
  obtain ⟨fields, hfields, hmem⟩ := hshows.mem_fetch_iff List.nodup_nil
  rw [fetch_leftover, Option.some.injEq] at hfields
  have hflag := (hmem "flag" (.bool true)).mp (by simp [← hfields])
  cases hflag.1

end ColumnStore
