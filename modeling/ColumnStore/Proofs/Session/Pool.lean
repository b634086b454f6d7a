import ColumnStore.Proofs.Schema.Pool
import ColumnStore.Proofs.Session.Passes
import ColumnStore.Proofs.Session.Registry
import ColumnStore.Proofs.Transaction.Edits

/-!
# The column pool of a session

A pool of columns goes along with every session from its start (`PoolOf`): schemas are copied and
grown, columns never, and whatever an operation encodes it encodes for the columns that its schemas
refer to, whichever schemas these are. An insertion finds them in the schema of the collection, a
pass finds the column that it goes over in the schema of its transaction and any others that it
writes in the schema that it works under.

* `Table.dictionaries_insert`, `Table.Composes.dictionaries_eq`: what insertions and passes encode;
* `ColumnPool.Backs`: for the contents of every generation the pool has a schema that stands for
  theirs, with their dictionaries; no two generations share a column; and the schema that a
  transaction was opened with grows into the one that its contents have;
* `PoolOf.backs`: this is so in every session.
-/

namespace ColumnStore

/-! ## What operations encode -/

namespace Table

variable {config : Config} {table table' : Table}

theorem encodeFields_of_all {dictionaries : Array Dictionary}
    {fields : List (Nat × Column × Value)} (hslot : ∀ field ∈ fields, field.1 < dictionaries.size)
    (haccepts : ∀ field ∈ fields, field.2.1.kind.accepts field.2.2 = true) :
    (encodeFields dictionaries fields).2 = Column.encodeAll dictionaries fields := by
  induction fields generalizing dictionaries with
  | nil => rfl
  | cons field rest ih =>
    obtain ⟨slot, column, value⟩ := field
    rw [List.forall_mem_cons] at hslot haccepts
    obtain ⟨cell, dictionaries', hencode, hspec⟩ :=
      Column.encodeAt_of_accepts haccepts.1 hslot.1
    have hsize : ∀ field ∈ rest, field.1 < dictionaries'.size :=
      fun field hfield => (hslot.2 field hfield).trans_eq hspec.allExtend.size.symm
    rw [encodeFields, Column.encodeAll_cons, hencode, ← ih hsize haccepts.2]
    dsimp only
    generalize encodeFields dictionaries' rest = encoded
    obtain ⟨_ | _, _⟩ := encoded <;> rfl

/-- An insertion encodes the fields of its record one after the other, if all can be stored. -/
theorem dictionaries_insert (h : table.WellFormed config) (record : Record) :
    (insert config record table).2.dictionaries =
      if (fields table.schema record).all fun field => field.2.1.kind.accepts field.2.2 then
        Column.encodeAll table.dictionaries (fields table.schema record)
      else table.dictionaries := by
  unfold insert
  dsimp only
  have hslot : ∀ field ∈ fields table.schema record, field.1 < table.dictionaries.size := by
    intro field hfield
    rw [h.dictionaries_size]
    exact (Array.getElem?_eq_some_iff.mp (mem_fields hfield)).1
  cases hfind : (fields table.schema record).find? illTyped with
  | some field =>
    obtain ⟨slot, column, value⟩ := field
    have hmem := List.mem_of_find?_eq_some hfind
    have hrefused := List.find?_some hfind
    rw [checkFields_eq, hfind, if_neg]
    rw [List.all_eq_true]
    intro hall
    simp [illTyped, hall _ hmem] at hrefused
  | none =>
    have haccepts : ∀ field ∈ fields table.schema record,
        field.2.1.kind.accepts field.2.2 = true := by
      intro field hfield
      simpa [illTyped] using List.find?_eq_none.mp hfind field hfield
    rw [checkFields_eq, hfind, if_pos (List.all_eq_true.mpr haccepts),
      ← encodeFields_of_all hslot haccepts]
    dsimp only
    generalize encodeFields table.dictionaries (fields table.schema record) = encoded
    obtain ⟨_ | cells, dictionaries⟩ := encoded
    · rfl
    · dsimp only
      split <;> rfl

theorem dictionaries_deleteAt (config : Config) (row : Nat) (table : Table) :
    (deleteAt config row table).2.dictionaries = table.dictionaries := by
  unfold deleteAt
  split
  · rfl
  · dsimp only
    split <;> rfl

end Table

namespace Cursor

theorem dictionaries_write (cursor : Cursor) (slot : Nat) (column : Column) (value : Value)
    (dictionaries : Array Dictionary) (chunk : Chunk) :
    (cursor.write slot column value dictionaries chunk).2.1 =
      (column.encodeAt dictionaries slot value).2 := by
  unfold write
  generalize column.encodeAt dictionaries slot value = encoded
  obtain ⟨_ | _, _⟩ := encoded <;> rfl

/-- A write encodes its value for the column that it goes to, if there is one. -/
theorem dictionaries_edit (cursor : Cursor) (edit : Edit) (dictionaries : Array Dictionary)
    (chunk : Chunk) :
    (cursor.run edit.visit dictionaries chunk).2.1 =
      match cursor.target? edit with
      | some (slot, column) => (column.encodeAt dictionaries slot edit.value).2
      | none => dictionaries := by
  cases htarget : cursor.target? edit with
  | some found =>
    rw [run_edit_of_target? htarget]
    exact cursor.dictionaries_write ..
  | none =>
    obtain ⟨e, hrun⟩ := run_edit_of_no_target htarget dictionaries chunk
    rw [hrun]

end Cursor

namespace Table

variable {config : Config} {table table' : Table} {cursor : Nat → Cursor}

/-- The writes of a pass, each with the column that it goes to and the slot. Those that go to no
    column encode nothing. -/
def targets (cursor : Cursor) (edits : List (Nat × Edit)) : List (Nat × Column × Value) :=
  edits.filterMap fun (_, edit) =>
    (cursor.target? edit).map fun (slot, column) => (slot, column, edit.value)

/-- A pass encodes what it writes, one after the other. -/
theorem Composes.dictionaries_eq {edits : List (Nat × Edit)}
    (h : Composes config cursor table edits table') {place : Cursor}
    (hplace : ∀ offset edit, (cursor offset).target? edit = place.target? edit) :
    table'.dictionaries = Column.encodeAll table.dictionaries (targets place edits) := by
  induction h with
  | nil => rfl
  | @cons table table₁ table₂ row edit rest hedit hrefused hrest ih =>
    have hencoded : table₁.dictionaries =
        match place.target? edit with
        | some (slot, column) => (column.encodeAt table.dictionaries slot edit.value).2
        | none => table.dictionaries := by
      unfold visitAt at hedit
      cases hchunk : table.chunks[row / config.chunkSize]? with
      | none => simp [hchunk] at hedit
      | some chunk =>
        simp only [hchunk, Prod.mk.injEq] at hedit
        rw [← hedit.2, ← hplace (row % config.chunkSize)]
        exact Cursor.dictionaries_edit ..
    rw [ih, hencoded]
    simp only [targets, List.filterMap_cons]
    cases place.target? edit <;> rfl

end Table

namespace ColumnPool

/-! ## Operations -/

/-- The fields of a record that name a column. -/
def fields (pool : ColumnPool) (record : Record) : List (Nat × Value) :=
  record.filterMap fun (name, value) => (pool.find pool.schema name).map (·, value)

/-- Encodes the fields of a record, if all can be stored. -/
def insert (record : Record) (pool : ColumnPool) : ColumnPool :=
  if (pool.fields record).all fun (ref, value) => (pool.column ref).kind.accepts value then
    pool.encodeAll (pool.fields record)
  else pool

/-- Takes in the columns of contents that are read. -/
def load (chunkSize : Nat) (source : Source) (pool : ColumnPool) : ColumnPool :=
  match source.failure with
  | some _ => pool
  | none =>
    match Snapshot.decode chunkSize (pool.view pool.schema) source.bytes with
    | .error _ => pool
    | .ok table => pool.replaceTable table

/-- Opens a transaction with the schema of the collection. -/
def begin (pool : ColumnPool) : ColumnPool := { pool with pinned := pool.pinned.push pool.schema }

/-- The column that a write of a pass goes to: that of the pass, or one that the schema has under a
    name. -/
def target? (pool : ColumnPool) (under : SharedSchema) (own : Nat) (edit : Edit) : Option Nat :=
  match edit.column with
  | none => some own
  | some name => pool.find under name

/-- Encodes the writes of a pass over a column of the schema `pinned` that works under the schema
    `under`. -/
def pass (pinned under : SharedSchema) (name : String) (edits : List (Nat × Edit))
    (pool : ColumnPool) : ColumnPool :=
  match pool.find pinned name with
  | none => pool
  | some own =>
    pool.encodeAll (edits.filterMap fun (_, edit) =>
      (pool.target? under own edit).map (·, edit.value))

/-- The pool after an operation of its session. The writes of a pass are those of its record. -/
def step (pool : ColumnPool) (s : Session) : Op → ColumnPool
  | .createColumn name kind => pool.createColumn name kind
  | .createIndex name source predicate => pool.createIndex name source predicate
  | .insert record => pool.insert record
  | .load source => pool.load s.collection.chunkSize source
  | .begin => pool.begin
  | .pass id name visitor state =>
    match s.transactions[id]?, pool.pinned[id]? with
    | some t, some pinned =>
      let ((_, log), _) := t.pass s.collection name (Transaction.recorded visitor) (state, [])
      let under := if t.generation = s.collection.generation then pool.schema else pinned
      pool.pass pinned under name (Table.edits log)
    | _, _ => pool
  | .deleteAt _ => pool
  | .filter .. => pool
  | .deleteAll _ => pool

/-- The pool after a run of its session. -/
def run (pool : ColumnPool) : Session → List Op → ColumnPool
  | _, [] => pool
  | s, op :: rest => (pool.step s op).run (s.step op).2 rest

variable {pool pool' : ColumnPool} {config : Config} {table : Table}

/-! ## Insertions and passes -/

theorem Shows.fields_eq (h : pool.Shows pool.schema table.schema table.dictionaries)
    (record : Record) :
    pool.fields record =
      (Table.fields table.schema record).map fun field =>
        (pool.schema.ref field.1, field.2.2) := by
  unfold ColumnPool.fields Table.fields
  rw [List.map_filterMap]
  congr 1
  funext ⟨name, value⟩
  dsimp only
  rw [find_eq, h.view_eq, Option.map_map, Option.map_map]
  rfl

/-- The columns of the pool can store the fields of a record if those of the table can. -/
theorem Shows.all_accepts (h : pool.Shows pool.schema table.schema table.dictionaries)
    (record : Record) :
    ((pool.fields record).all fun (ref, value) => (pool.column ref).kind.accepts value) =
      (Table.fields table.schema record).all fun field =>
        field.2.1.kind.accepts field.2.2 := by
  rw [h.fields_eq, List.all_map, Bool.eq_iff_iff, List.all_eq_true, List.all_eq_true]
  refine forall₂_congr fun field hfield => ?_
  obtain ⟨-, hfound⟩ := h.getElem?_ref (Table.mem_fields hfield)
  show (pool.column (pool.schema.ref field.1)).kind.accepts field.2.2 = true ↔ _
  rw [column_of_getElem? hfound]

/-- An insertion encodes in the pool what it encodes in the table. -/
theorem Shows.insert (h : pool.Shows pool.schema table.schema table.dictionaries)
    (hwf : table.WellFormed config) (record : Record) :
    Changes pool.retired.size pool (pool.insert record) ∧
      (pool.insert record).Shows (pool.insert record).schema
        (Table.insert config record table).2.schema
        (Table.insert config record table).2.dictionaries := by
  rw [Table.schema_insert, Table.dictionaries_insert hwf, ColumnPool.insert, h.all_accepts]
  split_ifs
  · have hcurrent : pool.schemaOf pool.retired.size = pool.schema := schemaOf_of_le le_rfl
    have hencoded := Shows.changes_encodeAll (by rwa [hcurrent]) (fun field => Table.mem_fields)
      ((h.fields_eq record).trans (by rw [hcurrent]))
    rwa [schemaOf_of_le hencoded.1.retired_size.le] at hencoded
  · exact ⟨.refl _ pool, h⟩

/-- Where a write of a pass goes in the pool, by where it goes in the contents. -/
theorem Shows.pass {generation : Nat} {schema : Schema} {dictionaries : Array Dictionary}
    (h : pool.Shows (pool.schemaOf generation) schema dictionaries)
    {pinned under : SharedSchema} (hpinned : pinned.GrowsInto (pool.schemaOf generation))
    (hunder : under.GrowsInto (pool.schemaOf generation)) {name : String} {place : Cursor}
    (hcolumn : (pool.view pinned).column? name = some (place.slot, place.column))
    (hplace : place.schema = pool.view under)
    (hfound : place.schema.columns[place.slot]? = some place.column)
    (edits : List (Nat × Edit)) :
    Changes generation pool (pool.pass pinned under name edits) ∧
      (pool.pass pinned under name edits).Shows
        ((pool.pass pinned under name edits).schemaOf generation) schema
        (Column.encodeAll dictionaries (Table.targets place edits)) := by
  have hunder' := extends_view hunder pool
  rw [h.view_eq, ← hplace] at hunder'
  unfold ColumnPool.pass
  rw [find_of_growsInto hpinned, hcolumn]
  refine h.changes_encodeAll (fun write hwrite => ?_) ?_
  · obtain ⟨⟨row, edit⟩, -, hmade⟩ := List.mem_filterMap.mp hwrite
    obtain ⟨⟨slot, column⟩, htarget, rfl⟩ := Option.map_eq_some_iff.mp hmade
    exact hunder'.columns slot column (Cursor.getElem?_of_target? hfound htarget)
  · unfold Table.targets
    rw [List.map_filterMap]
    congr 1
    funext ⟨row, edit⟩
    dsimp only
    unfold target? Cursor.target?
    cases edit.column with
    | none => rfl
    | some other =>
      dsimp only
      rw [find_of_growsInto hunder, ← hplace, Option.map_map, Option.map_map]
      rfl

/-! ## The contents of a collection -/

/-- For the contents of every generation the pool has a schema that stands for theirs, with their
    dictionaries, and no column belongs to the contents of two generations. -/
structure Carries (pool : ColumnPool) (c : Collection) : Prop where
  retired_size : pool.retired.size = c.generation
  shows : ∀ generation ≤ c.generation, pool.Shows (pool.schemaOf generation)
    (c.tableOf generation).schema (c.tableOf generation).dictionaries
  apart : ∀ generation ≤ c.generation, ∀ other ≤ c.generation,
    ∀ ref ∈ (pool.schemaOf generation).columns, ref ∈ (pool.schemaOf other).columns →
      generation = other

namespace Carries

variable {c : Collection}

theorem empty (config : Config) : ColumnPool.empty.Carries (.build config) where
  retired_size := rfl
  shows generation _ := by
    rw [schemaOf_of_le (Nat.zero_le generation), Collection.tableOf_of_le (Nat.zero_le generation)]
    exact shows_empty
  apart generation hle other hle' _ _ _ :=
    (Nat.le_zero.mp hle).trans (Nat.le_zero.mp hle').symm

theorem schemaOf_generation (h : pool.Carries c) : pool.schemaOf c.generation = pool.schema :=
  schemaOf_of_le h.retired_size.le

/-- The schema of the collection stands for that of the present contents. -/
theorem current (h : pool.Carries c) :
    pool.Shows pool.schema c.table.schema c.table.dictionaries := by
  have hshows := h.shows c.generation le_rfl
  rwa [h.schemaOf_generation, Collection.tableOf_generation] at hshows

/-- What is done to the contents of one generation leaves the others to their own columns. -/
theorem changes (h : pool.Carries c) {generation : Nat} (hle : generation ≤ c.generation)
    (hchanges : Changes generation pool pool') {table : Table}
    (hshows : pool'.Shows (pool'.schemaOf generation) table.schema table.dictionaries) :
    pool'.Carries (c.setTable generation table) := by
  have hothers : ∀ other ≤ c.generation, other ≠ generation →
      pool'.schemaOf other = pool.schemaOf other := fun other hother =>
    hchanges.others other (hother.trans_eq h.retired_size.symm)
  -- a column of some contents was theirs before, or it is new to the pool
  have hold : ∀ other ≤ c.generation, ∀ ref ∈ (pool'.schemaOf other).columns,
      ref ∈ (pool.schemaOf other).columns ∨ other = generation ∧ pool.columns.size ≤ ref := by
    intro other hother ref href
    by_cases heq : other = generation
    · subst heq
      exact (hchanges.fresh ref href).imp_right fun hnew => ⟨rfl, hnew⟩
    · rw [hothers other hother heq] at href
      exact Or.inl href
  refine ⟨?_, fun other hother => ?_, fun g hg g' hg' ref href href' => ?_⟩
  · rw [hchanges.retired_size, h.retired_size, Collection.generation_setTable]
  · rw [Collection.generation_setTable] at hother
    rw [Collection.tableOf_setTable hle hother]
    split_ifs with heq
    · exact heq ▸ hshows
    · rw [hothers other hother (Ne.symm heq)]
      have hother' := h.shows other hother
      refine hother'.of_frame fun ref href => ?_
      refine hchanges.frame ref (hother'.ref_lt href) fun hmem => ?_
      exact heq (h.apart generation hle other hother ref hmem href)
  · rw [Collection.generation_setTable] at hg hg'
    have hlt : ∀ {other}, other ≤ c.generation → ref ∈ (pool.schemaOf other).columns →
        ref < pool.columns.size := fun hother => (h.shows _ hother).ref_lt
    rcases hold g hg ref href with hmem | ⟨rfl, hnew⟩ <;>
      rcases hold g' hg' ref href' with hmem' | ⟨rfl, hnew'⟩
    · exact h.apart g hg g' hg' ref hmem hmem'
    · exact absurd (hlt hg hmem) (Nat.not_lt.mpr hnew')
    · exact absurd (hlt hg' hmem') (Nat.not_lt.mpr hnew)
    · rfl

theorem schemaOf_replaceTable (h : pool.Carries c) (table : Table) {generation : Nat}
    (hle : generation ≤ c.generation + 1) :
    (pool.replaceTable table).schemaOf generation =
      if generation ≤ c.generation then pool.schemaOf generation
      else (pool.replaceTable table).schema := by
  have hsize := h.retired_size
  show ((pool.retired.push pool.schema)[generation]?).getD _ = _
  rw [Array.getElem?_push]
  split_ifs with heq hle' hle'
  · rw [schemaOf_of_le heq.ge]
    rfl
  · omega
  · rw [schemaOf, Array.getElem?_eq_getElem (by omega)]
    rfl
  · rw [Array.getElem?_eq_none (by omega)]
    rfl

/-- A load takes in columns that no contents have. -/
theorem replaceTable (h : pool.Carries c) {table : Table}
    (hsize : table.dictionaries.size = table.schema.columns.size) :
    (pool.replaceTable table).Carries (c.replaceTable table) := by
  have hgeneration : (c.replaceTable table).generation = c.generation + 1 := Array.size_push ..
  have hnew : ∀ ref ∈ (pool.replaceTable table).schema.columns, pool.columns.size ≤ ref := by
    intro ref href
    obtain ⟨slot, -, rfl⟩ := Array.mem_map.mp href
    exact Nat.le_add_right ..
  have hretired : (pool.replaceTable table).retired.size = pool.retired.size + 1 :=
    Array.size_push ..
  refine ⟨by rw [hretired, hgeneration, h.retired_size], fun g hg => ?_,
    fun g hg g' hg' ref href href' => ?_⟩
  · rw [hgeneration] at hg
    rw [h.schemaOf_replaceTable table hg, Collection.tableOf_replaceTable hg]
    split_ifs with hold
    · have hshows := h.shows g hold
      exact hshows.of_frame fun ref href => Array.getElem?_append_left (hshows.ref_lt href)
    · exact pool.shows_replaceTable hsize
  · rw [hgeneration] at hg hg'
    rw [h.schemaOf_replaceTable table hg] at href
    rw [h.schemaOf_replaceTable table hg'] at href'
    split_ifs at href href' with hold hold' hold'
    · exact h.apart g hold g' hold' ref href href'
    · exact absurd ((h.shows g hold).ref_lt href) (Nat.not_lt.mpr (hnew ref href'))
    · exact absurd ((h.shows g' hold').ref_lt href') (Nat.not_lt.mpr (hnew ref href))
    · omega

/-- A load leaves the schemas there were, and all columns. -/
theorem load (h : pool.Carries c) (husable : c.config.fault? = none) (source : Source) :
    (pool.load c.chunkSize source).Carries (c.load source).2 ∧
      pool.Extends (pool.load c.chunkSize source) ∧
      ∀ generation ≤ c.generation,
        (pool.load c.chunkSize source).schemaOf generation = pool.schemaOf generation := by
  unfold ColumnPool.load Collection.load Collection.loadBytes
  cases source.failure with
  | some text => exact ⟨h, Extends.refl pool, fun _ _ => rfl⟩
  | none =>
    rw [h.current.view_eq]
    cases hdecode : Snapshot.decode c.chunkSize c.table.schema source.bytes with
    | error cause => exact ⟨h, Extends.refl pool, fun _ _ => rfl⟩
    | ok table =>
      have hwf := Snapshot.wellFormed_of_decode husable hdecode
      refine ⟨h.replaceTable hwf.dictionaries_size,
        extends_of_frame fun ref hlt => Array.getElem?_append_left hlt, fun generation hle => ?_⟩
      rw [h.schemaOf_replaceTable table (hle.trans (Nat.le_succ _)), if_pos hle]

end Carries

/-! ## The schemas of transactions -/

theorem pinned_step_of_ne (pool : ColumnPool) (s : Session) {op : Op} (hop : op ≠ .begin) :
    (pool.step s op).pinned = pool.pinned := by
  have hencodeAll := fun writes => (pool.encodeAll_frame writes).2.2.1
  cases op with
  | begin => exact absurd rfl hop
  | createColumn name kind =>
    show (pool.createColumn name kind).pinned = _
    unfold createColumn
    split <;> rfl
  | createIndex name source predicate =>
    show (pool.createIndex name source predicate).pinned = _
    unfold createIndex
    split <;> rfl
  | insert record =>
    show (pool.insert record).pinned = _
    unfold insert
    split_ifs
    · exact hencodeAll _
    · rfl
  | load source =>
    show (pool.load s.collection.chunkSize source).pinned = _
    unfold load
    split
    · rfl
    · split <;> rfl
  | pass id name visitor state =>
    rw [ColumnPool.step]
    split
    · dsimp only
      unfold ColumnPool.pass
      split
      · rfl
      · exact hencodeAll _
    · rfl
  | _ => rfl

theorem getElem?_pinned_step (pool : ColumnPool) (s : Session) (op : Op) {id : Nat}
    {pinned : SharedSchema} (h : pool.pinned[id]? = some pinned) :
    (pool.step s op).pinned[id]? = some pinned := by
  by_cases hop : op = .begin
  · subst hop
    exact Schema.getElem?_push_of_some h pool.schema
  · rwa [pool.pinned_step_of_ne s hop]

/-- The pool carries the contents of the session, and for each transaction it has a schema that
    means what the transaction's does and that has grown into the one of the transaction's
    contents. -/
structure Backs (pool : ColumnPool) (s : Session) : Prop extends pool.Carries s.collection where
  pinned_size : pool.pinned.size = s.transactions.size
  pinned : ∀ (id : Nat) t, s.transactions[id]? = some t → ∃ pinned, pool.pinned[id]? = some pinned ∧
    pool.view pinned = t.schema ∧ pinned.GrowsInto (pool.schemaOf t.generation)

namespace Backs

variable {s : Session}

/-- What a pass encodes in the pool is what it encodes in the contents of its transaction. -/
theorem pass (h : pool.Backs s) (hs : Reachable s) {id : Nat} {t : Transaction}
    (ht : s.transactions[id]? = some t) (name : String) {σ : Type}
    (visitor : Transaction.Visitor σ) (state : σ) :
    ∃ table, (s.step (.pass id name visitor state)).2.collection =
        s.collection.setTable t.generation table ∧
      Changes t.generation pool (pool.step s (.pass id name visitor state)) ∧
      (pool.step s (.pass id name visitor state)).Shows
        ((pool.step s (.pass id name visitor state)).schemaOf t.generation) table.schema
        table.dictionaries := by
  have hmem := Array.mem_of_getElem? ht
  have hle := hs.wellFormed.generation_le t hmem
  have hshows := h.shows t.generation hle
  obtain ⟨pinned, hpinned, hview, hgrows⟩ := h.pinned id t ht
  cases hcolumn : t.schema.column? name with
  | none =>
    refine ⟨s.collection.tableOf t.generation, ?_, ?_⟩
    · rw [Collection.setTable_tableOf]
      simp only [Session.step, ht, Transaction.pass, Transaction.column, hcolumn]
    · have hnowhere : pool.find pinned name = none := by
        rw [find_eq, hview, hcolumn]
        rfl
      have hsame : pool.step s (.pass id name visitor state) = pool := by
        simp only [ColumnPool.step, ht, hpinned, ColumnPool.pass, hnowhere]
      rw [hsame]
      exact ⟨.refl _ pool, hshows⟩
  | some found =>
    obtain ⟨slot, column⟩ := found
    have hwithin := hs.holds.within t hmem
    have hplaces := Transaction.places_passCursor hwithin hcolumn
    obtain ⟨state', ended, log, table, hpass, hrecorded, -, hwritten, hcomposes⟩ :=
      Transaction.pass_recorded (hs.holds.held _ hle) hwithin hs.wellFormed.table.chunkSize_pos
        hcolumn visitor state
    refine ⟨table, by simp only [Session.step, ht, hpass], ?_⟩
    have htarget : ∀ offset edit, (t.passCursor s.collection slot column offset).target? edit =
        (t.passCursor s.collection slot column 0).target? edit := fun _ _ => rfl
    rw [hcomposes.dictionaries_eq htarget, hwritten.schema_eq]
    simp only [ColumnPool.step, ht, hpinned, hrecorded]
    refine hshows.pass hgrows ?_ (by rw [hview]; exact hcolumn) ?_ (hplaces.column 0) _
    · split_ifs with hgen
      · rw [hgen, h.schemaOf_generation]
        exact .refl _
      · exact hgrows
    · show t.passSchema s.collection = _
      unfold Transaction.passSchema
      split_ifs with hgen
      · exact h.current.view_eq.symm
      · exact hview.symm

/-- An operation but a load works in the pool on the contents that it works on in the session. -/
theorem step_changes (h : pool.Backs s) (hs : Reachable s) {op : Op} (hop : op.isLoad = false) :
    ∃ generation ≤ s.collection.generation, ∃ table,
      (s.step op).2.collection = s.collection.setTable generation table ∧
      Changes generation pool (pool.step s op) ∧
      (pool.step s op).Shows ((pool.step s op).schemaOf generation) table.schema
        table.dictionaries := by
  -- all but the passes work on the present contents, or encode nothing
  have hcurrent : ∀ table, (s.step op).2.collection = { s.collection with table } →
      Changes pool.retired.size pool (pool.step s op) ∧
        (pool.step s op).Shows (pool.step s op).schema table.schema table.dictionaries →
      ∃ generation ≤ s.collection.generation, ∃ table,
        (s.step op).2.collection = s.collection.setTable generation table ∧
        Changes generation pool (pool.step s op) ∧
        (pool.step s op).Shows ((pool.step s op).schemaOf generation) table.schema
          table.dictionaries := by
    rintro table hset ⟨hchanges, hshows⟩
    refine ⟨s.collection.generation, le_rfl, table, ?_, ?_⟩
    · rw [Collection.setTable_of_le le_rfl]
      exact hset
    · rw [← h.retired_size, schemaOf_of_le hchanges.retired_size.le]
      exact ⟨hchanges, hshows⟩
  cases op with
  | load source => cases hop
  | createColumn name kind => exact hcurrent _ rfl (h.current.createColumn name kind)
  | createIndex name source predicate =>
    exact hcurrent _ rfl
      (h.current.createIndex hs.wellFormed.table.schema name source predicate)
  | insert record => exact hcurrent _ rfl (h.current.insert hs.wellFormed.table record)
  | begin =>
    exact hcurrent s.collection.table rfl
      ⟨.of_pinned .., h.current.of_frame fun _ _ => rfl⟩
  | deleteAt row =>
    refine hcurrent (Table.deleteAt s.collection.config row s.collection.table).2 rfl
      ⟨.refl _ pool, ?_⟩
    rw [Table.schema_deleteAt, Table.dictionaries_deleteAt]
    exact h.current
  | filter id filter =>
    refine hcurrent s.collection.table ?_ ⟨.refl _ pool, h.current⟩
    cases ht : s.transactions[id]? with
    | none => rw [Session.step_filter_of_missing ht]
    | some t => rw [Session.step_filter ht]
  | deleteAll id =>
    cases ht : s.transactions[id]? with
    | none => exact hcurrent s.collection.table (by rw [Session.step, ht]) ⟨.refl _ pool, h.current⟩
    | some t =>
      have hle := hs.wellFormed.generation_le t (Array.mem_of_getElem? ht)
      refine ⟨t.generation, hle, (t.table s.collection).deleted t.selection.toList 0, ?_,
        .refl _ pool, h.shows t.generation hle⟩
      simp only [Session.step, ht, Transaction.deleteAll, Collection.changeTable_eq]
      rfl
  | pass id name visitor state =>
    cases ht : s.transactions[id]? with
    | none =>
      have hset : (s.step (.pass id name visitor state)).2.collection = s.collection := by
        rw [Session.step, ht]
      have hsame : pool.step s (.pass id name visitor state) = pool := by
        simp only [ColumnPool.step, ht]
      refine hcurrent s.collection.table hset ?_
      rw [hsame]
      exact ⟨.refl _ pool, h.current⟩
    | some t =>
      have hle := hs.wellFormed.generation_le t (Array.mem_of_getElem? ht)
      obtain ⟨table, hset, hrest⟩ := h.pass hs ht name visitor state
      exact ⟨t.generation, hle, table, hset, hrest⟩

/-- An operation leaves the pool with the contents there are then. The columns stay, and so do the
    schemas but for what they grow by. -/
theorem step_carries (h : pool.Backs s) (hs : Reachable s) (op : Op) :
    (pool.step s op).Carries (s.step op).2.collection ∧ pool.Extends (pool.step s op) ∧
      ∀ generation ≤ s.collection.generation,
        (pool.schemaOf generation).GrowsInto ((pool.step s op).schemaOf generation) := by
  cases hop : op.isLoad with
  | false =>
    obtain ⟨generation, hle, table, hset, hchanges, hshows⟩ := h.step_changes hs hop
    rw [hset]
    refine ⟨h.changes hle hchanges hshows, hchanges.extends_, fun other hother => ?_⟩
    by_cases heq : other = generation
    · exact heq ▸ hchanges.grows
    · rw [hchanges.others other (hother.trans_eq h.retired_size.symm) heq]
      exact .refl _
  | true =>
    cases op with
    | load source =>
      obtain ⟨hcarries, hextends, hsame⟩ := h.load hs.wellFormed.table.usable source
      refine ⟨hcarries, hextends, fun generation hle => ?_⟩
      show (pool.schemaOf generation).GrowsInto
        ((pool.load s.collection.chunkSize source).schemaOf generation)
      rw [hsame generation hle]
      exact .refl _
    | _ => cases hop

theorem step (h : pool.Backs s) (hs : Reachable s) (op : Op) :
    (pool.step s op).Backs (s.step op).2 := by
  obtain ⟨hcarries, hextends, hgrows⟩ := h.step_carries hs op
  refine ⟨hcarries, ?_, fun id t' ht' => ?_⟩
  · by_cases hop : op = .begin
    · subst hop
      exact (Array.size_push ..).trans ((congrArg (· + 1) h.pinned_size).trans
        (Array.size_push ..).symm)
    · rw [pool.pinned_step_of_ne s hop, h.pinned_size, s.size_step_of_ne hop]
  · rcases Nat.lt_or_ge id s.transactions.size with hlt | hge
    · have ht := Array.getElem?_eq_getElem hlt
      obtain ⟨t₁, ht₁, hviews⟩ := s.views_step op ht
      obtain rfl : t₁ = t' := Option.some.inj (ht₁.symm.trans ht')
      obtain ⟨pinned, hpinned, hview, hgrown⟩ := h.pinned id _ ht
      have hle := hs.wellFormed.generation_le _ (Array.mem_of_getElem? ht)
      refine ⟨pinned, pool.getElem?_pinned_step s op hpinned, ?_, ?_⟩
      · have hbound : ∀ ref ∈ pinned.columns, ref < pool.columns.size := fun ref href =>
          (h.shows _ hle).ref_lt (hgrown.mem_columns href)
        rw [hextends.view_eq hbound, hview, hviews.schema]
      · rw [hviews.generation]
        exact hgrown.trans (hgrows _ hle)
    · obtain ⟨rfl, rfl, rfl⟩ := s.getElem?_step_of_le op hge ht'
      refine ⟨pool.schema, ?_, h.current.view_eq, ?_⟩
      · show (pool.pinned.push pool.schema)[s.transactions.size]? = some pool.schema
        rw [← h.pinned_size]
        exact Array.getElem?_push_size
      · show pool.schema.GrowsInto (pool.schemaOf s.collection.generation)
        rw [h.schemaOf_generation]
        exact .refl _

end Backs

end ColumnPool

/-- The pool that goes along with a session from its start. -/
inductive PoolOf : Session → ColumnPool → Prop where
  | new (capacity : Nat) : PoolOf (.start (.new capacity)) .empty
  | withConfig {config : Config} {c : Collection} (h : Collection.withConfig config = .ok c) :
    PoolOf (.start c) .empty
  | step {s : Session} {pool : ColumnPool} (h : PoolOf s pool) (op : Op) :
    PoolOf (s.step op).2 (pool.step s op)

theorem Reachable.exists_pool {s : Session} (h : Reachable s) : ∃ pool, PoolOf s pool := by
  induction h with
  | new capacity => exact ⟨.empty, .new capacity⟩
  | withConfig h => exact ⟨.empty, .withConfig h⟩
  | step h op ih =>
    obtain ⟨pool, hpool⟩ := ih
    exact ⟨_, hpool.step op⟩

theorem PoolOf.run {s : Session} {pool : ColumnPool} (h : PoolOf s pool) (ops : List Op) :
    PoolOf (s.run ops) (pool.run s ops) := by
  induction ops generalizing s pool with
  | nil => exact h
  | cons op rest ih => exact ih (h.step op)

/-- In every session the pool backs the contents and the transactions. -/
theorem PoolOf.backs {s : Session} {pool : ColumnPool} (h : PoolOf s pool) :
    Reachable s ∧ pool.Backs s := by
  induction h with
  | new capacity =>
    exact ⟨.new capacity, .empty _, rfl, by simp [Session.start]⟩
  | @withConfig config c hc =>
    obtain ⟨-, rfl⟩ := Collection.build_of_withConfig hc
    exact ⟨.withConfig hc, .empty config, rfl, by simp [Session.start]⟩
  | step h op ih => exact ⟨ih.1.step op, ih.2.step ih.1 op⟩

end ColumnStore
