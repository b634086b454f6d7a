import ColumnStore.Proofs.Column
import ColumnStore.Proofs.Schema.Registry

/-!
# Columns that schemas share

A table has one dictionary for each slot, and whoever writes a text into the slot writes it there. A
schema that has its columns by reference does not have this for free: every column has a dictionary
with it, and two schemas agree on a text only if they refer to the same column, not if one has a
copy of it. Here are schemas of this kind, over a pool of columns that is never cleared.

* `SharedSchema.GrowsInto`: the columns of the older schema are the first of the newer one, and its
  indexes stay in their slots but for predicates that they were missing;
* `ColumnPool.Extends`: whatever is encoded, the columns keep their names, kinds and slots, and
  cells that were encoded before keep their values (`Extends.decode_of_known`, `decode_encode`);
* `ColumnPool.Shows`: a schema over the pool stands for the schema of a table with its dictionaries.
  Encoding through it encodes in the table (`Shows.encodeAll`), and so does growing
  (`Shows.createColumn`, `Shows.createIndex`);
* `ColumnPool.Changes`: what growing and encoding leave as it was.
-/

namespace ColumnStore

open Chunk (dictionaryOf)

/-- A column with the slot and the dictionary that belong to it. -/
structure SharedColumn extends PlacedColumn where
  dictionary : Dictionary

instance : Inhabited SharedColumn := ⟨⟨⟨default, 0⟩, .empty⟩⟩

/-- A schema with references to its columns, by slot. Its indexes are never changed in place, so it
    may as well have them itself. -/
structure SharedSchema where
  columns : Array Nat
  indexes : Array PlacedIndex

/-- All columns there ever were, by reference, and the schemas that refer to them: the schema of the
    collection, those that were retired by loads, and those that the transactions were opened
    with. -/
structure ColumnPool where
  columns : Array SharedColumn
  schema : SharedSchema
  retired : Array SharedSchema
  pinned : Array SharedSchema

/-- The dictionaries of a table after values were encoded, each in its slot. -/
def Column.encodeAll (dictionaries : Array Dictionary)
    (writes : List (Nat × Column × Value)) : Array Dictionary :=
  writes.foldl (fun dictionaries (slot, column, value) =>
    (column.encodeAt dictionaries slot value).2) dictionaries

theorem Column.encodeAll_cons (dictionaries : Array Dictionary) (slot : Nat) (column : Column)
    (value : Value) (rest : List (Nat × Column × Value)) :
    encodeAll dictionaries ((slot, column, value) :: rest) =
      encodeAll (column.encodeAt dictionaries slot value).2 rest := rfl

/-! ## Schemas over a pool -/

/-- What is fixed about an index: its name, its source and the slots of both. -/
def PlacedIndex.label (index : PlacedIndex) : String × String × Nat × Nat :=
  (index.name, index.source, index.sourceSlot, index.slot)

namespace SharedSchema

/-- No columns and no indexes. -/
def empty : SharedSchema := ⟨#[], #[]⟩

/-- The schema with an index in its slot, which is the next one or one that is in use. -/
def withIndex (shared : SharedSchema) (index : PlacedIndex) : SharedSchema :=
  { shared with
    indexes :=
      if index.slot < shared.indexes.size then shared.indexes.modify index.slot fun _ => index
      else shared.indexes.push index }

/-- The reference in a slot that is in use. -/
def ref (shared : SharedSchema) (slot : Nat) : Nat := shared.columns[slot]?.getD 0

/-- The newer schema has the same columns as the older one, by reference, and after them others; and
    it has the same indexes in the same slots, but for predicates that they were missing. -/
structure GrowsInto (older newer : SharedSchema) : Prop where
  columns : older.columns.toList <+: newer.columns.toList
  indexes : ∀ (slot : Nat) index, older.indexes[slot]? = some index →
    ∃ index', newer.indexes[slot]? = some index' ∧ index'.slot = index.slot ∧
      index.toIndex.Grows index'.toIndex

namespace GrowsInto

variable {older newer newest : SharedSchema}

theorem refl (shared : SharedSchema) : shared.GrowsInto shared :=
  ⟨List.prefix_refl _, fun _ index h => ⟨index, h, rfl, Or.inl rfl⟩⟩

theorem trans (h : older.GrowsInto newer) (h' : newer.GrowsInto newest) :
    older.GrowsInto newest where
  columns := h.columns.trans h'.columns
  indexes slot index hindex := by
    obtain ⟨index₁, hindex₁, hslot₁, hgrows₁⟩ := h.indexes slot index hindex
    obtain ⟨index₂, hindex₂, hslot₂, hgrows₂⟩ := h'.indexes slot index₁ hindex₁
    exact ⟨index₂, hindex₂, hslot₂.trans hslot₁, hgrows₁.trans hgrows₂⟩

theorem getElem?_columns (h : older.GrowsInto newer) {slot ref : Nat}
    (hslot : older.columns[slot]? = some ref) : newer.columns[slot]? = some ref := by
  rw [← Array.getElem?_toList] at hslot ⊢
  obtain ⟨hlt, rfl⟩ := List.getElem?_eq_some_iff.mp hslot
  exact List.prefix_iff_getElem?.mp h.columns slot hlt

theorem mem_columns (h : older.GrowsInto newer) {ref : Nat} (href : ref ∈ older.columns) :
    ref ∈ newer.columns := by
  rw [← Array.mem_toList_iff] at href ⊢
  exact h.columns.subset href

theorem ref_eq (h : older.GrowsInto newer) {slot : Nat} (hslot : slot < older.columns.size) :
    newer.ref slot = older.ref slot := by
  rw [ref, ref, Array.getElem?_eq_getElem hslot,
    h.getElem?_columns (Array.getElem?_eq_getElem hslot)]

/-- The indexes of the older schema are the first of the newer one, by name, source and slots. -/
theorem labels (h : older.GrowsInto newer) :
    older.indexes.toList.map PlacedIndex.label <+: newer.indexes.toList.map PlacedIndex.label := by
  rw [List.prefix_iff_getElem?]
  intro slot hslot
  rw [List.length_map, Array.length_toList] at hslot
  obtain ⟨index', hindex', hplace, hgrows⟩ :=
    h.indexes slot _ (Array.getElem?_eq_getElem hslot)
  rw [List.getElem?_map, Array.getElem?_toList, hindex', List.getElem_map, Array.getElem_toList]
  rcases hgrows with hsame | ⟨-, predicate, hsame⟩ <;>
    simp [PlacedIndex.label, hplace, hsame, Index.attach]

end GrowsInto

theorem growsInto_pushColumn (shared : SharedSchema) (ref : Nat) :
    shared.GrowsInto { shared with columns := shared.columns.push ref } where
  columns := by
    rw [Array.toList_push]
    exact List.prefix_append ..
  indexes _ index h := ⟨index, h, rfl, Or.inl rfl⟩

/-- An index comes to the next slot, or takes the place of one that it grew out of. -/
theorem growsInto_withIndex (shared : SharedSchema) {index : PlacedIndex}
    (h : ∀ old, shared.indexes[index.slot]? = some old →
      old.slot = index.slot ∧ old.toIndex.Grows index.toIndex) :
    shared.GrowsInto (shared.withIndex index) where
  columns := List.prefix_refl _
  indexes slot old hold := by
    unfold withIndex
    dsimp only
    split_ifs with hlt
    · rw [Array.getElem?_modify, hold]
      split_ifs with heq
      · subst heq
        obtain ⟨hslot, hgrows⟩ := h old hold
        exact ⟨index, rfl, hslot.symm, hgrows⟩
      · exact ⟨old, rfl, rfl, Or.inl rfl⟩
    · exact ⟨old, Schema.getElem?_push_of_some hold index, rfl, Or.inl rfl⟩

end SharedSchema

namespace ColumnPool

/-- No columns. -/
def empty : ColumnPool := ⟨#[], .empty, #[], #[]⟩

/-- The column that a reference leads to. -/
def column (pool : ColumnPool) (ref : Nat) : SharedColumn := pool.columns[ref]?.getD default

/-- The columns and indexes of a schema over the pool. -/
def view (pool : ColumnPool) (shared : SharedSchema) : Schema :=
  ⟨shared.columns.map fun ref => (pool.column ref).toColumn,
    shared.indexes.map PlacedIndex.toIndex⟩

/-- The schema of the contents of a generation. -/
def schemaOf (pool : ColumnPool) (generation : Nat) : SharedSchema :=
  pool.retired[generation]?.getD pool.schema

/-- The column of a name, by reference. -/
def find (pool : ColumnPool) (shared : SharedSchema) (name : String) : Option Nat :=
  ((pool.view shared).columnSlot? name).bind fun slot => shared.columns[slot]?

/-- The cell that stores a value, and the pool then: a text that is new to the column gets an id in
    its dictionary (`encode`). -/
def encode (pool : ColumnPool) (ref : Nat) (value : Value) :
    Except Error (Option Cell) × ColumnPool :=
  let column := pool.column ref
  let (cell, dictionary) := column.encode column.dictionary value
  (cell, { pool with columns := pool.columns.setIfInBounds ref { column with dictionary } })

/-- The pool after values were encoded, each for its column. -/
def encodeAll (pool : ColumnPool) (writes : List (Nat × Value)) : ColumnPool :=
  writes.foldl (fun pool (ref, value) => (pool.encode ref value).2) pool

/-- The value that a cell of a column stores (`decode`). -/
def decode (pool : ColumnPool) (ref : Nat) (cell : Cell) : Value :=
  Column.decode (pool.column ref).dictionary cell

/-- Adds a column, with no texts yet, to the schema of the collection (`create_column`). -/
def createColumn (name : String) (kind : Kind) (pool : ColumnPool) : ColumnPool :=
  match (pool.view pool.schema).addColumn ⟨name, kind⟩ with
  | .error _ => pool
  | .ok _ =>
    { pool with
      columns := pool.columns.push ⟨⟨⟨name, kind⟩, pool.schema.columns.size⟩, .empty⟩
      schema :=
        { pool.schema with columns := pool.schema.columns.push pool.columns.size } }

/-- Adds an index to the schema of the collection, or attaches a predicate to one
    (`create_index`). -/
def createIndex (name source : String) (predicate : Value → Bool) (pool : ColumnPool) :
    ColumnPool :=
  match Table.registerIndex (pool.view pool.schema) name source predicate with
  | .error _ => pool
  | .ok (_, slot, index) => { pool with schema := pool.schema.withIndex ⟨index, slot⟩ }

/-- Retires the schema of the collection for that of contents that were read, whose columns are new
    to the pool. -/
def replaceTable (pool : ColumnPool) (table : Table) : ColumnPool :=
  { pool with
    columns := pool.columns ++ table.schema.columns.mapIdx fun slot column =>
      ⟨⟨column, slot⟩, table.dictionary slot⟩
    schema :=
      ⟨(Array.range table.schema.columns.size).map (pool.columns.size + ·),
        table.schema.indexes.mapIdx fun slot index => ⟨index, slot⟩⟩
    retired := pool.retired.push pool.schema }

variable {pool pool' pool'' : ColumnPool} {shared : SharedSchema}

theorem column_of_getElem? {ref : Nat} {column : SharedColumn}
    (h : pool.columns[ref]? = some column) : pool.column ref = column := by
  rw [ColumnPool.column, h, Option.getD_some]

theorem schemaOf_of_le {generation : Nat} (h : pool.retired.size ≤ generation) :
    pool.schemaOf generation = pool.schema := by
  rw [schemaOf, Array.getElem?_eq_none h, Option.getD_none]

theorem getElem?_view_columns (pool : ColumnPool) (shared : SharedSchema) (slot : Nat) :
    (pool.view shared).columns[slot]? =
      shared.columns[slot]?.map fun ref => (pool.column ref).toColumn := Array.getElem?_map ..

theorem getElem?_view_indexes (pool : ColumnPool) (shared : SharedSchema) (slot : Nat) :
    (pool.view shared).indexes[slot]? = shared.indexes[slot]?.map PlacedIndex.toIndex :=
  Array.getElem?_map ..

/-- A name is found in the slot that the schema has it in. -/
theorem find_eq (pool : ColumnPool) (shared : SharedSchema) (name : String) :
    pool.find shared name =
      ((pool.view shared).column? name).map fun found => shared.ref found.1 := by
  unfold find Schema.column?
  cases (pool.view shared).columnSlot? name with
  | none => rfl
  | some slot =>
    simp only [SharedSchema.ref, Option.bind_eq_bind, Option.bind_some, getElem?_view_columns]
    cases href : shared.columns[slot]? <;> simp [href]

/-- The column that an older schema has for a name is the one in that slot of a newer schema. -/
theorem find_of_growsInto {older newer : SharedSchema} (h : older.GrowsInto newer)
    (pool : ColumnPool) (name : String) :
    pool.find older name =
      ((pool.view older).column? name).map fun found => newer.ref found.1 := by
  rw [find_eq]
  cases hfound : (pool.view older).column? name with
  | none => rfl
  | some found =>
    have hcolumn := (Schema.exists_of_column? hfound).1
    rw [getElem?_view_columns] at hcolumn
    obtain ⟨ref, href, -⟩ := Option.map_eq_some_iff.mp hcolumn
    have hlt := (Array.getElem?_eq_some_iff.mp href).1
    rw [Option.map_some, Option.map_some, h.ref_eq hlt]

/-- A schema that grew has the older one's columns and indexes in their slots. -/
theorem extends_view {older newer : SharedSchema} (h : older.GrowsInto newer) (pool : ColumnPool) :
    (pool.view older).Extends (pool.view newer) where
  columns slot column hcolumn := by
    rw [getElem?_view_columns] at hcolumn ⊢
    obtain ⟨ref, href, rfl⟩ := Option.map_eq_some_iff.mp hcolumn
    rw [h.getElem?_columns href, Option.map_some]
  indexes slot index hindex := by
    rw [getElem?_view_indexes] at hindex
    obtain ⟨placed, hplaced, rfl⟩ := Option.map_eq_some_iff.mp hindex
    obtain ⟨placed', hplaced', -, hgrows⟩ := h.indexes slot placed hplaced
    refine ⟨placed'.toIndex, ?_, hgrows⟩
    rw [getElem?_view_indexes, hplaced', Option.map_some]

/-! ## What stays of the columns -/

/-- Every column is where it was, with its name, kind and slot, and its dictionary keeps its ids. -/
structure Extends (pool pool' : ColumnPool) : Prop where
  column : ∀ (ref : Nat) column, pool.columns[ref]? = some column →
    ∃ column', pool'.columns[ref]? = some column' ∧
      column'.toPlacedColumn = column.toPlacedColumn ∧
      column.dictionary.Extends column'.dictionary

theorem Extends.refl (pool : ColumnPool) : pool.Extends pool :=
  ⟨fun _ column h => ⟨column, h, rfl, Dictionary.Extends.refl _⟩⟩

theorem Extends.trans (h : pool.Extends pool') (h' : pool'.Extends pool'') :
    pool.Extends pool'' where
  column ref column hcolumn := by
    obtain ⟨column₁, hcolumn₁, hplaced₁, hdictionary₁⟩ := h.column ref column hcolumn
    obtain ⟨column₂, hcolumn₂, hplaced₂, hdictionary₂⟩ := h'.column ref column₁ hcolumn₁
    exact ⟨column₂, hcolumn₂, hplaced₂.trans hplaced₁, hdictionary₁.trans hdictionary₂⟩

/-- A schema means the same as long as its columns are where they were. -/
theorem Extends.view_eq (h : pool.Extends pool')
    (hbound : ∀ ref ∈ shared.columns, ref < pool.columns.size) :
    pool'.view shared = pool.view shared := by
  rw [view, view]
  congr 1
  refine Array.map_congr_left fun ref href => ?_
  obtain ⟨column, hcolumn, hplaced, -⟩ :=
    h.column ref _ (Array.getElem?_eq_getElem (hbound ref href))
  rw [column_of_getElem? hcolumn, column_of_getElem? (Array.getElem?_eq_getElem (hbound ref href))]
  exact congrArg PlacedColumn.toColumn hplaced

/-- A cell that the column knows keeps its value. -/
theorem Extends.decode_of_known (h : pool.Extends pool') {ref : Nat} {cell : Cell}
    (hbound : ref < pool.columns.size) (hcell : cell.Known (pool.column ref).dictionary) :
    pool'.decode ref cell = pool.decode ref cell := by
  have hcolumn := Array.getElem?_eq_getElem hbound
  obtain ⟨column', hcolumn', -, hdictionary⟩ := h.column ref _ hcolumn
  rw [column_of_getElem? hcolumn] at hcell
  rw [decode, decode, column_of_getElem? hcolumn, column_of_getElem? hcolumn']
  exact Column.decode_of_extends hdictionary hcell

/-- The same by the dictionary that the column had. -/
theorem Extends.decode_of_getElem? (h : pool.Extends pool') {ref : Nat} {column : SharedColumn}
    {cell : Cell} (hcolumn : pool.columns[ref]? = some column)
    (hcell : cell.Known column.dictionary) :
    pool'.decode ref cell = Column.decode column.dictionary cell := by
  rw [h.decode_of_known (Array.getElem?_eq_some_iff.mp hcolumn).1
      ((column_of_getElem? hcolumn).symm ▸ hcell), decode, column_of_getElem? hcolumn]

theorem extends_of_frame
    (h : ∀ ref < pool.columns.size, pool'.columns[ref]? = pool.columns[ref]?) :
    pool.Extends pool' where
  column ref column hcolumn := by
    have hlt := (Array.getElem?_eq_some_iff.mp hcolumn).1
    exact ⟨column, (h ref hlt).trans hcolumn, rfl, Dictionary.Extends.refl _⟩

/-! ## Encoding -/

theorem getElem?_encode (pool : ColumnPool) (ref : Nat) (value : Value) (other : Nat) :
    (pool.encode ref value).2.columns[other]? =
      if ref = other then pool.columns[other]?.map fun column =>
        { column with dictionary := (column.encode column.dictionary value).2 }
      else pool.columns[other]? := by
  show (pool.columns.setIfInBounds ref _)[other]? = _
  rw [Array.getElem?_setIfInBounds]
  split_ifs with heq hlt
  · subst heq
    rw [column_of_getElem? (Array.getElem?_eq_getElem hlt), Array.getElem?_eq_getElem hlt]
    rfl
  · rw [← heq, Array.getElem?_eq_none (Nat.le_of_not_lt hlt)]
    rfl
  · rfl

theorem extends_encode (pool : ColumnPool) (ref : Nat) (value : Value) :
    pool.Extends (pool.encode ref value).2 where
  column other column hcolumn := by
    rw [getElem?_encode, hcolumn]
    split_ifs
    · exact ⟨_, rfl, rfl, column.extends_encode column.dictionary value⟩
    · exact ⟨column, rfl, rfl, Dictionary.Extends.refl _⟩

theorem extends_encodeAll (pool : ColumnPool) (writes : List (Nat × Value)) :
    pool.Extends (pool.encodeAll writes) := by
  induction writes generalizing pool with
  | nil => exact Extends.refl pool
  | cons write rest ih => exact (pool.extends_encode write.1 write.2).trans (ih _)

/-- What was encoded for a column decodes to the value that was meant, and always will. -/
theorem decode_encode {ref : Nat} (href : ref < pool.columns.size) {value : Value} {cell : Cell}
    (hcell : (pool.encode ref value).1 = .ok (some cell))
    (hext : (pool.encode ref value).2.Extends pool') : pool'.decode ref cell = value := by
  obtain ⟨column, hcolumn⟩ : ∃ column, pool.columns[ref]? = some column :=
    ⟨_, Array.getElem?_eq_getElem href⟩
  have hthere : (pool.encode ref value).2.columns[ref]? =
      some { column with dictionary := (column.encode column.dictionary value).2 } := by
    rw [getElem?_encode, if_pos rfl, hcolumn]
    rfl
  have hanswer : (column.encode column.dictionary value).1 = .ok (some cell) := by
    rw [← hcell, ← column_of_getElem? hcolumn]
    rfl
  cases haccepts : column.kind.accepts value with
  | false =>
    rw [Column.encode_of_not_accepts haccepts] at hanswer
    cases hanswer
  | true =>
    obtain ⟨stored, dictionary, hencode, hspec⟩ :=
      Column.encode_of_accepts haccepts column.dictionary
    rw [hencode] at hanswer hthere
    obtain rfl : stored = some cell := Except.ok.inj hanswer
    have hknown : cell.Known ((pool.encode ref value).2.column ref).dictionary := by
      rw [column_of_getElem? hthere]
      exact hspec.known cell rfl
    rw [hext.decode_of_known (Array.getElem?_eq_some_iff.mp hthere).1 hknown, decode,
      column_of_getElem? hthere]
    exact (Value.present?_eq_some_iff.mp hspec.value.symm).1

/-- Encoding leaves the schemas, and every column that no value is for. -/
theorem encodeAll_frame (pool : ColumnPool) (writes : List (Nat × Value)) :
    (pool.encodeAll writes).schema = pool.schema ∧
      (pool.encodeAll writes).retired = pool.retired ∧
      (pool.encodeAll writes).pinned = pool.pinned ∧
      ∀ ref, (∀ write ∈ writes, write.1 ≠ ref) →
        (pool.encodeAll writes).columns[ref]? = pool.columns[ref]? := by
  induction writes generalizing pool with
  | nil => exact ⟨rfl, rfl, rfl, fun _ _ => rfl⟩
  | cons write rest ih =>
    obtain ⟨hschema, hretired, hpinned, hframe⟩ := ih (pool.encode write.1 write.2).2
    refine ⟨hschema, hretired, hpinned, fun ref href => ?_⟩
    rw [List.forall_mem_cons] at href
    refine (hframe ref href.2).trans ?_
    rw [getElem?_encode, if_neg href.1]

/-! ## Schemas that stand for those of tables -/

/-- The columns of a schema over the pool are those of a table, each in the slot that belongs to it
    and with the dictionary that the table has there; and so are the indexes. -/
structure Shows (pool : ColumnPool) (shared : SharedSchema) (schema : Schema)
    (dictionaries : Array Dictionary) : Prop where
  columns_size : shared.columns.size = schema.columns.size
  dictionaries_size : dictionaries.size = schema.columns.size
  column : ∀ (slot : Nat) column, schema.columns[slot]? = some column →
    ∃ ref, shared.columns[slot]? = some ref ∧
      pool.columns[ref]? = some ⟨⟨column, slot⟩, dictionaryOf dictionaries slot⟩
  indexes : shared.indexes = schema.indexes.mapIdx fun slot index => ⟨index, slot⟩

theorem shows_empty : empty.Shows .empty .empty #[] where
  columns_size := rfl
  dictionaries_size := rfl
  column slot column h := by simp [Schema.empty] at h
  indexes := rfl

namespace Shows

variable {schema : Schema} {dictionaries : Array Dictionary}

/-- A column of the schema over the pool, by its slot. -/
theorem getElem?_columns (h : pool.Shows shared schema dictionaries) {slot ref : Nat}
    (href : shared.columns[slot]? = some ref) :
    ∃ column, schema.columns[slot]? = some column ∧
      pool.columns[ref]? = some ⟨⟨column, slot⟩, dictionaryOf dictionaries slot⟩ := by
  have hlt : slot < schema.columns.size := by
    rw [← h.columns_size]
    exact (Array.getElem?_eq_some_iff.mp href).1
  obtain ⟨ref', href', hcolumn⟩ := h.column slot _ (Array.getElem?_eq_getElem hlt)
  obtain rfl : ref' = ref := Option.some.inj (href'.symm.trans href)
  exact ⟨_, Array.getElem?_eq_getElem hlt, hcolumn⟩

theorem ref_lt (h : pool.Shows shared schema dictionaries) {ref : Nat}
    (href : ref ∈ shared.columns) : ref < pool.columns.size := by
  obtain ⟨slot, hslot⟩ := Array.mem_iff_getElem?.mp href
  obtain ⟨column, -, hcolumn⟩ := h.getElem?_columns hslot
  exact (Array.getElem?_eq_some_iff.mp hcolumn).1

/-- The slot of a column is written on it, so no two slots refer to the same column. -/
theorem slot_eq (h : pool.Shows shared schema dictionaries) {slot slot' ref : Nat}
    (href : shared.columns[slot]? = some ref) (href' : shared.columns[slot']? = some ref) :
    slot = slot' := by
  obtain ⟨column, -, hcolumn⟩ := h.getElem?_columns href
  obtain ⟨column', -, hcolumn'⟩ := h.getElem?_columns href'
  exact congrArg (fun column : SharedColumn => column.slot)
    (Option.some.inj (hcolumn.symm.trans hcolumn'))

theorem view_eq (h : pool.Shows shared schema dictionaries) : pool.view shared = schema := by
  have hcolumns : (pool.view shared).columns = schema.columns := by
    apply Array.ext_getElem?
    intro slot
    rw [getElem?_view_columns]
    rcases Nat.lt_or_ge slot schema.columns.size with hlt | hle
    · obtain ⟨ref, href, hcolumn⟩ := h.column slot _ (Array.getElem?_eq_getElem hlt)
      rw [href, Option.map_some, column_of_getElem? hcolumn, Array.getElem?_eq_getElem hlt]
    · rw [Array.getElem?_eq_none hle, Array.getElem?_eq_none (h.columns_size.trans_le hle)]
      rfl
  have hindexes : (pool.view shared).indexes = schema.indexes := by
    apply Array.ext_getElem?
    intro slot
    rw [getElem?_view_indexes, h.indexes, Array.getElem?_mapIdx, Option.map_map]
    exact Option.map_id'
  rw [show pool.view shared = ⟨(pool.view shared).columns, (pool.view shared).indexes⟩ from rfl,
    hcolumns, hindexes]

/-- A schema goes on standing for what it does as long as its columns are as they were. -/
theorem of_frame (h : pool.Shows shared schema dictionaries)
    (hframe : ∀ ref ∈ shared.columns, pool'.columns[ref]? = pool.columns[ref]?) :
    pool'.Shows shared schema dictionaries where
  columns_size := h.columns_size
  dictionaries_size := h.dictionaries_size
  column slot column hcolumn := by
    obtain ⟨ref, href, hfound⟩ := h.column slot column hcolumn
    exact ⟨ref, href, (hframe ref (Array.mem_of_getElem? href)).trans hfound⟩
  indexes := h.indexes

/-- The reference in the slot of a column of the table. -/
theorem getElem?_ref (h : pool.Shows shared schema dictionaries) {slot : Nat} {column : Column}
    (hcolumn : schema.columns[slot]? = some column) :
    shared.columns[slot]? = some (shared.ref slot) ∧
      pool.columns[shared.ref slot]? = some ⟨⟨column, slot⟩, dictionaryOf dictionaries slot⟩ := by
  obtain ⟨ref, href, hfound⟩ := h.column slot column hcolumn
  rw [SharedSchema.ref, href, Option.getD_some]
  exact ⟨rfl, hfound⟩

/-- Encoding through a schema is encoding in the table that it stands for. -/
theorem encode (h : pool.Shows shared schema dictionaries) {slot : Nat} {column : Column}
    (hcolumn : schema.columns[slot]? = some column) (value : Value) :
    (pool.encode (shared.ref slot) value).1 = (column.encodeAt dictionaries slot value).1 ∧
      (pool.encode (shared.ref slot) value).2.Shows shared schema
        (column.encodeAt dictionaries slot value).2 := by
  obtain ⟨href, hfound⟩ := h.getElem?_ref hcolumn
  have hlt : slot < dictionaries.size := by
    rw [h.dictionaries_size]
    exact (Array.getElem?_eq_some_iff.mp hcolumn).1
  have hdictionary := Column.dictionaryOf_of_lt hlt
  rw [Column.encodeAt_of_lt column hlt]
  refine ⟨?_, h.columns_size, (Array.size_set hlt).trans h.dictionaries_size, ?_, h.indexes⟩
  · show ((pool.column (shared.ref slot)).encode (pool.column (shared.ref slot)).dictionary
      value).1 = _
    rw [column_of_getElem? hfound]
    exact congrArg (fun d => (column.encode d value).1) hdictionary
  · intro other column' hcolumn'
    obtain ⟨ref', hother, hfound'⟩ := h.column other column' hcolumn'
    refine ⟨ref', hother, ?_⟩
    rw [getElem?_encode, hfound', Column.dictionaryOf_set hlt]
    -- a column for another slot has another reference
    by_cases heq : slot = other
    · subst heq
      obtain rfl : ref' = shared.ref slot := Option.some.inj (hother.symm.trans href)
      obtain rfl : column' = column := Option.some.inj (hcolumn'.symm.trans hcolumn)
      simp [hdictionary]
    · have hne : shared.ref slot ≠ ref' := fun hsame => heq (h.slot_eq href (hsame ▸ hother))
      rw [if_neg hne, if_neg heq]

theorem encodeAll (h : pool.Shows shared schema dictionaries) {writes : List (Nat × Column × Value)}
    (hwrites : ∀ write ∈ writes, schema.columns[write.1]? = some write.2.1) :
    (pool.encodeAll (writes.map fun write => (shared.ref write.1, write.2.2))).Shows shared schema
      (Column.encodeAll dictionaries writes) := by
  induction writes generalizing pool dictionaries with
  | nil => exact h
  | cons write rest ih =>
    rw [List.forall_mem_cons] at hwrites
    exact ih (h.encode hwrites.1 write.2.2).2 hwrites.2

end Shows

/-! ## What growing and encoding leave -/

/-- What an operation on the contents of a generation makes of a pool. The schema of these contents
    may have grown, by columns that are new to the pool, and their columns may have got texts; all
    else is as it was. -/
structure Changes (generation : Nat) (pool pool' : ColumnPool) : Prop where
  retired_size : pool'.retired.size = pool.retired.size
  extends_ : pool.Extends pool'
  grows : (pool.schemaOf generation).GrowsInto (pool'.schemaOf generation)
  others : ∀ other ≤ pool.retired.size, other ≠ generation →
    pool'.schemaOf other = pool.schemaOf other
  fresh : ∀ ref ∈ (pool'.schemaOf generation).columns,
    ref ∈ (pool.schemaOf generation).columns ∨ pool.columns.size ≤ ref
  frame : ∀ ref < pool.columns.size, ref ∉ (pool.schemaOf generation).columns →
    pool'.columns[ref]? = pool.columns[ref]?

/-- The transactions have no part in this. -/
theorem Changes.of_pinned (generation : Nat) (pool : ColumnPool) (pinned : Array SharedSchema) :
    Changes generation pool { pool with pinned } where
  retired_size := rfl
  extends_ := extends_of_frame fun _ _ => rfl
  grows := .refl _
  others _ _ _ := rfl
  fresh _ href := Or.inl href
  frame _ _ _ := rfl

theorem Changes.refl (generation : Nat) (pool : ColumnPool) : Changes generation pool pool :=
  of_pinned generation pool pool.pinned

theorem schemaOf_encodeAll (pool : ColumnPool) (writes : List (Nat × Value)) (generation : Nat) :
    (pool.encodeAll writes).schemaOf generation = pool.schemaOf generation := by
  obtain ⟨hschema, hretired, -, -⟩ := pool.encodeAll_frame writes
  rw [schemaOf, schemaOf, hschema, hretired]

/-- Encoding for columns of one schema changes the columns of this schema only. -/
theorem changes_encodeAll (pool : ColumnPool) {generation : Nat} {writes : List (Nat × Value)}
    (h : ∀ write ∈ writes, write.1 ∈ (pool.schemaOf generation).columns) :
    Changes generation pool (pool.encodeAll writes) := by
  obtain ⟨-, hretired, -, hframe⟩ := pool.encodeAll_frame writes
  have hsame := pool.schemaOf_encodeAll writes
  refine ⟨congrArg Array.size hretired, pool.extends_encodeAll writes, ?_,
    fun other _ _ => hsame other, fun ref href => ?_, fun ref _ href => ?_⟩
  · rw [hsame]
    exact .refl _
  · rw [hsame] at href
    exact Or.inl href
  · exact hframe ref fun write hwrite heq => href (heq ▸ h write hwrite)

/-- Encoding through the schema of a generation. -/
theorem Shows.changes_encodeAll {generation : Nat} {schema : Schema}
    {dictionaries : Array Dictionary}
    (h : pool.Shows (pool.schemaOf generation) schema dictionaries)
    {writes : List (Nat × Column × Value)}
    (hwrites : ∀ write ∈ writes, schema.columns[write.1]? = some write.2.1)
    {encoded : List (Nat × Value)}
    (hencoded : encoded =
      writes.map fun write => ((pool.schemaOf generation).ref write.1, write.2.2)) :
    Changes generation pool (pool.encodeAll encoded) ∧
      (pool.encodeAll encoded).Shows ((pool.encodeAll encoded).schemaOf generation) schema
        (Column.encodeAll dictionaries writes) := by
  subst hencoded
  refine ⟨pool.changes_encodeAll fun write hwrite => ?_, ?_⟩
  · obtain ⟨field, hfield, rfl⟩ := List.mem_map.mp hwrite
    exact Array.mem_of_getElem? (h.getElem?_ref (hwrites field hfield)).1
  · rw [schemaOf_encodeAll]
    exact h.encodeAll hwrites

/-- The schema of the collection grows over the columns there are and new ones. -/
theorem changes_of_schema {columns : Array SharedColumn} {grown : SharedSchema}
    (hcolumns : ∀ ref < pool.columns.size, columns[ref]? = pool.columns[ref]?)
    (hgrows : pool.schema.GrowsInto grown)
    (hfresh : ∀ ref ∈ grown.columns, ref ∈ pool.schema.columns ∨ pool.columns.size ≤ ref) :
    Changes pool.retired.size pool { pool with columns, schema := grown } where
  retired_size := rfl
  extends_ := extends_of_frame hcolumns
  grows := by
    rw [schemaOf_of_le le_rfl, schemaOf_of_le le_rfl]
    exact hgrows
  others other hle hne := by
    rw [schemaOf, schemaOf, Array.getElem?_eq_getElem (Nat.lt_of_le_of_ne hle hne)]
    rfl
  fresh := by
    rw [schemaOf_of_le le_rfl, schemaOf_of_le le_rfl]
    exact hfresh
  frame ref hlt _ := hcolumns ref hlt

namespace Shows

variable {table : Table}

/-- A column that is new to the pool comes to the next slot. -/
theorem pushColumn (h : pool.Shows shared table.schema table.dictionaries) (column : Column)
    (hpool : pool'.columns = pool.columns.push ⟨⟨column, shared.columns.size⟩, .empty⟩) :
    pool'.Shows { shared with columns := shared.columns.push pool.columns.size }
      (table.withColumn column).schema (table.withColumn column).dictionaries where
  columns_size := by simp [Table.withColumn, h.columns_size]
  dictionaries_size := by simp [Table.withColumn, h.dictionaries_size]
  column slot found hfound := by
    simp only [Table.withColumn, Array.getElem?_push] at hfound
    simp only [Table.withColumn, Table.dictionaryOf_push, hpool, Array.getElem?_push,
      h.columns_size]
    split_ifs at hfound with hslot
    · -- there was no dictionary in the next slot, which is as if there had been an empty one
      cases hfound
      subst hslot
      refine ⟨pool.columns.size, if_pos rfl, ?_⟩
      rw [if_pos rfl, dictionaryOf, Array.getElem?_eq_none h.dictionaries_size.le]
      rfl
    · obtain ⟨ref, href, hcolumn⟩ := h.column slot found hfound
      have hlt := (Array.getElem?_eq_some_iff.mp hcolumn).1
      exact ⟨ref, by rw [if_neg hslot, href], by rw [if_neg (Nat.ne_of_lt hlt), hcolumn]⟩
  indexes := h.indexes

/-- An index comes to the next slot, or takes the place of one that it grew out of. -/
theorem withIndex {schema schema' : Schema} {dictionaries : Array Dictionary}
    (h : pool.Shows shared schema dictionaries) (hcolumns : schema'.columns = schema.columns)
    (hext : schema.Extends schema') {slot : Nat} {index : Index}
    (hslot : slot ≤ schema.indexes.size) (hindex : schema'.indexes[slot]? = some index)
    (hothers : ∀ other, other ≠ slot → schema'.indexes[other]? = schema.indexes[other]?) :
    shared.GrowsInto (shared.withIndex ⟨index, slot⟩) ∧
      pool.Shows (shared.withIndex ⟨index, slot⟩) schema' dictionaries := by
  have hplaced : ∀ other : Nat, shared.indexes[other]? =
      schema.indexes[other]?.map fun index => ⟨index, other⟩ := fun other => by
    rw [h.indexes, Array.getElem?_mapIdx]
  have hsize : shared.indexes.size = schema.indexes.size := by rw [h.indexes, Array.size_mapIdx]
  refine ⟨shared.growsInto_withIndex fun old hold => ?_, ?_, ?_, ?_, ?_⟩
  · rw [hplaced] at hold
    obtain ⟨found, hfound, rfl⟩ := Option.map_eq_some_iff.mp hold
    obtain ⟨index', hindex', hgrows⟩ := hext.indexes slot found hfound
    obtain rfl : index' = index := Option.some.inj (hindex'.symm.trans hindex)
    exact ⟨rfl, hgrows⟩
  · rw [hcolumns]
    exact h.columns_size
  · rw [hcolumns]
    exact h.dictionaries_size
  · rw [hcolumns]
    exact h.column
  · apply Array.ext_getElem?
    intro other
    rw [Array.getElem?_mapIdx]
    by_cases heq : other = slot
    · subst heq
      rw [hindex, SharedSchema.withIndex]
      dsimp only
      split_ifs with hlt
      · rw [Array.getElem?_modify, if_pos rfl, Array.getElem?_eq_getElem hlt]
        rfl
      · rw [Array.getElem?_push, if_pos (by omega)]
        rfl
    · rw [hothers other heq, ← hplaced, SharedSchema.withIndex]
      dsimp only
      split_ifs with hlt
      · rw [Array.getElem?_modify, if_neg (Ne.symm heq)]
      · rw [Array.getElem?_push, if_neg (by omega)]

/-- Adding a column adds it to the table that the schema of the collection stands for. -/
theorem createColumn (h : pool.Shows pool.schema table.schema table.dictionaries) (name : String)
    (kind : Kind) :
    Changes pool.retired.size pool (pool.createColumn name kind) ∧
      (pool.createColumn name kind).Shows (pool.createColumn name kind).schema
        (Table.createColumn name kind table).2.schema
        (Table.createColumn name kind table).2.dictionaries := by
  unfold ColumnPool.createColumn
  rw [h.view_eq]
  cases htaken : table.schema.isTaken name with
  | true =>
    rw [Table.createColumn_of_taken htaken, Schema.addColumn, if_pos htaken]
    exact ⟨.refl _ pool, h⟩
  | false =>
    rw [Table.createColumn_of_free htaken, Schema.addColumn_of_free htaken]
    refine ⟨changes_of_schema (fun ref hlt => ?_) (SharedSchema.growsInto_pushColumn ..)
      fun ref href => ?_, h.pushColumn ⟨name, kind⟩ rfl⟩
    · rw [Array.getElem?_push, if_neg (Nat.ne_of_lt hlt)]
    · rcases Array.mem_push.mp href with hold | rfl
      · exact Or.inl hold
      · exact Or.inr le_rfl

/-- Adding an index, or a predicate to one, adds it in the table that the schema of the collection
    stands for. -/
theorem createIndex (h : pool.Shows pool.schema table.schema table.dictionaries)
    (hwf : table.schema.WellFormed) (name source : String) (predicate : Value → Bool) :
    Changes pool.retired.size pool (pool.createIndex name source predicate) ∧
      (pool.createIndex name source predicate).Shows
        (pool.createIndex name source predicate).schema
        (Table.createIndex name source predicate table).2.schema
        (Table.createIndex name source predicate table).2.dictionaries := by
  unfold ColumnPool.createIndex
  rw [h.view_eq]
  cases hregister : Table.registerIndex table.schema name source predicate with
  | error e =>
    rw [Table.createIndex_of_error hregister]
    exact ⟨.refl _ pool, h⟩
  | ok result =>
    obtain ⟨schema', slot, index⟩ := result
    rw [Table.createIndex_of_ok hregister]
    have hregisters := Table.registers_of_ok hwf hregister
    have hslot : slot ≤ table.schema.indexes.size := by
      rcases Table.registerIndex_cases hregister with ⟨_, _, -, -, -, rfl, -⟩ | ⟨old, hold, -⟩
      · exact le_rfl
      · exact (Array.getElem?_eq_some_iff.mp hold).1.le
    obtain ⟨hgrows, hshows⟩ := h.withIndex hregisters.columns_eq hregisters.extends_ hslot
      hregisters.registered hregisters.others
    exact ⟨changes_of_schema (fun _ _ => rfl) hgrows fun _ href => Or.inl href,
      hshows.of_frame fun _ _ => rfl⟩

end Shows

/-- After a load the schema of the collection stands for what was read. -/
theorem shows_replaceTable (pool : ColumnPool) {table : Table}
    (hsize : table.dictionaries.size = table.schema.columns.size) :
    (pool.replaceTable table).Shows (pool.replaceTable table).schema table.schema
      table.dictionaries where
  columns_size := by simp [replaceTable]
  dictionaries_size := hsize
  column slot column hcolumn := by
    have hlt := (Array.getElem?_eq_some_iff.mp hcolumn).1
    refine ⟨pool.columns.size + slot, by simp [replaceTable, hlt], ?_⟩
    rw [replaceTable, Array.getElem?_append_right (Nat.le_add_right ..), Nat.add_sub_cancel_left,
      Array.getElem?_mapIdx, hcolumn]
    rfl
  indexes := rfl

end ColumnPool

end ColumnStore
