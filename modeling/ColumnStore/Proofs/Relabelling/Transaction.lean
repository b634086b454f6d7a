import ColumnStore.Proofs.Relabelling.Table
import ColumnStore.Proofs.Session.Generations
import ColumnStore.Proofs.Snapshot.Registered

/-!
# Transactions up to the order of slots

Two transactions with the same selection, opened under schemas that differ in their slots only, work
on tables that differ in the same way (`Transaction.Relabelled`). Filters keep the same rows
(`apply`), passes visit them with the same outcome (`pass`), deletions take the same rows
(`deleteAll`), and all that can be read through the two is the same (`readsAlike`).

Each generation of a collection has slots of its own: `Collection.Relabelled` gives every generation
its relabelling.
-/

namespace ColumnStore

/-! ## Visits -/

/-- Dictionaries with a chunk, or with all chunks, in other slots. -/
def Stored (r : Relabelling) {α : Type} (R : α → α → Prop)
    (stored stored' : Array Dictionary × α) : Prop :=
  Moved r.column stored.1 stored'.1 ∧ R stored.2 stored'.2

namespace Cursor

variable {r : Relabelling} {schema schema' : Schema} {dictionaries dictionaries' : Array Dictionary}
  {chunk chunk' : Chunk} {α : Type}

theorem write_relabelled (hs : Schema.Relabelled r schema schema')
    (hd : Moved r.column dictionaries dictionaries') (h : Chunk.Relabelled r chunk chunk')
    (own slot offset : ℕ) (current column : Column) (value : Value) :
    Alike (Stored r (Chunk.Relabelled r))
      ((Cursor.mk schema own current offset).write slot column value dictionaries chunk)
      ((Cursor.mk schema' (r.column own) current offset).write (r.column slot) column value
        dictionaries' chunk') := by
  obtain ⟨cell, next, next', hencode, hencode', hnext⟩ :=
    (Table.encodeAt_moved hd column slot value).exists_eq
  simp only [Cursor.write, hencode, hencode']
  cases cell with
  | error e => exact ⟨rfl, hnext, h⟩
  | ok cell =>
    obtain ⟨written, last, last', hupdate, hupdate', hlast⟩ :=
      (h.update hs hnext offset slot column cell).exists_eq
    simp only [hupdate, hupdate']
    exact ⟨rfl, hnext, hlast⟩

/-- A visit has no way to tell the slots. -/
theorem run_relabelled (hs : Schema.Relabelled r schema schema')
    (hd : Moved r.column dictionaries dictionaries') (h : Chunk.Relabelled r chunk chunk')
    (own offset : ℕ) (current : Column) (visit : Visit α) :
    Alike (Stored r (Chunk.Relabelled r))
      ((Cursor.mk schema own current offset).run visit dictionaries chunk)
      ((Cursor.mk schema' (r.column own) current offset).run visit dictionaries' chunk') := by
  induction visit generalizing dictionaries dictionaries' chunk chunk' with
  | done a => exact ⟨rfl, hd, h⟩
  | value next ih =>
    simp only [run, h.value hd]
    exact ih _ hd h
  | float64 next ih =>
    simp only [run, h.columns.getElem?]
    exact ih _ hd h
  | valueOf name next ih =>
    simp only [run, hs.column?]
    cases schema.column? name with
    | none => exact ih _ hd h
    | some found =>
      simp only [Option.map_some, Relabelling.columnAt, h.value hd]
      exact ih _ hd h
  | write value next ih =>
    obtain ⟨written, ⟨ds, last⟩, ⟨ds', last'⟩, hwrite, hwrite', hds, hlast⟩ :=
      (write_relabelled hs hd h own own offset current current value).exists_eq
    simp only [run, hwrite, hwrite']
    exact ih _ hds hlast
  | writeOf name value next ih =>
    simp only [run, hs.column?]
    cases schema.column? name with
    | none => exact ih _ hd h
    | some found =>
      obtain ⟨slot, column⟩ := found
      obtain ⟨written, ⟨ds, last⟩, ⟨ds', last'⟩, hwrite, hwrite', hds, hlast⟩ :=
        (write_relabelled hs hd h own slot offset current column value).exists_eq
      simp only [Option.map_some, Relabelling.columnAt, hwrite, hwrite']
      exact ih _ hds hlast

end Cursor

namespace Transaction

variable {r : Relabelling} {schema schema' : Schema} {dictionaries dictionaries' : Array Dictionary}
  {σ : Type}

theorem visitOffsets_relabelled (hs : Schema.Relabelled r schema schema') (visitor : Visitor σ)
    (slot : ℕ) (column : Column) (base : ℕ) (offsets : List ℕ) (state : σ) {chunk chunk' : Chunk}
    (hd : Moved r.column dictionaries dictionaries') (h : Chunk.Relabelled r chunk chunk') :
    Alike (Stored r (Chunk.Relabelled r))
      (visitOffsets visitor (fun offset => ⟨schema, slot, column, offset⟩) base offsets state
        dictionaries chunk)
      (visitOffsets visitor (fun offset => ⟨schema', r.column slot, column, offset⟩) base offsets
        state dictionaries' chunk') := by
  induction offsets generalizing state dictionaries dictionaries' chunk chunk' with
  | nil => exact ⟨rfl, hd, h⟩
  | cons offset rest ih =>
    obtain ⟨⟨next, ended⟩, ⟨ds, last⟩, ⟨ds', last'⟩, hrun, hrun', hds, hlast⟩ :=
      (Cursor.run_relabelled hs hd h slot offset column (visitor state (base + offset))).exists_eq
    simp only [visitOffsets, hrun, hrun']
    rcases ended with e | _ | _
    · exact ⟨rfl, hds, hlast⟩
    · exact ⟨rfl, hds, hlast⟩
    · exact ih next hds hlast

theorem visitChunks_relabelled (hs : Schema.Relabelled r schema schema') (visitor : Visitor σ)
    (slot : ℕ) (column : Column) (chunkSize : ℕ) (bitmaps : List Bitmap) (id : ℕ) (state : σ)
    {chunks chunks' : Array Chunk} (hd : Moved r.column dictionaries dictionaries')
    (h : Matched (Chunk.Relabelled r) chunks chunks') :
    Alike (Stored r (Matched (Chunk.Relabelled r)))
      (visitChunks visitor (fun offset => ⟨schema, slot, column, offset⟩) chunkSize bitmaps id
        state dictionaries chunks)
      (visitChunks visitor (fun offset => ⟨schema', r.column slot, column, offset⟩) chunkSize
        bitmaps id state dictionaries' chunks') := by
  induction bitmaps generalizing id state dictionaries dictionaries' chunks chunks' with
  | nil => exact ⟨rfl, hd, h⟩
  | cons bits rest ih =>
    simp only [visitChunks]
    split_ifs
    · exact ih _ _ hd h
    · rcases Nat.lt_or_ge id chunks.size with hid | hid
      · have hid' : id < chunks'.size := h.size_eq ▸ hid
        have hchunk := h.related id _ _ (Array.getElem?_eq_getElem hid)
          (Array.getElem?_eq_getElem hid')
        obtain ⟨⟨next, ended⟩, ⟨ds, last⟩, ⟨ds', last'⟩, hvisit, hvisit', hds, hlast⟩ :=
          (visitOffsets_relabelled hs visitor slot column (id * chunkSize)
            (bits.and chunks[id].fill).toList state hd hchunk).exists_eq
        rw [updateAt_of_lt _ _ _ _ hid, updateAt_of_lt _ _ _ _ hid']
        simp only [hchunk.fill, hvisit, hvisit']
        have hset := h.set id hid hid' hlast
        rcases ended with e | _ | _
        · exact ⟨rfl, hds, hset⟩
        · exact ⟨rfl, hds, hset⟩
        · exact ih _ _ hds hset
      · rw [updateAt_of_size_le _ _ _ _ hid, updateAt_of_size_le _ _ _ _ (h.size_eq ▸ hid)]
        exact ⟨rfl, hd, h⟩

theorem deleteFrom_relabelled (selection : List Bitmap) (id : ℕ) {chunks chunks' : Array Chunk}
    (h : Matched (Chunk.Relabelled r) chunks chunks') :
    Alike (Matched (Chunk.Relabelled r)) (deleteFrom selection id chunks)
      (deleteFrom selection id chunks') := by
  induction selection generalizing id chunks chunks' with
  | nil => exact ⟨rfl, h⟩
  | cons bits rest ih =>
    have hhead : Alike (Matched (Chunk.Relabelled r))
        (if bits.isEmpty then (none, chunks)
          else updateAt Table.noChunk chunks id fun chunk => chunk.deleteSelected bits)
        (if bits.isEmpty then (none, chunks')
          else updateAt Table.noChunk chunks' id fun chunk => chunk.deleteSelected bits) := by
      split_ifs
      · exact ⟨rfl, h⟩
      · exact h.updateAt _ id fun chunk chunk' hchunk => hchunk.deleteSelected bits
    obtain ⟨removed, next, next', heq, heq', hnext⟩ := hhead.exists_eq
    obtain ⟨others, last, last', hrest, hrest', hlast⟩ := (ih (id + 1) hnext).exists_eq
    simp only [deleteFrom, heq, heq', hrest, hrest']
    exact ⟨rfl, hlast⟩

/-! ## Transactions -/

/-- Two transactions with the same selection, under schemas with other slots. -/
structure Relabelled (r : Relabelling) (t t' : Transaction) : Prop where
  generation : t'.generation = t.generation
  selection : t'.selection = t.selection
  schema : Schema.Relabelled r t.schema t'.schema

/-- A transaction with the selection of another. -/
def withSelection (t kept : Transaction) : Transaction := { t with selection := kept.selection }

variable {t t' : Transaction} {c c' : Collection}

namespace Relabelled

theorem withSelection (h : Relabelled r t t') {kept : Transaction}
    (hgeneration : kept.generation = t.generation) (hschema : kept.schema = t.schema) :
    Relabelled r kept (t'.withSelection kept) :=
  ⟨h.generation.trans hgeneration.symm, rfl, hschema ▸ h.schema⟩

/-! ### Names -/

theorem column (h : Relabelled r t t') (name : String) :
    t'.column name = (t.column name).map r.columnAt := by
  rw [Transaction.column, h.schema.column?, Transaction.column]
  cases t.schema.column? name <;> rfl

theorem typedColumn (h : Relabelled r t t') (name : String) (kind : Kind) :
    t'.typedColumn name kind = (t.typedColumn name kind).map r.columnAt := by
  rw [Transaction.typedColumn, h.column, Transaction.typedColumn]
  cases t.column name with
  | error e => rfl
  | ok found =>
    obtain ⟨slot, column⟩ := found
    simp only [bind, Except.bind, Except.map, Relabelling.columnAt]
    split_ifs <;> rfl

theorem resolve (hs : Schema.Relabelled r schema schema') (names : List String) :
    Transaction.resolve schema' names =
      (Transaction.resolve schema names).map (List.map r.slot) := by
  induction names with
  | nil => rfl
  | cons name rest ih =>
    rw [Transaction.resolve, hs.lookup, ih, Transaction.resolve]
    cases schema.lookup name with
    | none => rfl
    | some slot => cases Transaction.resolve schema rest <;> rfl

/-! ### Filters -/

theorem narrow (h : Relabelled r t t') {table table' : Table}
    (htable : Table.Relabelled r table table') {judge judge' : Chunk → Bitmap → Bitmap}
    (hjudge : ∀ chunk chunk', Chunk.Relabelled r chunk chunk' → judge' chunk' = judge chunk) :
    t'.narrow table' judge' = t'.withSelection (t.narrow table judge) := by
  unfold Transaction.narrow Transaction.withSelection
  rw [h.selection]
  simp only [Transaction.mk.injEq, true_and]
  refine congrArg (Array.mapIdx · t.selection) (funext fun id => funext fun bits => ?_)
  rcases htable.chunks.getElem?_cases id with
    ⟨hnone, hnone'⟩ | ⟨chunk, chunk', hchunk, hchunk', hrel⟩
  · rw [hnone, hnone']
  · rw [hchunk, hchunk']
    exact congrFun (hjudge chunk chunk' hrel) bits

/-- The filters are refused for the same reasons and keep the same rows. -/
theorem apply (h : Relabelled r t t') (htable : Table.Relabelled r (t.table c) (t'.table c'))
    (filter : Filter) :
    filter.apply t' c' = (filter.apply t c).map t'.withSelection := by
  cases filter with
  | select names =>
    show t'.select c' names = (t.select c names).map _
    unfold Transaction.select
    rw [resolve h.schema]
    cases Transaction.resolve t.schema names with
    | error e => rfl
    | ok slots =>
      refine congrArg Except.ok (h.narrow htable fun chunk chunk' hchunk => funext fun bits => ?_)
      rw [List.foldl_map]
      simp only [hchunk.select]
  | whereFloat name f =>
    show t'.whereFloat c' name f = (t.whereFloat c name f).map _
    unfold Transaction.whereFloat
    rw [h.typedColumn]
    cases t.typedColumn name .float64 with
    | error e => rfl
    | ok found =>
      exact congrArg Except.ok (h.narrow htable fun chunk chunk' hchunk =>
        funext fun bits => hchunk.filterColumn found.1 _ bits)
  | whereString name f =>
    show t'.whereString c' name f = (t.whereString c name f).map _
    unfold Transaction.whereString
    rw [h.column]
    cases t.column name with
    | error e => rfl
    | ok found =>
      obtain ⟨slot, column⟩ := found
      simp only [bind, Except.bind, Except.map, Relabelling.columnAt, htable.dictionary]
      cases column.kind with
      | enum | any =>
        exact congrArg Except.ok (h.narrow htable fun chunk chunk' hchunk =>
          funext fun bits => hchunk.filterColumn slot _ bits)
      | _ => rfl
  | whereValue name f =>
    show t'.whereValue c' name f = (t.whereValue c name f).map _
    unfold Transaction.whereValue
    rw [h.column]
    cases t.column name with
    | error e => rfl
    | ok found =>
      simp only [bind, Except.bind, Except.map, Relabelling.columnAt, htable.dictionary]
      exact congrArg Except.ok (h.narrow htable fun chunk chunk' hchunk =>
        funext fun bits => hchunk.filterColumn found.1 _ bits)

end Relabelled

end Transaction

/-! ## Collections -/

namespace Collection

variable {α : Type} {labels : ℕ → Relabelling} {c c' : Collection}

/-- Two collections whose contents are the same in other slots, in every generation. -/
structure Relabelled (labels : ℕ → Relabelling) (c c' : Collection) : Prop where
  config : c'.config = c.config
  generation : c'.generation = c.generation
  tableOf : ∀ generation ≤ c.generation,
    Table.Relabelled (labels generation) (c.tableOf generation) (c'.tableOf generation)

namespace Relabelled

theorem table (h : Relabelled labels c c') :
    Table.Relabelled (labels c.generation) c.table c'.table := by
  have htable := h.tableOf c.generation le_rfl
  rwa [tableOf_generation, ← h.generation, tableOf_generation, h.generation] at htable

theorem chunkSize (h : Relabelled labels c c') : c'.chunkSize = c.chunkSize :=
  congrArg Config.chunkSize h.config

theorem setTable (h : Relabelled labels c c') {generation : ℕ} (hle : generation ≤ c.generation)
    {table table' : Table} (htable : Table.Relabelled (labels generation) table table') :
    Relabelled labels (c.setTable generation table) (c'.setTable generation table') := by
  refine ⟨?_, ?_, fun other hother => ?_⟩
  · rw [config_setTable, config_setTable, h.config]
  · rw [generation_setTable, generation_setTable, h.generation]
  · rw [generation_setTable] at hother
    rw [tableOf_setTable hle hother, tableOf_setTable (h.generation ▸ hle) (h.generation ▸ hother)]
    split_ifs with heq
    · exact heq ▸ htable
    · exact h.tableOf other hother

theorem change (h : Relabelled labels c c') {f g : Table → α × Table}
    (hfg : Alike (Table.Relabelled (labels c.generation)) (f c.table) (g c'.table)) :
    Alike (Relabelled labels) (c.change f) (c'.change g) := by
  have hset := h.setTable le_rfl hfg.state
  rw [setTable_of_le le_rfl, setTable_of_le h.generation.le] at hset
  exact ⟨hfg.answer, hset⟩

theorem insert (h : Relabelled labels c c') (record : Record) :
    Alike (Relabelled labels) (c.insert record) (c'.insert record) := by
  simp only [Collection.insert, h.config]
  exact h.change (h.table.insert c.config record)

theorem deleteAt (h : Relabelled labels c c') (row : ℕ) :
    Alike (Relabelled labels) (c.deleteAt row) (c'.deleteAt row) := by
  simp only [Collection.deleteAt, h.config]
  exact h.change (h.table.deleteAt c.config row)

/-- What bytes are read as depends on the predicates that are registered, and not on their slots. -/
theorem decode_eq {r : Relabelling} {schema schema' : Schema}
    (h : Schema.Relabelled r schema schema') (chunkSize : ℕ) (bytes : Bytes) :
    Snapshot.decode chunkSize schema' bytes = Snapshot.decode chunkSize schema bytes := by
  have hregistered (name source : String) :
      Snapshot.registered? schema' name source = Snapshot.registered? schema name source := by
    unfold Snapshot.registered?
    rw [h.index?]
    cases schema.index? name <;> rfl
  have hindex : (fun index : Index => index.registeredIn schema') =
      fun index => index.registeredIn schema :=
    funext fun index => by rw [Index.registeredIn, hregistered, Index.registeredIn]
  rw [Snapshot.decode_eq schema', Snapshot.decode_eq schema]
  simp only [Table.registeredIn, Schema.registeredIn, hindex]

/-- A load replaces the contents by the same ones. -/
theorem load (h : Relabelled labels c c') (husable : c.config.fault? = none)
    (hlabel : labels (c.generation + 1) = .refl) (source : Source) :
    Alike (Relabelled labels) (c.load source) (c'.load source) := by
  unfold Collection.load
  cases source.failure with
  | some text => exact ⟨rfl, h⟩
  | none =>
    simp only [loadBytes, h.chunkSize, decode_eq h.table.schema]
    cases hdecode : Snapshot.decode c.chunkSize c.table.schema source.bytes with
    | error cause => exact ⟨rfl, h⟩
    | ok table =>
      refine ⟨rfl, h.config, ?_, fun generation hle => ?_⟩
      · show (c'.retired.push c'.table).size = (c.retired.push c.table).size
        rw [Array.size_push, Array.size_push]
        exact congrArg (· + 1) h.generation
      · have hgeneration : (c.replaceTable table).generation = c.generation + 1 :=
          Array.size_push ..
        rw [hgeneration] at hle
        rw [tableOf_replaceTable hle, tableOf_replaceTable (h.generation ▸ hle), h.generation]
        split_ifs with hold
        · exact h.tableOf generation hold
        · obtain rfl : generation = c.generation + 1 := by omega
          rw [hlabel]
          exact .refl (Snapshot.wellFormed_of_decode husable hdecode).schema

end Relabelled

end Collection

/-! ## Transactions on collections -/

namespace Transaction

namespace Relabelled

variable {labels : ℕ → Relabelling} {c c' : Collection} {t t' : Transaction} {σ : Type}

theorem start (hc : Collection.Relabelled labels c c') :
    Relabelled (labels c.generation) (.start c) (.start c') := by
  refine ⟨hc.generation, ?_, hc.table.schema⟩
  refine Array.ext' ?_
  rw [toList_start_selection, toList_start_selection]
  exact hc.table.chunks.map_eq fun chunk chunk' hchunk => hchunk.fill.symm

variable (h : Relabelled (labels t.generation) t t') (hc : Collection.Relabelled labels c c')
  (hle : t.generation ≤ c.generation)

include h hc

theorem passSchema :
    Schema.Relabelled (labels t.generation) (t.passSchema c) (t'.passSchema c') := by
  unfold Transaction.passSchema
  rw [h.generation, hc.generation]
  split_ifs with hgen
  · rw [hgen]
    exact hc.table.schema
  · exact h.schema

include hle

theorem table : Table.Relabelled (labels t.generation) (t.table c) (t'.table c') := by
  rw [Transaction.table, Transaction.table, h.generation]
  exact hc.tableOf t.generation hle

/-- The visits see the same rows and values, and the pass ends alike. -/
theorem pass (name : String) (visitor : Visitor σ) (state : σ) :
    Alike (Alike (Collection.Relabelled labels)) (t.pass c name visitor state)
      (t'.pass c' name visitor state) := by
  unfold Transaction.pass
  rw [h.column]
  cases t.column name with
  | error e => exact ⟨rfl, rfl, hc⟩
  | ok found =>
    obtain ⟨slot, column⟩ := found
    have htable := hc.tableOf t.generation hle
    obtain ⟨ended, ⟨ds, chunks⟩, ⟨ds', chunks'⟩, hvisit, hvisit', hds, hchunks⟩ :=
      (visitChunks_relabelled (h.passSchema hc) visitor slot column c.chunkSize
        t.selection.toList 0 state htable.dictionaries htable.chunks).exists_eq
    simp only [Except.map, Relabelling.columnAt, h.generation, h.selection, hc.chunkSize]
    simp only [Collection.changeTable_eq, hvisit, hvisit']
    exact ⟨rfl, rfl, hc.setTable hle { htable with dictionaries := hds, chunks := hchunks }⟩

theorem deleteAll :
    (t'.deleteAll c').1 = (t.deleteAll c).1 ∧
      (t'.deleteAll c').2.1 = t'.withSelection (t.deleteAll c).2.1 ∧
      Collection.Relabelled labels (t.deleteAll c).2.2 (t'.deleteAll c').2.2 := by
  have htable := hc.tableOf t.generation hle
  obtain ⟨removed, chunks, chunks', hdelete, hdelete', hchunks⟩ :=
    (deleteFrom_relabelled t.selection.toList 0 htable.chunks).exists_eq
  unfold Transaction.deleteAll
  simp only [h.generation, h.selection, Collection.changeTable_eq, hdelete, hdelete']
  refine ⟨trivial, ?_, hc.setTable hle { htable with
    chunks := hchunks
    live := congrArg (· - removed) htable.live }⟩
  rw [Transaction.withSelection, h.generation]

/-! ### Readers -/

theorem chunk? (id : ℕ) :
    t.chunk? c id = none ∧ t'.chunk? c' id = none ∨
      ∃ chunk chunk', t.chunk? c id = some chunk ∧ t'.chunk? c' id = some chunk' ∧
        Chunk.Relabelled (labels t.generation) chunk chunk' := by
  unfold Transaction.chunk?
  rw [h.selection]
  split_ifs
  · exact (h.table hc hle).chunks.getElem?_cases id
  · exact Or.inl ⟨rfl, rfl⟩

theorem float_get (slot row : ℕ) :
    (FloatReader.mk t' ((labels t.generation).column slot)).get c' row =
      (FloatReader.mk t slot).get c row := by
  unfold FloatReader.get
  simp only [hc.chunkSize]
  rcases h.chunk? hc hle (row / c.chunkSize) with
    ⟨hnone, hnone'⟩ | ⟨chunk, chunk', hchunk, hchunk', hrel⟩
  · rw [hnone, hnone']
    rfl
  · simp only [hchunk, hchunk', Option.bind_eq_bind, Option.bind_some, hrel.fill,
      hrel.columns.getElem?]

theorem float_sum (slot : ℕ) :
    (FloatReader.mk t' ((labels t.generation).column slot)).sum c' =
      (FloatReader.mk t slot).sum c := by
  unfold FloatReader.sum
  have hsegment (id : ℕ) : ((t'.chunk? c' id).bind fun chunk =>
        chunk.columns[(labels t.generation).column slot]?) =
      (t.chunk? c id).bind fun chunk => chunk.columns[slot]? := by
    rcases h.chunk? hc hle id with ⟨hnone, hnone'⟩ | ⟨chunk, chunk', hchunk, hchunk', hrel⟩
    · rw [hnone, hnone']
      rfl
    · rw [hchunk, hchunk', Option.bind_some, Option.bind_some, hrel.columns.getElem?]
  simp only [h.selection, hsegment]

theorem string_get (slot row : ℕ) :
    (StringReader.mk t' ((labels t.generation).column slot)).get c' row =
      (StringReader.mk t slot).get c row := by
  unfold StringReader.get
  simp only [hc.chunkSize]
  rcases h.chunk? hc hle (row / c.chunkSize) with
    ⟨hnone, hnone'⟩ | ⟨chunk, chunk', hchunk, hchunk', hrel⟩
  · rw [hnone, hnone']
    rfl
  · simp only [hchunk, hchunk', Option.bind_eq_bind, Option.bind_some,
      hrel.value (h.table hc hle).dictionaries]

/-- What can be read through the transactions is the same. -/
theorem readsAlike : t.ReadsAlike c t' c' where
  count := by rw [Transaction.count, Transaction.count, h.selection]
  rows := by rw [Transaction.rows, Transaction.rows, h.selection, hc.chunkSize]
  number name row := by
    unfold Transaction.floatReader
    rw [h.typedColumn]
    cases t.typedColumn name .float64 with
    | error e => rfl
    | ok found => exact congrArg Except.ok (h.float_get hc hle found.1 row)
  sum name := by
    unfold Transaction.floatReader
    rw [h.typedColumn]
    cases t.typedColumn name .float64 with
    | error e => rfl
    | ok found => exact congrArg Except.ok (h.float_sum hc hle found.1)
  text name row := by
    unfold Transaction.stringReader
    rw [h.column]
    cases t.column name with
    | error e => rfl
    | ok found =>
      simp only [bind, Except.bind, Except.map, Relabelling.columnAt]
      cases found.2.kind with
      | enum | any => exact congrArg Except.ok (h.string_get hc hle found.1 row)
      | _ => rfl

end Relabelled

end Transaction

end ColumnStore
