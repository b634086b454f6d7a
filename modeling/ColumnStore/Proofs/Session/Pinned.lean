import ColumnStore.Proofs.Session.Lineage
import ColumnStore.Proofs.Session.Pool

/-!
# Slots of open transactions

A transaction looks up names in the schema that it was opened with, and goes on with the slots that
it finds however the schema of the collection grows. That it may is a matter of the schemas and of
the chunks: a slot has to stay with its column, the column has to stay one and the same with its
dictionary, and no chunk may ever have been made under a schema that means something else by the
slot. Only a load gives out slots anew, and it begins a new generation.

* `ColumnPool.Keeps`: the columns, the schemas of the contents and those of the transactions from
  one moment of a session to a later one (`PoolOf.keeps_step`, `PoolOf.keeps_run`);
* `ColumnPool.KeepsSlots`: what the schema of a transaction has to do with a later one of the same
  contents, and both with the chunks there are at some time after;
* `Reachable.pinned_slots_stay`: this is so for every transaction of every session.
-/

namespace ColumnStore

/-! ## From one moment to a later one -/

namespace Table

variable {config : Config} {table table' : Table}

/-- The schema of contents is well formed whatever is done to them. -/
theorem Changes.schema_wellFormed (h : Changes config table table')
    (hschema : table.schema.WellFormed) : table'.schema.WellFormed := by
  cases h with
  | none => exact hschema
  | createColumn h name kind => exact (h.createColumn_steps name kind).wellFormed.schema
  | createIndex h name source predicate =>
    exact (h.createIndex_steps name source predicate).wellFormed.schema
  | insert h record => exact (h.insert_steps record).wellFormed.schema
  | deleteAt h row => exact (h.deleteAt_steps row).wellFormed.schema
  | pass _ _ hwritten _ =>
    rw [hwritten.schema_eq]
    exact hschema
  | removed _ hremoved =>
    rw [hremoved.schema_eq]
    exact hschema

end Table

/-- The schemas of all contents are well formed, those of the retired ones too. -/
theorem Reachable.schema_wellFormed {s : Session} (h : Reachable s) :
    ∀ generation ≤ s.collection.generation,
      (s.collection.tableOf generation).schema.WellFormed := by
  have hstart : ∀ (config : Config) generation,
      ((Collection.build config).tableOf generation).schema.WellFormed := by
    intro config generation
    rw [Collection.tableOf_of_le (Nat.zero_le generation)]
    exact Schema.wellFormed_empty
  induction h with
  | new capacity => exact fun generation _ => hstart _ generation
  | @withConfig config c hc =>
    obtain ⟨-, rfl⟩ := Collection.build_of_withConfig hc
    exact fun generation _ => hstart config generation
  | @step s h op ih =>
    intro generation hle
    cases hop : op.isLoad with
    | false =>
      obtain ⟨changed, hchanged, table, hset, hchanges⟩ := h.holds.step_setTable h.wellFormed hop
      rw [hset, Collection.generation_setTable] at hle
      rw [hset, Collection.tableOf_setTable hchanged hle]
      split_ifs with heq
      · exact hchanges.schema_wellFormed (ih changed hchanged)
      · exact ih generation hle
    | true =>
      cases op with
      | load source =>
        have hwf := (h.step (.load source)).wellFormed.table.schema
        rw [Session.step] at hle hwf ⊢
        rcases s.collection.load_outcome source with ⟨e, hload⟩ | ⟨table, -, hload⟩
        · rw [hload] at hle ⊢
          exact ih generation hle
        · rw [hload] at hle hwf ⊢
          show ((s.collection.replaceTable table).tableOf generation).schema.WellFormed
          rw [Collection.tableOf_replaceTable (hle.trans_eq (Array.size_push ..))]
          split_ifs with hold
          · exact ih generation hold
          · exact hwf
      | _ => cases hop

namespace ColumnPool

variable {pool pool' pool'' : ColumnPool} {c c' c'' : Collection}

/-- A pool and what it is later: all columns stay, the schemas of the contents there were have grown
    at most, and every transaction has the schema that it had. -/
structure Keeps (c c' : Collection) (pool pool' : ColumnPool) : Prop where
  generation_le : c.generation ≤ c'.generation
  extends_ : pool.Extends pool'
  grows : ∀ generation ≤ c.generation,
    (pool.schemaOf generation).GrowsInto (pool'.schemaOf generation)
  pinned : ∀ (id : Nat) pinned, pool.pinned[id]? = some pinned → pool'.pinned[id]? = some pinned

theorem Keeps.refl (c : Collection) (pool : ColumnPool) : Keeps c c pool pool :=
  ⟨le_rfl, .refl pool, fun _ _ => .refl _, fun _ _ h => h⟩

theorem Keeps.trans (h : Keeps c c' pool pool') (h' : Keeps c' c'' pool' pool'') :
    Keeps c c'' pool pool'' where
  generation_le := h.generation_le.trans h'.generation_le
  extends_ := h.extends_.trans h'.extends_
  grows generation hle :=
    (h.grows generation hle).trans (h'.grows generation (hle.trans h.generation_le))
  pinned id pinned hpinned := h'.pinned id pinned (h.pinned id pinned hpinned)

end ColumnPool

namespace PoolOf

variable {s : Session} {pool : ColumnPool}

theorem keeps_step (h : PoolOf s pool) (op : Op) :
    ColumnPool.Keeps s.collection (s.step op).2.collection pool (pool.step s op) := by
  obtain ⟨hs, hbacks⟩ := h.backs
  obtain ⟨-, hextends, hgrows⟩ := hbacks.step_carries hs op
  exact ⟨hs.wellFormed.generation_le_step op, hextends, hgrows,
    fun id pinned => pool.getElem?_pinned_step s op⟩

theorem keeps_run (h : PoolOf s pool) (ops : List Op) :
    ColumnPool.Keeps s.collection (s.run ops).collection pool (pool.run s ops) := by
  induction ops generalizing s pool with
  | nil => exact .refl s.collection pool
  | cons op rest ih => exact (h.keeps_step op).trans (ih (h.step op))

end PoolOf

/-! ## Slots -/

/-- No slot has one column in the one schema and another in the other, and so for indexes, but for
    their predicates. -/
structure Schema.Agrees (one other : Schema) : Prop where
  columns : ∀ (slot : Nat) column column', one.columns[slot]? = some column →
    other.columns[slot]? = some column' → column' = column
  indexes : ∀ (slot : Nat) index index', one.indexes[slot]? = some index →
    other.indexes[slot]? = some index' →
      (index'.name, index'.source, index'.sourceSlot) = (index.name, index.source, index.sourceSlot)

theorem Index.Grows.label_eq {old new : Index} (h : old.Grows new) :
    (new.name, new.source, new.sourceSlot) = (old.name, old.source, old.sourceSlot) := by
  rcases h with rfl | ⟨-, predicate, rfl⟩ <;> rfl

/-- Schemas agree that grew into the same one. -/
theorem Schema.agrees_of_extends {one other newest : Schema} (h : one.Extends newest)
    (h' : other.Extends newest) : one.Agrees other where
  columns slot column column' hcolumn hcolumn' :=
    Option.some.inj ((h'.columns slot column' hcolumn').symm.trans (h.columns slot column hcolumn))
  indexes slot index index' hindex hindex' := by
    obtain ⟨grown, hgrown, hgrows⟩ := h.indexes slot index hindex
    obtain ⟨grown', hgrown', hgrows'⟩ := h'.indexes slot index' hindex'
    obtain rfl : grown' = grown := Option.some.inj (hgrown'.symm.trans hgrown)
    exact hgrows'.label_eq.symm.trans hgrows.label_eq

namespace Chunk

variable {chunkSize : Nat} {chunk : Chunk} {older newest : Schema}
  {dictionaries : Array Dictionary}

/-- A chunk of contents whose schema grew out of the given one has, once synced with that one, a
    segment for each of its columns. -/
theorem WellFormed.exists_segment_sync (h : chunk.WellFormed chunkSize newest dictionaries)
    (hext : older.Extends newest) {slot : Nat} {column : Column}
    (hcolumn : older.columns[slot]? = some column) :
    ∃ segment, (chunk.sync older).columns[slot]? = some segment ∧ segment.kind = column.kind := by
  have hsync := h.lockstep.sync (Schema.Extends.refl _) hext
  have hlt : slot < (chunk.sync older).columns.size := by
    rw [Chunk.sync_columns_size]
    exact (Array.getElem?_eq_some_iff.mp hcolumn).1.trans_le (le_max_right ..)
  obtain ⟨column', hcolumn', hsegment⟩ := hsync.column slot _ (Array.getElem?_eq_getElem hlt)
  obtain rfl : column' = column :=
    Option.some.inj (hcolumn'.symm.trans (hext.columns slot column hcolumn))
  exact ⟨_, Array.getElem?_eq_getElem hlt, hsegment.kind_eq⟩

theorem exists_bitmap_sync (chunk : Chunk) {schema : Schema} {slot : Nat}
    (hslot : slot < schema.indexes.size) :
    ∃ bits, (chunk.sync schema).indexes[slot]? = some bits := by
  have hlt : slot < (chunk.sync schema).indexes.size := by
    rw [sync_indexes_size]
    exact hslot.trans_le (le_max_right ..)
  exact ⟨_, Array.getElem?_eq_getElem hlt⟩

end Chunk

/-- The schema that a transaction was opened with and a later schema of the same contents, when the
    contents are the given ones, with the schemas that their chunks were synced with. -/
structure ColumnPool.KeepsSlots (pool : ColumnPool) (chunkSize : Nat) (contents : Table)
    (syncs : Syncs) (pinned later : SharedSchema) : Prop where
  /-- The columns of the one are the first columns of the other, the same and not copies. -/
  columns : pinned.columns.toList <+: later.columns.toList
  /-- By name and kind they are the first of the other, too. -/
  view : (pool.view pinned).columns.toList <+: (pool.view later).columns.toList
  /-- The indexes of the one are the first of the other, by name, source and slots. -/
  indexes : pinned.indexes.toList.map PlacedIndex.label <+:
    later.indexes.toList.map PlacedIndex.label
  /-- An index is as it was, or it had no predicate and has got one. -/
  predicate : ∀ (slot : Nat) index, pinned.indexes[slot]? = some index →
    ∃ index', later.indexes[slot]? = some index' ∧ index.toIndex.Grows index'.toIndex
  /-- A name leads to the same slot. -/
  lookup : ∀ name slot, (pool.view pinned).lookup name = some slot →
    (pool.view later).lookup name = some slot
  /-- The name of a column leads to one column by either schema, which has the slot and the
      dictionary that the contents have for it. -/
  column : ∀ name slot column, (pool.view pinned).column? name = some (slot, column) →
    ∃ ref, pool.find pinned name = some ref ∧ pool.find later name = some ref ∧
      pool.columns[ref]? = some ⟨⟨column, slot⟩, contents.dictionary slot⟩
  /-- No chunk was ever synced with a schema that has something else in a slot. -/
  history : ∀ (id : Nat) chunk, contents.chunks[id]? = some chunk →
    chunk.History chunkSize (syncs id) ∧ ∀ schema ∈ syncs id, (pool.view pinned).Agrees schema
  /-- A chunk that is synced with the later schema has a segment for every column of the
      transaction, in the slot and of the kind of the column. -/
  segment : ∀ chunk ∈ contents.chunks, ∀ (slot : Nat) column,
    (pool.view pinned).columns[slot]? = some column →
      ∃ segment, (chunk.sync (pool.view later)).columns[slot]? = some segment ∧
        segment.kind = column.kind
  /-- It has a bitmap for every index of the transaction. -/
  bitmap : ∀ chunk ∈ contents.chunks, ∀ slot < pinned.indexes.size,
    ∃ bits, (chunk.sync (pool.view later)).indexes[slot]? = some bits
  /-- What is encoded by either schema is the same, and either decodes it to the value, then and
      later. -/
  encoded : ∀ (slot ref ref' : Nat), pinned.columns[slot]? = some ref →
    later.columns[slot]? = some ref' → ∀ value,
      pool.encode ref' value = pool.encode ref value ∧
      ∀ cell pool', (pool.encode ref value).1 = .ok (some cell) →
        (pool.encode ref value).2.Extends pool' →
          pool'.decode ref cell = value ∧ pool'.decode ref' cell = value
  /-- What the chunks hold is decoded alike by either schema, as it is by the contents, then and
      later. -/
  stored : ∀ (slot ref ref' : Nat), pinned.columns[slot]? = some ref →
    later.columns[slot]? = some ref' → ∀ chunk ∈ contents.chunks, ∀ offset cell,
      chunk.cell? slot offset = some cell → ∀ pool', pool.Extends pool' →
        pool'.decode ref cell = Column.decode (contents.dictionary slot) cell ∧
        pool'.decode ref' cell = Column.decode (contents.dictionary slot) cell

namespace ColumnPool

variable {pool : ColumnPool} {chunkSize : Nat} {contents : Table} {syncs : Syncs}
  {pinned later newest : SharedSchema}

/-- Slots stay between any two schemas that grew into the one that the contents have. -/
theorem Shows.keepsSlots (h : pool.Shows newest contents.schema contents.dictionaries)
    (hpinned : pinned.GrowsInto later) (hlater : later.GrowsInto newest)
    (hwf : (pool.view later).WellFormed)
    (hchunks : ∀ chunk ∈ contents.chunks,
      chunk.WellFormed chunkSize contents.schema contents.dictionaries)
    (hhistory : ∀ (id : Nat) chunk, contents.chunks[id]? = some chunk →
      chunk.History chunkSize (syncs id) ∧
        ∀ schema ∈ syncs id, schema.Extends contents.schema) :
    pool.KeepsSlots chunkSize contents syncs pinned later := by
  have hview := h.view_eq
  have hext := extends_view hpinned pool
  have hlaterExt : (pool.view later).Extends contents.schema := hview ▸ extends_view hlater pool
  have hpinnedExt := hext.trans hlaterExt
  -- the reference in a slot of the older schemas is the one in that slot of the newest
  have href : ∀ {slot ref ref' : Nat}, pinned.columns[slot]? = some ref →
      later.columns[slot]? = some ref' → ref' = ref ∧ ∃ column,
        pool.columns[ref]? = some ⟨⟨column, slot⟩, contents.dictionary slot⟩ := by
    intro slot ref ref' hslot hslot'
    obtain ⟨column, -, hfound⟩ :=
      h.getElem?_columns ((hpinned.trans hlater).getElem?_columns hslot)
    exact ⟨Option.some.inj (hslot'.symm.trans (hpinned.getElem?_columns hslot)), column, hfound⟩
  refine
    { columns := hpinned.columns
      view := ?_
      indexes := hpinned.labels
      predicate := fun slot index hindex => ?_
      lookup := fun name slot => hext.lookup hwf
      column := fun name slot column hcolumn => ?_
      history := fun id chunk hchunk => ?_
      segment := fun chunk hchunk slot column hcolumn => ?_
      bitmap := fun chunk hchunk slot hslot => ?_
      encoded := fun slot ref ref' hslot hslot' value => ?_
      stored := fun slot ref ref' hslot hslot' chunk hchunk offset cell hcell pool' hpool => ?_ }
  · simp only [ColumnPool.view, Array.toList_map]
    exact hpinned.columns.map _
  · obtain ⟨index', hindex', -, hgrows⟩ := hpinned.indexes slot index hindex
    exact ⟨index', hindex', hgrows⟩
  · have hnewest := hpinnedExt.columns slot column (Schema.exists_of_column? hcolumn).1
    refine ⟨newest.ref slot, ?_, ?_, (h.getElem?_ref hnewest).2⟩
    · rw [find_of_growsInto (hpinned.trans hlater), hcolumn, Option.map_some]
    · rw [find_of_growsInto hlater, hext.column? hwf hcolumn, Option.map_some]
  · obtain ⟨hsynced, hall⟩ := hhistory id chunk hchunk
    exact ⟨hsynced, fun schema hschema =>
      Schema.agrees_of_extends hpinnedExt (hall schema hschema)⟩
  · exact (hchunks chunk hchunk).exists_segment_sync hlaterExt (hext.columns slot column hcolumn)
  · have hsize : (pool.view pinned).indexes.size = pinned.indexes.size := Array.size_map ..
    exact chunk.exists_bitmap_sync ((hslot.trans_eq hsize.symm).trans_le hext.indexes_size_le)
  · obtain ⟨rfl, column, hfound⟩ := href hslot hslot'
    have hlt := (Array.getElem?_eq_some_iff.mp hfound).1
    exact ⟨rfl, fun cell pool' hcell hpool =>
      ⟨decode_encode hlt hcell hpool, decode_encode hlt hcell hpool⟩⟩
  · obtain ⟨rfl, column, hfound⟩ := href hslot hslot'
    have hdecode := hpool.decode_of_getElem? hfound
      ((hchunks chunk hchunk).known slot offset cell hcell)
    exact ⟨hdecode, hdecode⟩

end ColumnPool

/-- Slots of open transactions stay. Take a transaction of any session, with the schema that it was
    opened with, and let any operations follow. It keeps this schema and its contents. The schema
    that these contents have then, which is that of the collection unless there was a load, starts
    with the same columns, by reference, and the same indexes; and whatever operations follow on
    these, either schema leads to the same column or index of every chunk, and decodes what was
    encoded by the other, then and ever after. No schema in the log of the session that a chunk of
    these contents was ever synced with has something else in a slot. -/
theorem Reachable.pinned_slots_stay {s : Session} (h : Reachable s) :
    (∃ pool, PoolOf s pool) ∧ (∃ log, SyncLogOf s log) ∧
      ∀ pool, PoolOf s pool → ∀ log, SyncLogOf s log →
        ∀ (id : Nat) t, s.transactions[id]? = some t →
          ∃ pinned, pool.pinned[id]? = some pinned ∧ ∀ ops ops',
            let s₁ := s.run ops
            let s₂ := s₁.run ops'
            let pool₁ := pool.run s ops
            let pool₂ := pool₁.run s₁ ops'
            let log₂ := (log.run s ops).run s₁ ops'
            let later := pool₁.schemaOf t.generation
            (∃ t', s₂.transactions[id]? = some t' ∧ t'.generation = t.generation ∧
              t'.schema = t.schema) ∧
            pool₂.pinned[id]? = some pinned ∧ pool₂.view pinned = t.schema ∧
            pool₂.view later = (s₁.collection.tableOf t.generation).schema ∧
            (t.generation = s₁.collection.generation → later = pool₁.schema) ∧
            pool₂.KeepsSlots s₂.collection.chunkSize (s₂.collection.tableOf t.generation)
              (log₂ t.generation) pinned later ∧
            ∀ rest, pool₂.Extends (pool₂.run s₂ rest) := by
  refine ⟨h.exists_pool, h.exists_syncLog, fun pool hpool log hlog id t ht => ?_⟩
  obtain ⟨-, hbacks⟩ := hpool.backs
  obtain ⟨pinned, hpinned, hview, hgrows⟩ := hbacks.pinned id t ht
  refine ⟨pinned, hpinned, fun ops ops' => ?_⟩
  intro s₁ s₂ pool₁ pool₂ log₂ later
  have hpool₁ := hpool.run ops
  have hpool₂ := hpool₁.run ops'
  have hkeeps₁ := hpool.keeps_run ops
  have hkeeps₂ := hpool₁.keeps_run ops'
  obtain ⟨hs₁, hbacks₁⟩ := hpool₁.backs
  obtain ⟨hs₂, hbacks₂⟩ := hpool₂.backs
  obtain ⟨t₁, ht₁, hviews₁⟩ := s.views_run ops ht
  obtain ⟨t₂, ht₂, hviews₂⟩ := s₁.views_run ops' ht₁
  have hviews := hviews₁.trans hviews₂
  have hle := h.wellFormed.generation_le t (Array.mem_of_getElem? ht)
  have hle₁ := hle.trans hkeeps₁.generation_le
  have hle₂ := hle₁.trans hkeeps₂.generation_le
  have hshows₁ := hbacks₁.shows t.generation hle₁
  have hpinned₂ := hkeeps₂.pinned id pinned (hkeeps₁.pinned id pinned hpinned)
  have hlater : pool₂.view later = (s₁.collection.tableOf t.generation).schema :=
    (hkeeps₂.extends_.view_eq fun ref => hshows₁.ref_lt).trans hshows₁.view_eq
  refine ⟨⟨t₂, ht₂, hviews.generation, hviews.schema⟩, hpinned₂, ?_, hlater, fun hgen => ?_, ?_,
    fun rest => (hpool₂.keeps_run rest).extends_⟩
  · obtain ⟨pinned', hpinned', hview', -⟩ := hbacks₂.pinned id t₂ ht₂
    obtain rfl : pinned' = pinned := Option.some.inj (hpinned'.symm.trans hpinned₂)
    exact hview'.trans hviews.schema
  · show pool₁.schemaOf t.generation = pool₁.schema
    rw [hgen, hbacks₁.schemaOf_generation]
  · refine (hbacks₂.shows t.generation hle₂).keepsSlots
      (hgrows.trans (hkeeps₁.grows t.generation hle)) (hkeeps₂.grows t.generation hle₁)
      (hlater ▸ hs₁.schema_wellFormed t.generation hle₁) (fun chunk hchunk => ?_)
      fun place chunk hchunk => ?_
    · obtain ⟨place, hplace⟩ := Array.mem_iff_getElem?.mp hchunk
      exact (hs₂.holds.held t.generation hle₂).chunk place chunk hplace
    · obtain ⟨past, hdescends, -⟩ :=
        ((hlog.run ops).run ops').descends.2.exists_past t.generation hle₂
      obtain ⟨hsub, hsynced⟩ := hdescends.chunk place chunk hchunk
      exact ⟨hsynced, fun schema hschema => hdescends.lineage.extends_head schema (hsub hschema)⟩

/-- A row with a text, and a transaction opened on it. -/
def Op.tagging : List Op := [.createColumn "tag" .enum, .insert [("tag", .string "a")], .begin]

/-- A column and an index over the texts, added after the transaction was opened. -/
def Op.noting : List Op :=
  [.createColumn "note" .any, .createIndex "marked" "tag" fun _ => true]

/-- Puts a text in the place of the one there is. -/
def Transaction.retag : Transaction.Visitor Unit := fun _ _ =>
  .write (.string "b") fun _ => .done ((), .ok true)

/-- The transaction has the first of the two columns. What it writes comes to the dictionary that
    the collection's schema has the text of the row from. The chunk was synced for the row, for the
    index and for the write, with schemas of one and then of two columns. -/
theorem pinned_slots_stay_tagged :
    let s := (Session.start (.new 2)).run Op.tagging
    let pool := ColumnPool.empty.run (.start (.new 2)) Op.tagging
    let s₁ := s.run Op.noting
    let pool₁ := pool.run s Op.noting
    let retag := [.pass 0 "tag" Transaction.retag ()]
    let s₂ := s₁.run retag
    let pool₂ := pool₁.run s₁ retag
    let log := SyncLog.empty.run (.start (.new 2)) Op.tagging
    let log₂ := (log.run s Op.noting).run s₁ retag
    ∃ pinned, pool.pinned[0]? = some pinned ∧
      pool₂.KeepsSlots s₂.collection.chunkSize (s₂.collection.tableOf 0) (log₂ 0) pinned
        pool₁.schema ∧
      (log₂ 0 0).map (fun schema => schema.columns.size) = [2, 2, 1, 1] ∧
      pinned.columns = #[0] ∧ pool₁.schema.columns = #[0, 1] ∧ pool₁.schema.indexes.size = 1 ∧
      ((pool₂.column 0).dictionary.entries.map fun entry => entry.text) = #["a", "b"] := by
  intro s pool s₁ pool₁ retag s₂ pool₂ log log₂
  have hreachable : Reachable s := (Reachable.new 2).run Op.tagging
  have hpool : PoolOf s pool := (PoolOf.new 2).run Op.tagging
  have hlog : SyncLogOf s log := (SyncLogOf.new 2).run Op.tagging
  obtain ⟨-, -, hall⟩ := hreachable.pinned_slots_stay
  obtain ⟨t, ht⟩ : ∃ t, s.transactions[0]? = some t := ⟨_, rfl⟩
  have hgen : t.generation = 0 := by
    have hfirst : s.transactions[0]?.map Transaction.generation = some 0 := by decide +kernel
    rw [ht] at hfirst
    exact Option.some.inj hfirst
  obtain ⟨pinned, hpinned, hslots⟩ := hall pool hpool log hlog 0 t ht
  obtain ⟨-, -, -, -, hlater, hkeeps, -⟩ := hslots Op.noting retag
  have hfirst : pool.pinned[0]?.map SharedSchema.columns = some #[0] := by decide +kernel
  rw [hpinned] at hfirst
  rw [hlater (by rw [hgen]; decide +kernel), hgen] at hkeeps
  exact ⟨pinned, hpinned, hkeeps, by decide +kernel, Option.some.inj hfirst, by decide +kernel,
    by decide +kernel, by decide +kernel⟩

end ColumnStore
