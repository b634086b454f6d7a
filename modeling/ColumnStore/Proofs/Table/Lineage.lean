import ColumnStore.Proofs.Chunk.History
import ColumnStore.Proofs.Snapshot.Load
import ColumnStore.Proofs.Table.Define
import ColumnStore.Proofs.Table.Delete
import ColumnStore.Proofs.Table.Insert
import ColumnStore.Proofs.Transaction.Edits

/-!
# The schemas of a table over time

The schema of a table grows by columns, indexes and predicates, and what it was before is not
forgotten: an open transaction keeps the schema of its opening and may write under it. So the
schemas of a table form a chain in which each extends those before it (`Schema.Lineage`), and a
chunk can lag behind any of them.

The schemas that the chunks are synced with are written down as it happens (`Syncs`): when an index
is computed, when a row is inserted, when a write of a pass is accepted. `Table.Descends`: what is
written down is the history of the chunks, and the schemas in it belong to the chain, so each chunk
was synced up to one of these (`Descends.exists_newest`). What is done to a table keeps it so
(`Table.Continues`):

* `createColumn_continues`, `WellFormed.createIndex_continues`: the chain grows by one schema, or
  not at all;
* `WellFormed.insert_continues`, `deleteAt_continues`, `deleted_continues`: it stays;
* `Composes.continues`: it stays when rows are written under any schema of the chain;
* `Snapshot.descends_of_decode`: a table that was read from bytes has a chain of one schema.
-/

namespace ColumnStore

namespace Schema

/-- Schemas of one table, the newest first. -/
def Lineage (schemas : List Schema) : Prop :=
  schemas.Pairwise fun newer older => older.Extends newer

/-- Among some schemas of a table one is the newest. -/
theorem Lineage.exists_newest {schemas synced : List Schema} (h : Lineage schemas)
    (hne : synced ≠ []) (hsub : synced ⊆ schemas) :
    ∃ newest ∈ synced, ∀ schema ∈ synced, schema.Extends newest := by
  induction schemas with
  | nil => exact absurd (List.subset_nil.mp hsub) hne
  | cons newer rest ih =>
    obtain ⟨hnewer, hrest⟩ := List.pairwise_cons.mp h
    by_cases hmem : newer ∈ synced
    · refine ⟨newer, hmem, fun schema hschema => ?_⟩
      rcases List.mem_cons.mp (hsub hschema) with rfl | hold
      · exact Extends.refl schema
      · exact hnewer schema hold
    · refine ih hrest fun schema hschema => ?_
      exact (List.mem_cons.mp (hsub hschema)).resolve_left fun heq => hmem (heq ▸ hschema)

theorem Lineage.extends_head {newest : Schema} {past : List Schema}
    (h : Lineage (newest :: past)) : ∀ schema ∈ newest :: past, schema.Extends newest :=
  List.forall_mem_cons.mpr ⟨Extends.refl newest, (List.pairwise_cons.mp h).1⟩

theorem Lineage.cons {newest : Schema} {past : List Schema} (h : Lineage (newest :: past))
    {next : Schema} (hext : newest.Extends next) : Lineage (next :: newest :: past) :=
  List.pairwise_cons.mpr ⟨fun schema hschema => (h.extends_head schema hschema).trans hext, h⟩

end Schema

/-! ## Writing the schemas down -/

/-- For the chunks of contents, by their numbers, the schemas that each was made under and synced
    with, the last one first. -/
abbrev Syncs := Nat → List Schema

namespace Syncs

/-- A chunk is synced with a schema (`sync`). -/
def sync (id : Nat) (schema : Schema) (syncs : Syncs) : Syncs :=
  Function.update syncs id (schema :: syncs id)

/-- An index is computed in every chunk, under the schema that has it (`create_index`). -/
def createIndex (name source : String) (predicate : Value → Bool) (table : Table) (syncs : Syncs) :
    Syncs :=
  match Table.createIndex name source predicate table with
  | (.ok (), table') => fun id => table'.schema :: syncs id
  | (.error _, _) => syncs

/-- A row is put into its chunk, which is made if it is not there (`insert`). -/
def insert (config : Config) (record : Record) (table : Table) (syncs : Syncs) : Syncs :=
  match Table.insert config record table with
  | (.ok row, _) =>
    let made : Syncs := fun id => if id < table.chunks.size then syncs id else [table.schema]
    made.sync (row / config.chunkSize) table.schema
  | (.error _, _) => syncs

/-- Rows are written in a pass that works under a schema (`range_column`). A write that is refused
    does not come to the chunk. -/
def pass (chunkSize : Nat) (schema : Schema) : List (Nat × Edit) → Syncs → Syncs
  | [], syncs => syncs
  | (row, edit) :: rest, syncs =>
    match edit.answer with
    | .ok () => pass chunkSize schema rest (syncs.sync (row / chunkSize) schema)
    | .error _ => pass chunkSize schema rest syncs

end Syncs

/-! ## Chunks -/

/-- What holds of the elements of an array, each in its place, and of what a change makes of them,
    holds of the elements after the change. -/
theorem forall_getElem?_updateAt {α β : Type} {P : Nat → α → Prop} (filler : α) {xs : Array α}
    (i : Nat) {f : α → β × α} (h : ∀ (j : Nat) x, xs[j]? = some x → P j x)
    (hf : ∀ (j : Nat) x, P j x → P j (f x).2) :
    ∀ (j : Nat) x, (updateAt filler xs i f).2[j]? = some x → P j x := by
  intro j x hx
  rcases Nat.lt_or_ge i xs.size with hlt | hle
  · rw [updateAt_of_lt _ _ _ _ hlt, Array.getElem?_set] at hx
    split_ifs at hx with heq
    · cases hx
      exact heq ▸ hf i _ (h i _ (Array.getElem?_eq_getElem hlt))
    · exact h j x hx
  · rw [updateAt_of_size_le _ _ _ _ hle] at hx
    exact h j x hx

/-- A write that is accepted syncs the chunk with the schema of its cursor. -/
theorem Cursor.madeUnder_write {chunkSize : Nat} {known synced : List Schema} {chunk : Chunk}
    (cursor : Cursor) (hschema : cursor.schema ∈ known) (slot : Nat) (column : Column)
    (value : Value) (dictionaries : Array Dictionary)
    (hok : (cursor.write slot column value dictionaries chunk).1 = .ok ())
    (h : chunk.MadeUnder chunkSize known synced) :
    (cursor.write slot column value dictionaries chunk).2.2.MadeUnder chunkSize known
      (cursor.schema :: synced) := by
  unfold write at hok ⊢
  generalize column.encodeAt dictionaries slot value = encoded at hok ⊢
  obtain ⟨_ | cell, dictionaries'⟩ := encoded
  · cases hok
  · exact h.update hschema ..

namespace Table

open Chunk (MadeUnder)

/-! ## Tables -/

variable {config : Config} {past : List Schema} {syncs syncs' : Syncs} {table table' : Table}

/-- The schemas that the table had before extend one another up to the one it has. What was written
    down is the history of its chunks, and these are the schemas in it. -/
structure Descends (config : Config) (past : List Schema) (syncs : Syncs) (table : Table) :
    Prop where
  lineage : Schema.Lineage (table.schema :: past)
  chunk : ∀ (id : Nat) chunk, table.chunks[id]? = some chunk →
    chunk.MadeUnder config.chunkSize (table.schema :: past) (syncs id)

/-- Every chunk was synced up to some schema that the table has or had. -/
theorem Descends.exists_newest (h : table.Descends config past syncs) {id : Nat} {chunk : Chunk}
    (hchunk : table.chunks[id]? = some chunk) :
    ∃ newest, chunk.SyncedUpTo config.chunkSize (syncs id) newest ∧
      newest.Extends table.schema := by
  obtain ⟨hsub, hhistory⟩ := h.chunk id chunk hchunk
  obtain ⟨newest, hmem, hnewest⟩ := h.lineage.exists_newest hhistory.ne_nil hsub
  exact ⟨newest, ⟨hhistory, hmem, hnewest⟩, h.lineage.extends_head newest (hsub hmem)⟩

/-- A table that has the chunks of another, or chunks made of them, under the same schemas. -/
theorem Descends.of_schema_eq (h : table.Descends config past syncs)
    (hschema : table'.schema = table.schema)
    (hchunk : ∀ (id : Nat) chunk, table'.chunks[id]? = some chunk →
      chunk.MadeUnder config.chunkSize (table.schema :: past) (syncs' id)) :
    table'.Descends config past syncs' := by
  refine ⟨?_, ?_⟩
  · rw [hschema]
    exact h.lineage
  · rwa [hschema]

/-- A table with the next schema of the chain. -/
theorem Descends.next (h : table.Descends config past syncs)
    (hext : table.schema.Extends table'.schema)
    (hchunk : ∀ (id : Nat) chunk, table'.chunks[id]? = some chunk →
      chunk.MadeUnder config.chunkSize (table'.schema :: table.schema :: past) (syncs' id)) :
    table'.Descends config (table.schema :: past) syncs' :=
  ⟨h.lineage.cons hext, hchunk⟩

theorem descends_empty (config : Config) (syncs : Syncs) :
    Table.empty.Descends config [] syncs :=
  ⟨List.pairwise_singleton .., by simp [Table.empty]⟩

/-- What is done to a table whose schemas so far include the given ones leaves a table of the same
    chain, which may have grown, and is written down. -/
structure Continues (config : Config) (known : List Schema) (table : Table) (syncs : Syncs)
    (table' : Table) (syncs' : Syncs) : Prop where
  exists_past : ∀ past, table.Descends config past syncs → known ⊆ table.schema :: past →
    ∃ past', table'.Descends config past' syncs' ∧
      table.schema :: past ⊆ table'.schema :: past'

theorem Continues.of_same (known : List Schema) (hschema : table'.schema = table.schema)
    (hchunk : ∀ past, table.Descends config past syncs → known ⊆ table.schema :: past →
      ∀ (id : Nat) chunk, table'.chunks[id]? = some chunk →
        chunk.MadeUnder config.chunkSize (table.schema :: past) (syncs' id)) :
    Continues config known table syncs table' syncs' where
  exists_past past h hknown := by
    refine ⟨past, h.of_schema_eq hschema (hchunk past h hknown), ?_⟩
    rw [hschema]
    exact List.Subset.refl _

theorem Continues.of_next (known : List Schema) (hext : table.schema.Extends table'.schema)
    (hchunk : ∀ past, table.Descends config past syncs →
      ∀ (id : Nat) chunk, table'.chunks[id]? = some chunk →
        chunk.MadeUnder config.chunkSize (table'.schema :: table.schema :: past) (syncs' id)) :
    Continues config known table syncs table' syncs' where
  exists_past past h _ :=
    ⟨table.schema :: past, h.next hext (hchunk past h), List.subset_cons_self ..⟩

theorem Continues.refl (config : Config) (known : List Schema) (table : Table) (syncs : Syncs) :
    Continues config known table syncs table syncs :=
  .of_same known rfl fun _ h _ => h.chunk

theorem Continues.trans {known : List Schema} {table₁ table₂ : Table} {syncs₁ syncs₂ : Syncs}
    (h : Continues config known table syncs table₁ syncs₁)
    (h' : Continues config known table₁ syncs₁ table₂ syncs₂) :
    Continues config known table syncs table₂ syncs₂ where
  exists_past past hdescends hknown := by
    obtain ⟨past₁, hdescends₁, hsub₁⟩ := h.exists_past past hdescends hknown
    obtain ⟨past₂, hdescends₂, hsub₂⟩ :=
      h'.exists_past past₁ hdescends₁ (List.Subset.trans hknown hsub₁)
    exact ⟨past₂, hdescends₂, List.Subset.trans hsub₁ hsub₂⟩

theorem createColumn_continues (config : Config) (table : Table) (syncs : Syncs) (name : String)
    (kind : Kind) : Continues config [] table syncs (createColumn name kind table).2 syncs := by
  cases htaken : table.schema.isTaken name with
  | true =>
    rw [createColumn_of_taken htaken]
    exact .refl ..
  | false =>
    rw [createColumn_of_free htaken]
    refine .of_next [] (Schema.extends_addColumn ..) fun past h id chunk hchunk => ?_
    exact (h.chunk id chunk hchunk).mono (List.subset_cons_self ..)

theorem WellFormed.createIndex_continues (h : table.WellFormed config) (syncs : Syncs)
    (name source : String) (predicate : Value → Bool) :
    Continues config [] table syncs (Table.createIndex name source predicate table).2
      (syncs.createIndex name source predicate table) := by
  cases hreg : registerIndex table.schema name source predicate with
  | error e =>
    rw [Syncs.createIndex, createIndex_of_error hreg]
    exact .refl ..
  | ok result =>
    obtain ⟨schema, slot, index⟩ := result
    have hregisters := registers_of_ok h.schema hreg
    rw [Syncs.createIndex, createIndex_of_ok hreg]
    refine .of_next [] hregisters.extends_ fun past hdescends id chunk hchunk => ?_
    obtain ⟨old, hold, rfl⟩ := Option.map_eq_some_iff.mp ((Array.getElem?_map ..).symm.trans hchunk)
    have hold' := (hdescends.chunk id old hold).mono (List.subset_cons_self schema _)
    refine (hold'.sync List.mem_cons_self).rebuildIndex ?_ index _ _
    rw [Chunk.sync_indexes_size]
    exact (Array.getElem?_eq_some_iff.mp hregisters.registered).1.trans_le (le_max_right ..)

/-- The chunk that a new row makes necessary is made under the schema there is. -/
theorem WellFormed.descends_allocated (h : table.WellFormed config)
    (hdescends : table.Descends config past syncs) :
    (table.allocated config).Descends config past fun id =>
      if id < table.chunks.size then syncs id else [table.schema] := by
  have hsame : ∀ (id : Nat) chunk, table.chunks[id]? = some chunk →
      chunk.MadeUnder config.chunkSize (table.schema :: past)
        (if id < table.chunks.size then syncs id else [table.schema]) := by
    intro id chunk hchunk
    rw [if_pos (Array.getElem?_eq_some_iff.mp hchunk).1]
    exact hdescends.chunk id chunk hchunk
  rcases h.allocated_cases with ⟨-, heq⟩ | ⟨-, capacity, heq⟩
  · rw [heq]
    exact hdescends.of_schema_eq rfl hsame
  · rw [heq]
    refine hdescends.of_schema_eq rfl fun id chunk hchunk => ?_
    rw [Array.getElem?_push] at hchunk
    split_ifs at hchunk with hid
    · cases hchunk
      rw [if_neg hid.not_lt]
      exact MadeUnder.new List.mem_cons_self capacity
    · exact hsame id chunk hchunk

theorem WellFormed.insert_continues (h : table.WellFormed config) (syncs : Syncs)
    (record : Record) :
    Continues config [] table syncs (Table.insert config record table).2
      (syncs.insert config record table) := by
  cases hfind : (fields table.schema record).find? illTyped with
  | some field =>
    obtain ⟨slot, column, value⟩ := field
    rw [Syncs.insert, insert_of_illTyped hfind]
    exact .refl ..
  | none =>
    obtain ⟨cells, dictionaries, chunk, chunk', hencode, hget, hinsert, -⟩ := h.insert_chunk hfind
    rw [Syncs.insert, insert_of_chunk hfind hencode hget hinsert]
    refine .of_same [] rfl fun past hdescends _ id other hother => ?_
    have hroom := (h.descends_allocated hdescends).chunk
    rw [Array.getElem?_setIfInBounds] at hother
    dsimp only [Syncs.sync]
    split_ifs at hother with hid
    · subst hid
      cases hother
      rw [Function.update_self]
      have hmade := (hroom _ chunk hget).insert List.mem_cons_self dictionaries
        (table.nextRow % config.chunkSize) cells
      rwa [show (table.allocated config).schema = table.schema from rfl, hinsert] at hmade
    · rw [Function.update_of_ne (Ne.symm hid)]
      exact hroom id other hother

theorem deleteAt_continues (config : Config) (table : Table) (syncs : Syncs) (row : Nat) :
    Continues config [] table syncs (deleteAt config row table).2 syncs := by
  unfold Table.deleteAt
  split
  · exact .refl ..
  · have hchunks : ∀ past, table.Descends config past syncs → ∀ (id : Nat) chunk,
        (updateAt noChunk table.chunks (row / config.chunkSize) fun chunk =>
          chunk.delete (row % config.chunkSize)).2[id]? = some chunk →
        chunk.MadeUnder config.chunkSize (table.schema :: past) (syncs id) := fun past h =>
      forall_getElem?_updateAt noChunk _ h.chunk fun id chunk hchunk => hchunk.delete _
    dsimp only
    split <;> exact .of_same [] rfl fun past h _ => hchunks past h

theorem deleted_continues (config : Config) (table : Table) (syncs : Syncs)
    (selection : List Bitmap) (id : Nat) :
    Continues config [] table syncs (table.deleted selection id) syncs := by
  have hchunks : ∀ (selection : List Bitmap) (id : Nat) (chunks : Array Chunk)
      (known : List Schema), (∀ (other : Nat) chunk, chunks[other]? = some chunk →
        chunk.MadeUnder config.chunkSize known (syncs other)) →
      ∀ (other : Nat) chunk, (Transaction.deleteFrom selection id chunks).2[other]? = some chunk →
        chunk.MadeUnder config.chunkSize known (syncs other) := by
    intro selection
    induction selection with
    | nil => exact fun _ _ _ h => h
    | cons bits rest ih =>
      intro id chunks known h
      unfold Transaction.deleteFrom
      refine ih (id + 1) _ known ?_
      split_ifs
      · exact h
      · exact forall_getElem?_updateAt noChunk _ h fun other chunk hchunk =>
          hchunk.deleteSelected _
  exact .of_same [] rfl fun past h _ => hchunks selection id table.chunks _ h.chunk

/-- A write that is accepted syncs the chunk of its row. -/
theorem continues_of_edit (config : Config) {schema : Schema} {cursor : Nat → Cursor}
    (hcursor : ∀ offset, (cursor offset).schema = schema) {row : Nat} {edit : Edit}
    (hok : edit.answer = .ok ())
    (hedit : table.visitAt config cursor row edit.visit = (some edit.answer, table')) :
    Continues config [schema] table syncs table' (syncs.sync (row / config.chunkSize) schema) := by
  unfold visitAt at hedit
  cases hchunk : table.chunks[row / config.chunkSize]? with
  | none => simp [hchunk] at hedit
  | some chunk =>
    simp only [hchunk, Prod.mk.injEq, Option.some.injEq] at hedit
    obtain ⟨hanswer, rfl⟩ := hedit
    rw [hok] at hanswer
    refine .of_same [schema] rfl fun past h hknown id other hother => ?_
    rw [getElem?_withChunk hchunk] at hother
    unfold Syncs.sync
    split_ifs at hother with hid
    · subst hid
      cases hother
      rw [Function.update_self, ← hcursor (row % config.chunkSize)]
      have hmem : (cursor (row % config.chunkSize)).schema ∈ table.schema :: past := by
        rw [hcursor]
        exact hknown List.mem_cons_self
      have hmade := h.chunk _ chunk hchunk
      cases htarget : (cursor (row % config.chunkSize)).target? edit with
      | none =>
        obtain ⟨e, hrun⟩ := Cursor.run_edit_of_no_target htarget table.dictionaries chunk
        rw [hrun] at hanswer
        cases hanswer
      | some found =>
        have hrun := Cursor.run_edit_of_target? htarget table.dictionaries chunk
        rw [hrun] at hanswer ⊢
        exact Cursor.madeUnder_write _ hmem _ _ _ _ hanswer hmade
    · rw [Function.update_of_ne (Ne.symm hid)]
      exact h.chunk id other hother

/-- Rows can be written under any schema of the chain. -/
theorem Composes.continues {schema : Schema} {cursor : Nat → Cursor} {edits : List (Nat × Edit)}
    (h : Composes config cursor table edits table')
    (hcursor : ∀ offset, (cursor offset).schema = schema) :
    Continues config [schema] table syncs table' (syncs.pass config.chunkSize schema edits) := by
  induction h generalizing syncs with
  | nil => exact .refl ..
  | @cons table table₁ table₂ row edit rest hedit hrefused _ ih =>
    rw [Syncs.pass]
    cases hanswer : edit.answer with
    | ok _ => exact (continues_of_edit config hcursor hanswer hedit).trans ih
    | error e =>
      obtain ⟨-, rfl⟩ := hrefused e hanswer
      exact ih

end Table

/-! ## Tables read from bytes -/

namespace Chunk

variable {chunkSize : Nat} {schema : Schema} {chunk : Chunk}

/-- A chunk that was only ever made has the columns and indexes of the schema it was made under. -/
theorem MadeUnder.sizes_eq {known : List Schema}
    (h : chunk.MadeUnder chunkSize known [schema]) : chunk.sizes = schema.sizes := by
  refine h.history.sizes_eq List.mem_cons_self fun s hs => ?_
  rw [List.mem_singleton.mp hs]
  exact Schema.Extends.refl schema

theorem MadeUnder.revalidateChunk {known : List Schema}
    (h : chunk.MadeUnder chunkSize known [schema]) {slot : Nat}
    (hslot : slot < schema.indexes.size) (index : Index) (dictionary : Dictionary)
    (answers : Option (Array Bool)) :
    (Snapshot.revalidateChunk slot index dictionary answers chunk).MadeUnder chunkSize known
      [schema] := by
  unfold Snapshot.revalidateChunk
  split
  · exact h
  · split_ifs
    · exact h
    · exact h.setIndex (hslot.trans_eq (congrArg Prod.snd h.sizes_eq).symm) _

end Chunk

namespace Snapshot

open Reader (Yields)

variable {config : Config} {chunkCount watermark : Nat} {schema : Schema}
  {columns : List StoredColumn} {indexes : List StoredIndex} {fills : List Bitmap}

theorem PartsOk.madeUnder_chunksOf
    (h : PartsOk config.chunkSize chunkCount watermark schema columns indexes fills) :
    ∀ chunk ∈ chunksOf config.chunkSize columns indexes fills,
      chunk.MadeUnder config.chunkSize [schema] [schema] := by
  intro chunk hchunk
  obtain ⟨id, hid⟩ := Array.mem_iff_getElem?.mp hchunk
  rw [getElem?_chunksOf] at hid
  obtain ⟨fill, hfill, rfl⟩ := Option.map_eq_some_iff.mp hid
  have hlt : id < chunkCount := by
    rw [← h.fills_length]
    exact (List.getElem?_eq_some_iff.mp hfill).1
  exact ⟨List.Subset.refl _, .restore (h.size_segmentsAt hlt) (h.size_bitmapsAt hlt) fill⟩

/-- Comparing indexes with their predicates puts bitmaps in the place of others. -/
theorem madeUnder_revalidate {chunkSize : Nat} {table : Table}
    (h : ∀ chunk ∈ table.chunks, chunk.MadeUnder chunkSize [table.schema] [table.schema]) :
    ∀ chunk ∈ (revalidate table).chunks,
      chunk.MadeUnder chunkSize [table.schema] [table.schema] := by
  have hfold : ∀ (places : List (Index × Nat)) (chunks : Array Chunk),
      (∀ place ∈ places, place.2 < table.schema.indexes.size) →
      (∀ chunk ∈ chunks, chunk.MadeUnder chunkSize [table.schema] [table.schema]) →
      ∀ chunk ∈ places.foldl (fun chunks place => chunks.map
          (revalidateChunk place.2 place.1 (table.dictionary place.1.sourceSlot)
            (table.indexTable place.1))) chunks,
        chunk.MadeUnder chunkSize [table.schema] [table.schema] := by
    intro places
    induction places with
    | nil => exact fun _ _ h => h
    | cons place rest ih =>
      intro chunks hplaces hchunks
      rw [List.forall_mem_cons] at hplaces
      refine ih _ hplaces.2 fun chunk hchunk => ?_
      obtain ⟨old, hold, rfl⟩ := Array.mem_map.mp hchunk
      exact (hchunks old hold).revalidateChunk hplaces.1 ..
  exact hfold _ table.chunks (fun place hplace =>
    (Array.getElem?_eq_some_iff.mp (Schema.mem_zipIdx_iff.mp hplace)).1) h

/-- The chunks of a table read from bytes were made under its schema. -/
theorem descends_of_decode {registered : Schema} {bytes : Bytes} {table : Table}
    (h : decode config.chunkSize registered bytes = .ok table) :
    table.Descends config [] fun _ => [table.schema] := by
  obtain ⟨chunkCount, watermark, schema, columns, indexes, fills, hmade, -⟩ :=
    of_decode (yields_parts (fun _ => Yields.trivial _) fun _ _ => Yields.trivial _) h
  have hall := @madeUnder_revalidate config.chunkSize
    (tableOf config.chunkSize watermark schema columns indexes fills)
    hmade.parts.madeUnder_chunksOf
  rw [hmade.table_eq]
  exact ⟨List.pairwise_singleton .., fun _ chunk hchunk =>
    hall chunk (Array.mem_of_getElem? hchunk)⟩

end Snapshot

end ColumnStore
