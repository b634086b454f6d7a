import ColumnStore.Proofs.Snapshot.Accepted
import ColumnStore.Proofs.Snapshot.Registered
import ColumnStore.Proofs.Table.Define

/-!
# Predicates registered before and after

`decode_attach`: bytes that are read where a predicate is registered for one of their indexes make
the same table as bytes that are read where none is, after the predicate was attached.

Before, the bitmap of a chunk is replaced if it does not list what the predicate picks; after, it is
replaced in any case. Either way it fits the chunk and marks what the predicate picks, and there is
one bitmap only that does (`Chunk.WellFormed.eq_of_indexed`). So it does not matter which bits, and
how many words, the bytes had.
-/

namespace ColumnStore

namespace Chunk

variable {chunkSize : Nat} {schema : Schema} {dictionaries : Array Dictionary}
  {chunk chunk' : Chunk}

/-! ## Chunks that differ in their index bitmaps -/

/-- Chunks with the same room, live rows and segments. -/
structure SameCells (a b : Chunk) : Prop where
  capacity : b.capacity = a.capacity
  fill : b.fill = a.fill
  columns : b.columns = a.columns

theorem SameCells.symm {a b : Chunk} (h : SameCells a b) : SameCells b a :=
  ⟨h.capacity.symm, h.fill.symm, h.columns.symm⟩

theorem SameCells.trans {a b c : Chunk} (h : SameCells a b) (h' : SameCells b c) : SameCells a c :=
  ⟨h'.capacity.trans h.capacity, h'.fill.trans h.fill, h'.columns.trans h.columns⟩

/-- Beside its cells and live rows, a chunk in which attached indexes agree with their predicates is
    determined by the bits of the detached ones. -/
theorem WellFormed.eq_of_indexed (h : chunk.WellFormed chunkSize schema dictionaries)
    (h' : chunk'.WellFormed chunkSize schema dictionaries)
    (hindexed : chunk.Indexed schema dictionaries) (hindexed' : chunk'.Indexed schema dictionaries)
    (hcells : SameCells chunk chunk')
    (hdetached : ∀ (slot : Nat) index, schema.indexes[slot]? = some index →
      index.predicate = none → ∀ offset, chunk'.marks slot offset = chunk.marks slot offset) :
    chunk' = chunk := by
  have hmarks : ∀ slot < schema.indexes.size, ∀ offset,
      chunk'.marks slot offset = chunk.marks slot offset := by
    intro slot hslot offset
    have hindex : schema.indexes[slot]? = some schema.indexes[slot] :=
      Array.getElem?_eq_getElem hslot
    cases hpredicate : schema.indexes[slot].predicate with
    | none => exact hdetached slot _ hindex hpredicate offset
    | some predicate =>
      rw [hindexed slot _ predicate hindex hpredicate, hindexed' slot _ predicate hindex hpredicate,
        cell?, cell?, hcells.columns]
  have hsize := h.indexes_size
  have hsize' := h'.indexes_size
  have hindexes : chunk'.indexes = chunk.indexes := by
    refine Array.ext (hsize'.trans hsize.symm) fun slot hlt' hlt => ?_
    have hbits : chunk.indexes[slot]? = some chunk.indexes[slot] := Array.getElem?_eq_getElem hlt
    have hbits' : chunk'.indexes[slot]? = some chunk'.indexes[slot] :=
      Array.getElem?_eq_getElem hlt'
    have hfits := h'.index slot _ hbits'
    rw [hcells.capacity] at hfits
    refine hfits.eq_of_contains (h.index slot _ hbits) fun offset _ => ?_
    have hmark := hmarks slot (hsize ▸ hlt) offset
    rwa [marks, marks, hbits, hbits', Option.any_some, Option.any_some] at hmark
  have hchunkSize : chunk'.chunkSize = chunk.chunkSize := h'.chunkSize_eq.trans h.chunkSize_eq.symm
  obtain ⟨hcapacity, hfill, hcolumns⟩ := hcells
  cases chunk
  cases chunk'
  simp only at hchunkSize hcapacity hfill hcolumns hindexes
  rw [hchunkSize, hcapacity, hfill, hcolumns, hindexes]

/-! ## Rebuilding an index -/

/-- A chunk that has all columns does not catch up. -/
theorem sameCells_sync (h : chunk.columns.size = schema.columns.size) :
    SameCells chunk (chunk.sync schema) := by
  refine ⟨rfl, rfl, Array.ext_getElem? fun slot => ?_⟩
  rw [getElem?_sync_columns]
  split_ifs with hlt
  · rfl
  · have hpast : schema.columns[slot]? = none := Array.getElem?_eq_none (by omega)
    rw [hpast, Array.getElem?_eq_none (by omega)]
    rfl

theorem sameCells_rebuildIndex (chunk : Chunk) (slot : Nat) (index : Index)
    (dictionary : Dictionary) (answers : Option (Array Bool)) :
    SameCells chunk (chunk.rebuildIndex slot index dictionary answers) := by
  unfold rebuildIndex
  split
  · exact ⟨rfl, rfl, rfl⟩
  · split <;> exact ⟨rfl, rfl, rfl⟩

theorem WellFormed.registeredIn (h : chunk.WellFormed chunkSize schema dictionaries)
    (registered : Schema) : chunk.WellFormed chunkSize (schema.registeredIn registered)
      dictionaries :=
  { h with indexes_size := h.indexes_size.trans (Array.size_map ..).symm }

end Chunk

/-! ## Registering -/

namespace Schema

variable {schema : Schema}

theorem getElem?_registeredIn (schema registered : Schema) (slot : Nat) :
    (schema.registeredIn registered).indexes[slot]? =
      schema.indexes[slot]?.map (·.registeredIn registered) :=
  Array.getElem?_map ..

theorem WellFormed.registeredIn (h : schema.WellFormed) (registered : Schema) :
    (schema.registeredIn registered).WellFormed where
  columns_nodup := h.columns_nodup
  indexes_nodup := by
    rw [map_name_registeredIn]
    exact h.indexes_nodup
  disjoint := by
    rw [map_name_registeredIn]
    exact h.disjoint
  source index hmem := by
    obtain ⟨old, hold, rfl⟩ := Array.mem_map.mp hmem
    exact h.source old hold

/-- Indexes of one name are in one slot. -/
theorem WellFormed.slot_eq_of_name_eq (h : schema.WellFormed) {slot slot' : Nat}
    {index index' : Index} (hindex : schema.indexes[slot]? = some index)
    (hindex' : schema.indexes[slot']? = some index') (hname : index'.name = index.name) :
    slot' = slot := by
  have hsame := (h.indexSlot?_eq_some_iff.mpr ⟨index', hindex', hname⟩).symm.trans
    (h.indexSlot?_eq_some_iff.mpr ⟨index, hindex, rfl⟩)
  exact Option.some.inj hsame

open Snapshot (registered?)

/-- Where all other indexes have the same predicates registered, one index makes the difference. -/
theorem WellFormed.replaceIndex_registeredIn (h : schema.WellFormed) {slot : Nat} {index : Index}
    (hindex : schema.indexes[slot]? = some index) {registered registered' : Schema}
    (hothers : ∀ name source, name ≠ index.name →
      registered? registered' name source = registered? registered name source) :
    (schema.registeredIn registered').replaceIndex slot (index.registeredIn registered) =
      schema.registeredIn registered := by
  refine congrArg (Schema.mk schema.columns) (Array.ext_getElem? fun slot' => ?_)
  rw [Array.getElem?_modify]
  split_ifs with hsame
  · rw [← hsame, getElem?_registeredIn, Array.getElem?_map, hindex]
    rfl
  · rw [getElem?_registeredIn, Array.getElem?_map]
    cases hother : schema.indexes[slot']? with
    | none => rfl
    | some other =>
      have hname : other.name ≠ index.name := fun hname =>
        hsame (h.slot_eq_of_name_eq hindex hother hname).symm
      rw [Option.map_some, Option.map_some, Index.registeredIn, Index.registeredIn,
        hothers other.name other.source hname]

/-- An index that one collection has registered, and another has not, can be registered there, and
    then the schemas are the same. -/
theorem WellFormed.registerIndex_registeredIn (h : schema.WellFormed) {slot : Nat} {index : Index}
    (hindex : schema.indexes[slot]? = some index) {registered registered' : Schema}
    {predicate : Value → Bool}
    (hpredicate : registered? registered index.name index.source = some predicate)
    (hfree : registered? registered' index.name index.source = none)
    (hothers : ∀ name source, name ≠ index.name →
      registered? registered' name source = registered? registered name source) :
    Table.registerIndex (schema.registeredIn registered') index.name index.source predicate =
      .ok (schema.registeredIn registered, slot, index.registeredIn registered) := by
  have h' := h.registeredIn registered'
  obtain ⟨column, hcolumn, hsource⟩ := h.source index (Array.mem_of_getElem? hindex)
  have hfound : (schema.registeredIn registered').column? index.source =
      some (index.sourceSlot, column) := h'.column?_eq_some_iff.mpr ⟨hcolumn, hsource⟩
  have hslot : (schema.registeredIn registered').indexes[slot]? =
      some (index.registeredIn registered') := by
    rw [getElem?_registeredIn, hindex, Option.map_some]
  have hlookup : (schema.registeredIn registered').lookup index.name = some (.index slot) :=
    h'.lookup_eq_index_iff.mpr ⟨_, hslot, rfl⟩
  have hguard : ((index.registeredIn registered').isAttached ||
      (index.registeredIn registered').source != index.source) = false := by
    rw [Bool.or_eq_false_iff]
    refine ⟨?_, bne_eq_false_iff_eq.mpr rfl⟩
    show (registered? registered' index.name index.source).isSome = false
    rw [hfree]
    rfl
  have hattach : (index.registeredIn registered').attach predicate =
      index.registeredIn registered := by
    rw [Index.attach, Index.registeredIn, Index.registeredIn, hpredicate]
  have hschema := h.replaceIndex_registeredIn hindex hothers
  unfold Table.registerIndex
  simp only [hfound, hlookup, hslot, hguard, hattach, hschema, Bool.false_eq_true, if_false]

end Schema

/-! ## Tables -/

namespace Table

variable {config : Config} {table : Table}

open Snapshot (Accepted revalidate)

/-- A chunk after the registered predicates came in. -/
theorem WellFormed.chunk_registeredIn (h : table.WellFormed config) (ha : Accepted table)
    (registered : Schema) {id : Nat} {chunk : Chunk} (hchunk : table.chunks[id]? = some chunk) :
    ∃ chunk', (revalidate (table.registeredIn registered)).chunks[id]? = some chunk' ∧
      chunk'.WellFormed config.chunkSize (table.schema.registeredIn registered)
        table.dictionaries ∧
      chunk.Revalidated (table.schema.registeredIn registered) table.dictionaries chunk' ∧
      Chunk.SameCells chunk chunk' := by
  have hwf := (h.chunk id chunk hchunk).wellFormed.registeredIn registered
  obtain ⟨chunk', hchunk', hwf', hrevalidated⟩ := getElem?_revalidate
    (table.registeredIn registered) (h.schema.registeredIn registered) hchunk hwf
    (ha.columns_size chunk (Array.mem_of_getElem? hchunk))
  have hcapacity := capacity_revalidate (table.registeredIn registered) id
  rw [hchunk', show (table.registeredIn registered).chunks[id]? = some chunk from hchunk,
    Option.map_some, Option.map_some, Option.some.injEq] at hcapacity
  exact ⟨chunk', hchunk', hwf', hrevalidated, hcapacity, hrevalidated.fill, hrevalidated.columns⟩

/-- A chunk that has all columns, after an index was computed anew. -/
theorem sameCells_withIndex {schema : Schema} {slot : Nat} {index : Index} {id : Nat}
    {chunk chunk' : Chunk} (hchunk : table.chunks[id]? = some chunk)
    (hchunk' : (table.withIndex schema slot index).chunks[id]? = some chunk')
    (hcolumns : chunk.columns.size = schema.columns.size) : Chunk.SameCells chunk chunk' := by
  rw [withIndex, Array.getElem?_map, hchunk, Option.map_some, Option.some.injEq] at hchunk'
  rw [← hchunk']
  exact (Chunk.sameCells_sync hcolumns).trans (Chunk.sameCells_rebuildIndex ..)

end Table

namespace Snapshot

variable {config : Config} {table : Table} {registered registered' : Schema}

section Attached

variable (h : table.WellFormed config) (ha : Accepted table)
  (h' : (revalidate (table.registeredIn registered')).WellFormed config) {slot : Nat}
  {index : Index} (hindex : table.schema.indexes[slot]? = some index) {predicate : Value → Bool}
  (hpredicate : registered? registered index.name index.source = some predicate)
  (hregister : Table.registerIndex (table.schema.registeredIn registered') index.name index.source
    predicate = .ok (table.schema.registeredIn registered, slot, index.registeredIn registered))

include h ha h' hindex hpredicate hregister

/-- Chunk by chunk, whatever bits the index came with. -/
theorem chunk_withIndex_registeredIn {id : Nat} {chunk : Chunk}
    (hchunk : table.chunks[id]? = some chunk) :
    ((revalidate (table.registeredIn registered')).withIndex (table.schema.registeredIn registered)
        slot (index.registeredIn registered)).chunks[id]? =
      (revalidate (table.registeredIn registered)).chunks[id]? := by
  have hregisters := Table.registers_of_ok h'.schema hregister
  obtain ⟨before, hbefore, hwf, hrevalidated, hcells⟩ := h.chunk_registeredIn ha registered hchunk
  obtain ⟨detached, hdetached, -, hrevalidated', hcells'⟩ :=
    h.chunk_registeredIn ha registered' hchunk
  obtain ⟨after, hafter, hok, -, -, hothers⟩ := h'.rebuilt hregisters hdetached
  have hcolumns : detached.columns.size = (table.schema.registeredIn registered).columns.size := by
    rw [hcells'.columns]
    exact ha.columns_size chunk (Array.mem_of_getElem? hchunk)
  have hsame : Chunk.SameCells before after :=
    hcells.symm.trans (hcells'.trans (Table.sameCells_withIndex hdetached hafter hcolumns))
  rw [hbefore, hafter]
  refine congrArg some (hwf.eq_of_indexed hok.wellFormed hrevalidated.indexed hok.indexed hsame
    fun slot' found hfound hnone offset => ?_)
  -- a detached index is another one, and keeps the bits it came with
  have hne : slot' ≠ slot := by
    rintro rfl
    rw [Schema.getElem?_registeredIn, hindex, Option.map_some, Option.some.injEq] at hfound
    subst hfound
    rw [Index.registeredIn, hpredicate] at hnone
    cases hnone
  have hfound' : (table.schema.registeredIn registered').indexes[slot']? = some found := by
    rw [← hfound]
    exact (hregisters.others slot' hne).symm
  rw [hothers slot' offset hne, hrevalidated'.detached slot' found hfound' hnone,
    hrevalidated.detached slot' found hfound hnone]

/-- Attaching a predicate to an index that came without one makes the table that would have been
    made had the predicate been registered. -/
theorem withIndex_registeredIn :
    (revalidate (table.registeredIn registered')).withIndex (table.schema.registeredIn registered)
        slot (index.registeredIn registered) = revalidate (table.registeredIn registered) := by
  have hchunks : ((revalidate (table.registeredIn registered')).withIndex
      (table.schema.registeredIn registered) slot (index.registeredIn registered)).chunks =
        (revalidate (table.registeredIn registered)).chunks := by
    refine Array.ext_getElem? fun id => ?_
    cases hchunk : table.chunks[id]? with
    | some chunk =>
      exact chunk_withIndex_registeredIn h ha h' hindex hpredicate hregister hchunk
    | none =>
      have hsize : table.chunks.size ≤ id := Array.getElem?_eq_none_iff.mp hchunk
      rw [Array.getElem?_eq_none, Array.getElem?_eq_none]
      · rw [Table.size_revalidate]
        exact hsize
      · rw [Table.withIndex, Array.size_map, Table.size_revalidate]
        exact hsize
  exact congrArg (fun chunks => Table.mk (table.schema.registeredIn registered) table.dictionaries
    chunks table.nextRow table.live) hchunks

end Attached

/-- Bytes read where a predicate is registered for one of their indexes, and read where it is not
    and the predicate attached then. -/
theorem decode_attach (husable : config.fault? = none) {bytes : Bytes} {before after : Table}
    (hbefore : decode config.chunkSize registered bytes = .ok before)
    (hafter : decode config.chunkSize registered' bytes = .ok after) {index : Index}
    (hindex : index ∈ before.schema.indexes) {predicate : Value → Bool}
    (hpredicate : registered? registered index.name index.source = some predicate)
    (hfree : registered? registered' index.name index.source = none)
    (hothers : ∀ name source, name ≠ index.name →
      registered? registered' name source = registered? registered name source) :
    Table.createIndex index.name index.source predicate after = (.ok (), before) := by
  have hafter' := wellFormed_of_decode husable hafter
  rw [decode_eq] at hbefore hafter
  cases hbare : decode config.chunkSize .empty bytes with
  | error cause =>
    rw [hbare] at hbefore
    cases hbefore
  | ok table =>
    rw [hbare] at hbefore hafter
    obtain rfl : revalidate (table.registeredIn registered) = before := Except.ok.inj hbefore
    obtain rfl : revalidate (table.registeredIn registered') = after := Except.ok.inj hafter
    have h := wellFormed_of_decode husable hbare
    have ha := accepted_of_decode husable hbare
    obtain ⟨old, hmem, rfl⟩ := Array.mem_map.mp hindex
    obtain ⟨slot, hslot⟩ := Array.mem_iff_getElem?.mp hmem
    have hregister := h.schema.registerIndex_registeredIn hslot hpredicate hfree hothers
    rw [← withIndex_registeredIn h ha hafter' hslot hpredicate hregister]
    exact Table.createIndex_of_ok hregister

end Snapshot

end ColumnStore
