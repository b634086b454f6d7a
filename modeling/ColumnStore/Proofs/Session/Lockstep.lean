import ColumnStore.Proofs.Chunk.Checked
import ColumnStore.Proofs.Session.Lineage
import ColumnStore.Proofs.Snapshot.Encode
import ColumnStore.Proofs.Table.Insert

/-!
# Chunks of a session

Segments and bitmaps of a chunk are looked up by slot, and places in them by offset, without a
question. What makes this safe is that the parts of a chunk go in step: they have one capacity, and
there are as many of them as the newest schema asks for that the chunk was synced with
(`Chunk.SyncedUpTo`). Which schemas these are is in the log of the session. A chunk may lag behind
the schema of its contents, by columns and indexes that were created after the last write to it.

* `Chunk.keepsInStep`: what makes, mends and replaces the parts of a chunk, all at once;
* `Table.WellFormed.insertChecked_ok`: a record that fits can be put wherever there is room;
* `Reachable.chunks_in_step`: in every session the parts of every chunk go in step, the chunks of
  retired contents included, and no operation on a chunk meets a place that is not there.
-/

namespace ColumnStore

/-! ## What keeps the parts in step -/

namespace Chunk

/-- A new chunk and one made of fitting parts are in step. Catching up with a schema, growing and
    replacing the bitmap of an index keep a chunk in step. None of them changes what the chunk
    holds, but for the one bitmap that is replaced. -/
structure KeepsInStep (chunkSize : Nat) : Prop where
  new : ∀ capacity schema, (Chunk.new chunkSize capacity schema).Lockstep chunkSize schema
  restore : ∀ (schema : Schema) (fill : Bitmap) (columns : Array Segment) (indexes : Array Bitmap),
    fill.capacity ≤ chunkSize →
    (∀ (slot : Nat) segment, columns[slot]? = some segment →
      ∃ column, schema.columns[slot]? = some column ∧
        segment.WellFormed column.kind segment.capacity ∧ segment.capacity ≤ chunkSize) →
    indexes.size ≤ schema.indexes.size → (∀ bits ∈ indexes, bits.capacity ≤ chunkSize) →
    (Chunk.restore chunkSize fill columns indexes).Lockstep chunkSize schema ∧
      Same ⟨0, 0, fill, columns, indexes⟩ (Chunk.restore chunkSize fill columns indexes)
  sync : ∀ (chunk : Chunk) newest under target, chunk.Lockstep chunkSize newest →
    newest.Extends target → under.Extends target →
    (chunk.sync under).Lockstep chunkSize target ∧ Same chunk (chunk.sync under)
  growFor : ∀ (chunk : Chunk) newest offset, chunk.Lockstep chunkSize newest →
    (chunk.growFor offset).2.Lockstep chunkSize newest ∧ Same chunk (chunk.growFor offset).2 ∧
      (offset < chunkSize → (chunk.growFor offset).1 = .ok () ∧
        offset < (chunk.growFor offset).2.capacity)
  setIndex : ∀ (chunk : Chunk) newest slot bits, chunk.Lockstep chunkSize newest →
    slot < chunk.indexes.size → bits.Fits chunk.capacity →
    (chunk.setIndex slot bits).Lockstep chunkSize newest ∧
      SameBut slot chunk (chunk.setIndex slot bits) ∧
      (chunk.setIndex slot bits).indexes[slot]? = some bits
  rebuildIndex : ∀ (chunk : Chunk) newest slot, chunk.Lockstep chunkSize newest →
    slot < chunk.indexes.size → ∀ index dictionary answers,
    (chunk.rebuildIndex slot index dictionary answers).Lockstep chunkSize newest ∧
      SameBut slot chunk (chunk.rebuildIndex slot index dictionary answers)

theorem keepsInStep {chunkSize : Nat} (h : minCapacity ≤ chunkSize) : KeepsInStep chunkSize where
  new capacity schema := (wellFormed_new h capacity schema #[]).lockstep
  restore _ _ _ _ hfill hcolumns hsize hindexes :=
    lockstep_restore h hfill hcolumns hsize hindexes
  sync chunk _ under _ hchunk hext hunder := ⟨hchunk.sync hext hunder, sync_same chunk under⟩
  growFor _ _ offset hchunk := hchunk.growFor offset
  setIndex _ _ _ bits hchunk hslot hbits :=
    ⟨hchunk.setIndex hslot hbits, setIndex_sameBut hslot bits, getElem?_setIndex_self hslot bits⟩
  rebuildIndex _ _ _ hchunk hslot index dictionary answers :=
    hchunk.rebuildIndex hslot index dictionary answers

/-- A chunk of contents with a schema, in step with the newest of the schemas it was synced with.
    Its bitmaps have no more words than the chunk size asks for, and no place is missing in it. -/
structure InStep (chunkSize : Nat) (current : Schema) (synced : List Schema) (chunk : Chunk)
    (newest : Schema) : Prop where
  extends_ : newest.Extends current
  syncedUpTo : chunk.SyncedUpTo chunkSize synced newest
  lockstep : chunk.Lockstep chunkSize newest
  sizes_eq : chunk.sizes = newest.sizes
  words_le : ∀ bits ∈ chunk.bitmaps, bits.words.size ≤ chunkSize / 64
  inBounds : chunk.InBounds newest

theorem WellFormed.inStep {chunkSize : Nat} (hdvd : 64 ∣ chunkSize) {chunk : Chunk}
    {current newest : Schema} {synced : List Schema} {dictionaries : Array Dictionary}
    (h : chunk.WellFormed chunkSize current dictionaries) (hext : newest.Extends current)
    (hsynced : chunk.SyncedUpTo chunkSize synced newest) :
    chunk.InStep chunkSize current synced newest := by
  have hsizes := hsynced.sizes_eq
  have hlockstep : chunk.Lockstep chunkSize newest :=
    h.lockstep.of_extends hext (congrArg Prod.fst hsizes).le (congrArg Prod.snd hsizes).le
  refine ⟨hext, hsynced, hlockstep, hsizes, fun bits hbits => ?_, hlockstep.inBounds⟩
  rw [Nat.le_div_iff_mul_le (by omega)]
  exact (hlockstep.fits bits hbits).capacity_le h.capacity_le hdvd

end Chunk

/-! ## Room for a record -/

/-- The cells of a record that fits can be put at any offset of any chunk that there is for the next
    row. -/
theorem Table.WellFormed.insertChecked_ok {config : Config} {table : Table}
    (h : table.WellFormed config) {record : Record}
    (hfits : checkFields (fields table.schema record) = .ok ()) :
    ∃ cells dictionaries,
      encodeFields table.dictionaries (fields table.schema record) = (.ok cells, dictionaries) ∧
        ∀ chunk ∈ (table.allocated config).chunks, ∀ offset < config.chunkSize, ∃ chunk',
          chunk.insert table.schema dictionaries offset cells = (.ok (), chunk') ∧
            chunk.insertChecked table.schema dictionaries offset cells = .ok chunk' := by
  have haccepts : ∀ field ∈ fields table.schema record, illTyped field = false := by
    rw [checkFields_eq] at hfits
    split at hfits
    · next hfind => simpa using hfind
    · cases hfits
  obtain ⟨cells, dictionaries, hencode, hall, -, hstorable, -⟩ :=
    encodeFields_of_accepts h.dictionaries_size (fun _ _ _ hmem => mem_fields hmem) haccepts
  refine ⟨cells, dictionaries, hencode, fun chunk hchunk offset hlt => ?_⟩
  obtain ⟨id, hid⟩ := Array.mem_iff_getElem?.mp hchunk
  have hwf := (h.allocated.1.chunk id chunk hid).wellFormed.of_allExtend hall
  obtain ⟨chunk', hinsert, -, -⟩ := Chunk.WellFormed.insert hwf hlt hstorable
  refine ⟨chunk', hinsert, ?_⟩
  have hslots : ∀ entry ∈ cells, entry.1 < table.schema.columns.size := fun entry hentry =>
    let ⟨⟨_, hcolumn, _⟩, _⟩ := hstorable entry hentry
    (Array.getElem?_eq_some_iff.mp hcolumn).1
  have hchecked := hwf.lockstep.insertChecked_eq (Schema.Extends.refl _) hslots dictionaries offset
  exact hchecked.trans (congrArg Chunk.ofAnswer hinsert)

/-! ## Chunks that are in use -/

namespace Session

variable {s : Session}

/-- A chunk in use, with its number and the generation of its contents: one of the collection, or
    one that an open transaction works on. -/
def Pins (s : Session) (generation id : Nat) (chunk : Chunk) : Prop :=
  generation = s.collection.generation ∧ s.collection.table.chunks[id]? = some chunk ∨
    ∃ t ∈ s.transactions, generation = t.generation ∧ t.chunk? s.collection id = some chunk

theorem WellFormed.getElem?_of_pins (h : s.WellFormed) {generation id : Nat} {chunk : Chunk}
    (hpins : s.Pins generation id chunk) :
    generation ≤ s.collection.generation ∧
      (s.collection.tableOf generation).chunks[id]? = some chunk := by
  rcases hpins with ⟨rfl, hchunk⟩ | ⟨t, ht, rfl, hchunk⟩
  · rw [Collection.tableOf_generation]
    exact ⟨le_rfl, hchunk⟩
  · unfold Transaction.chunk? at hchunk
    split_ifs at hchunk
    exact ⟨h.generation_le t ht, hchunk⟩

end Session

variable {s : Session}

/-- Every chunk in use is in step with the newest of the schemas that were written down of it. -/
theorem SyncLogOf.exists_inStep {log : SyncLog} (h : SyncLogOf s log) {generation id : Nat}
    {chunk : Chunk} (hpins : s.Pins generation id chunk) :
    ∃ newest, chunk.InStep s.collection.chunkSize (s.collection.tableOf generation).schema
      (log generation id) newest := by
  obtain ⟨hs, hdescends⟩ := h.descends
  obtain ⟨hle, hid⟩ := hs.wellFormed.getElem?_of_pins hpins
  obtain ⟨past, hdescends, -⟩ := hdescends.exists_past generation hle
  obtain ⟨newest, hsynced, hext⟩ := hdescends.exists_newest hid
  have hwf := (hs.holds.held generation hle).chunk id chunk hid
  have hdvd := Config.dvd_chunkSize_of_usable hs.wellFormed.table.usable
  exact ⟨newest, hwf.inStep hdvd hext hsynced⟩

/-- In every session the parts of every chunk in use go in step: those of the collection's chunks
    and of the chunks that an open transaction works on, whatever was loaded since. The schemas that
    the chunk was synced with are the ones in the log that goes along with the session. A record
    that fits can be put anywhere in any chunk there is for the next row, and no place is missing on
    the way. For the chunk size of the session, whatever makes, mends or replaces parts keeps them
    in step. -/
theorem Reachable.chunks_in_step (h : Reachable s) :
    (∃ log, SyncLogOf s log) ∧
    (∀ log, SyncLogOf s log → ∀ generation id chunk, s.Pins generation id chunk →
      ∃ newest, chunk.InStep s.collection.chunkSize (s.collection.tableOf generation).schema
        (log generation id) newest) ∧
    (∀ record,
      Table.checkFields (Table.fields s.collection.table.schema record) = .ok () →
      ∃ cells dictionaries,
        Table.encodeFields s.collection.table.dictionaries
            (Table.fields s.collection.table.schema record) = (.ok cells, dictionaries) ∧
        ∀ chunk ∈ (s.collection.table.allocated s.collection.config).chunks,
          ∀ offset < s.collection.chunkSize, ∃ chunk',
            chunk.insert s.collection.table.schema dictionaries offset cells = (.ok (), chunk') ∧
              chunk.insertChecked s.collection.table.schema dictionaries offset cells =
                .ok chunk') ∧
    Chunk.KeepsInStep s.collection.chunkSize :=
  ⟨h.exists_syncLog, fun _ hlog _ _ _ hpins => hlog.exists_inStep hpins,
    fun _ hfits => h.wellFormed.table.insertChecked_ok hfits,
    Chunk.keepsInStep (Config.chunkSize_of_usable h.wellFormed.table.usable).1⟩

/-- The chunk of the flags was made for the first row and synced for it, for the index and for the
    second row. It has room for the fewest rows that a chunk can have room for, and its segment and
    its index bitmap are in step with the schema. A third flag could be put at the last offset of
    the chunk. -/
theorem chunks_in_step_flags :
    ∃ log chunk newest, SyncLogOf Session.flags log ∧
      chunk ∈ Session.flags.collection.table.chunks ∧
      chunk.InStep 16384 Session.flags.collection.table.schema (log 0 0) newest ∧
      (log 0 0).map Schema.sizes = [(1, 1), (1, 1), (1, 0), (1, 0)] ∧
      chunk.capacity = 64 ∧ newest.sizes = (1, 1) ∧
      ∃ dictionaries chunk', chunk.insertChecked Session.flags.collection.table.schema dictionaries
        16383 [(0, .bool true)] = .ok chunk' := by
  obtain ⟨-, hinStep, hinsert, -⟩ := reachable_flags.chunks_in_step
  obtain ⟨log, hlog, hsynced⟩ : ∃ log, SyncLogOf Session.flags log ∧
      (log 0 0).map Schema.sizes = [(1, 1), (1, 1), (1, 0), (1, 0)] :=
    ⟨_, (SyncLogOf.new 2).run _, by decide +kernel⟩
  have hgen : Session.flags.collection.generation = 0 := by decide +kernel
  have hroom : (Session.flags.collection.table.allocated Session.flags.collection.config).chunks =
      Session.flags.collection.table.chunks := by cbv
  have hchunk : Session.flags.collection.table.chunks[0]?.map
      (fun chunk => (chunk.capacity, chunk.sizes)) = some (64, 1, 1) := by decide +kernel
  obtain ⟨chunk, hchunk, heq⟩ := Option.map_eq_some_iff.mp hchunk
  obtain ⟨hcapacity, hsizes⟩ := Prod.ext_iff.mp heq
  have hmem := Array.mem_of_getElem? hchunk
  obtain ⟨newest, hnewest⟩ := hinStep log hlog 0 0 chunk (.inl ⟨hgen.symm, hchunk⟩)
  rw [Collection.tableOf_of_le hgen.le] at hnewest
  obtain ⟨cells, dictionaries, hcells, hput⟩ := hinsert [("flag", .bool true)] (by cbv)
  obtain ⟨chunk', -, hchecked⟩ := hput chunk (hroom ▸ hmem) 16383 (by decide +kernel)
  have hencode : (Table.encodeFields Session.flags.collection.table.dictionaries
      (Table.fields Session.flags.collection.table.schema [("flag", .bool true)])).1 =
        .ok [(0, .bool true)] := by cbv
  rw [hcells] at hencode
  obtain rfl := Except.ok.inj hencode
  exact ⟨log, chunk, newest, hlog, hmem, hnewest, hsynced, hcapacity,
    hnewest.sizes_eq.symm.trans hsizes, dictionaries, chunk', hchecked⟩

end ColumnStore
