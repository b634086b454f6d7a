import ColumnStore.Proofs.Segment.Scan
import ColumnStore.Proofs.Snapshot.Encode

/-!
# Tables that were read

Bytes that are accepted as a snapshot need not be the snapshot of any collection, but the table made
of them is one that has a snapshot. `accepted_of_decode`: everything in it fits the stored form,
every chunk has a segment for every column, and the capacity of a chunk is a power of two.
-/

namespace ColumnStore

open Reader (Yields)

/-! ## Parts that fit the stored form -/

theorem Cell.yields_encodable (kind : Kind) :
    Yields (Cell.read kind) Cell.Encodable := by
  cases kind with
  | float64 => exact Yields.bind_any fun bits => Yields.pure trivial
  | bool => exact Yields.bind_any fun byte => Yields.pure trivial
  | enum => exact (Reader.yields_nat 4 _).bind fun id hid => Yields.pure hid
  | any =>
    refine (Reader.yields_nat 4 _).bind fun length hlength => ?_
    refine (Reader.yields_take length _).bind fun bytes hbytes => ?_
    cases hdecode : Value.decode? bytes with
    | none => exact Yields.fail _ _
    | some v =>
      obtain ⟨hcanonical, hle⟩ := Value.of_decode? hdecode
      exact Yields.pure ⟨hcanonical, by omega⟩

theorem Segment.yields_encodable (kind : Kind) (chunkSize : Nat) :
    Yields (Segment.read kind chunkSize) fun s =>
      ∀ offset cell, s.cell? offset = some cell → cell.Encodable := by
  refine Yields.bind_any fun code => ?_
  cases Kind.ofCode? code with
  | none => exact Yields.fail _ _
  | some found =>
    refine Yields.require_bind fun _ => Yields.bind_any fun capacity => ?_
    refine Yields.require_bind fun _ => Yields.bind_any fun presence => ?_
    refine Yields.require_bind fun _ => Yields.bind_any fun _ => ?_
    refine (Yields.mapM fun _ _ => (Cell.yields_read kind).and
      (Cell.yields_encodable kind)).bind fun cells hcells => Yields.pure ?_
    have hroom : ∀ entry ∈ presence.toList.zip cells,
        entry.1 < (presence.toList.getLast?.map (· + 1)).getD 0 ∧ entry.2.kind = kind :=
      fun entry hentry => ⟨lt_used presence.toList_pairwise (List.of_mem_zip hentry).1,
        (hcells.2 _ (List.of_mem_zip hentry).2).1⟩
    intro offset cell hcell
    have hwritten := ((wellFormed_withCapacity kind _).putAll hroom).2 offset
    rw [cell?_withCapacity, Option.or_none] at hwritten
    have hmem := Chunk.mem_of_written (hwritten.symm.trans hcell)
    exact (hcells.2 cell (List.of_mem_zip hmem).2).2

theorem Dictionary.yields_sizes :
    Yields Dictionary.read fun d => d.entries.size < 2 ^ 32 ∧ d.data.size < 2 ^ 32 := by
  refine Yields.bind_any fun _ => (Reader.yields_nat 4 _).bind fun count hcount => ?_
  refine (Reader.yields_nat 4 _).bind fun size hsize => ?_
  refine (Reader.yields_take _ _).bind fun places hplaces => ?_
  refine (Reader.yields_take _ _).bind fun data hdata => ?_
  refine (Yields.mapM fun place _ => Yields.trivial _).bind fun entries hentries => Yields.pure ?_
  refine ⟨?_, ?_⟩
  · show entries.toArray.size < 2 ^ 32
    rw [List.size_toArray, hentries.1, (length_placesOf hplaces).1]
    exact hcount
  · show data.toArray.size < 2 ^ 32
    rw [List.size_toArray, hdata]
    exact hsize

namespace Snapshot

/-- A column as it is read, in terms of its stored form. -/
structure ColumnFits (stored : StoredColumn) : Prop where
  name : stored.column.name.utf8ByteSize < 2 ^ 32
  dictionary : stored.dictionary.entries.size < 2 ^ 32 ∧ stored.dictionary.data.size < 2 ^ 32
  encodable : ∀ s ∈ stored.segments, ∀ offset cell, s.cell? offset = some cell → cell.Encodable

theorem yields_columnFits (chunkSize chunkCount : Nat) :
    Yields (readColumn chunkSize chunkCount) ColumnFits := by
  refine (Reader.yields_string _).bind fun name hname => Yields.bind_any fun code => ?_
  cases Kind.ofCode? code with
  | none => exact Yields.fail _ _
  | some kind =>
    have hdictionary : Yields (readDictionary kind) fun d =>
        d.entries.size < 2 ^ 32 ∧ d.data.size < 2 ^ 32 := by
      unfold readDictionary
      split_ifs
      · exact Dictionary.yields_sizes
      · exact Yields.pure ⟨Nat.two_pow_pos 32, Nat.two_pow_pos 32⟩
    refine hdictionary.bind fun dictionary hsizes => ?_
    have hsegment : Yields (readSegment ⟨name, kind⟩ dictionary chunkSize) fun s =>
        ∀ offset cell, s.cell? offset = some cell → cell.Encodable :=
      (Segment.yields_encodable kind chunkSize).bind fun s hs =>
        Yields.require_bind fun _ => Yields.pure hs
    refine (hsegment.replicate chunkCount).bind fun segments hsegments => ?_
    exact Yields.pure ⟨hname, hsizes, hsegments.2⟩

theorem yields_indexName (registered schema : Schema) (chunkSize chunkCount : Nat) :
    Yields (readIndex registered schema chunkSize chunkCount) fun stored =>
      stored.index.name.utf8ByteSize < 2 ^ 32 := by
  refine (Reader.yields_string _).bind fun name hname => Yields.bind_any fun source => ?_
  cases schema.column? source with
  | none => exact Yields.fail _ _
  | some found => exact Yields.bind_any fun bitmaps => Yields.pure hname

end Snapshot

/-! ## Capacities -/

namespace Chunk

variable {chunkSize : Nat} {fill : Bitmap} {columns : Array Segment} {indexes : Array Bitmap}

theorem exists_pow_powerOfTwoFrom (n : Nat) : ∃ k, powerOfTwoFrom n = 2 ^ k := by
  unfold powerOfTwoFrom
  split_ifs
  · exact ⟨0, rfl⟩
  · exact ⟨_, Nat.one_shiftLeft _⟩

theorem exists_pow_clampCapacity {m k : Nat} : ∃ n, clampCapacity (2 ^ m) (2 ^ k) = 2 ^ n := by
  have hpower : Monotone fun n : Nat => 2 ^ n := fun _ _ h => Nat.pow_le_pow_right Nat.two_pos h
  have hmin : ∀ a b : Nat, min (2 ^ a) (2 ^ b) = 2 ^ min a b := fun a b => hpower.map_min.symm
  have hmax : ∀ a b : Nat, max (2 ^ a) (2 ^ b) = 2 ^ max a b := fun a b => hpower.map_max.symm
  have hleast : minCapacity = 2 ^ 6 := rfl
  exact ⟨_, by rw [clampCapacity, hleast, hmin, hmax, hmin]⟩

/-- Parts that are put together are given a power of two of room. -/
theorem exists_pow_restore {m : Nat} (fill : Bitmap) (columns : Array Segment)
    (indexes : Array Bitmap) : ∃ k, (restore (2 ^ m) fill columns indexes).capacity = 2 ^ k := by
  obtain ⟨k, hk⟩ := exists_pow_powerOfTwoFrom
    (max (columns.foldl (fun n segment => max n segment.capacity) fill.capacity)
      (indexes.foldl (fun n bits => max n bits.capacity) 0))
  show ∃ n, clampCapacity (2 ^ m) (powerOfTwoFrom _) = 2 ^ n
  rw [hk]
  exact exists_pow_clampCapacity

/-- Parts that already have the same power of two of room, or less, are given no more. -/
theorem capacity_restore_eq {k : Nat} (hle : minCapacity ≤ 2 ^ k) (hsize : 2 ^ k ≤ chunkSize)
    (hfill : fill.capacity = 2 ^ k) (hcolumns : ∀ segment ∈ columns, segment.capacity ≤ 2 ^ k)
    (hindexes : ∀ bits ∈ indexes, bits.capacity ≤ 2 ^ k) :
    (restore chunkSize fill columns indexes).capacity = 2 ^ k := by
  obtain ⟨hc, -, hclimit⟩ := foldl_max_spec Segment.capacity columns.toList fill.capacity
  obtain ⟨-, -, hilimit⟩ := foldl_max_spec Bitmap.capacity indexes.toList 0
  have hcmax := hclimit (2 ^ k) hfill.le fun s hs => hcolumns s (by simpa using hs)
  have himax := hilimit (2 ^ k) (Nat.zero_le _) fun b hb => hindexes b (by simpa using hb)
  rw [Array.foldl_toList] at hc hcmax himax
  have hwidest : max (columns.foldl (fun n segment => max n segment.capacity) fill.capacity)
      (indexes.foldl (fun n bits => max n bits.capacity) 0) = 2 ^ k := by omega
  have hpower : powerOfTwoFrom (2 ^ k) = 2 ^ k :=
    Nat.le_antisymm (powerOfTwoFrom_le le_rfl) (le_powerOfTwoFrom _)
  show clampCapacity chunkSize (powerOfTwoFrom (max _ _)) = 2 ^ k
  rw [hwidest, hpower]
  unfold clampCapacity
  omega

theorem capacity_revalidateChunk (slot : Nat) (index : Index) (dictionary : Dictionary)
    (answers : Option (Array Bool)) (chunk : Chunk) :
    (Snapshot.revalidateChunk slot index dictionary answers chunk).capacity = chunk.capacity := by
  unfold Snapshot.revalidateChunk
  split
  · rfl
  · split_ifs <;> rfl

end Chunk

/-- Comparing indexes with their predicates leaves capacities as they are. -/
theorem Table.capacity_revalidate (table : Table) (id : Nat) :
    (Snapshot.revalidate table).chunks[id]?.map Chunk.capacity =
      table.chunks[id]?.map Chunk.capacity := by
  have hfold := getElem?_foldl_map (fun (p : Index × Nat) => Snapshot.revalidateChunk p.2 p.1
    (table.dictionary p.1.sourceSlot) (table.indexTable p.1)) table.schema.indexes.toList.zipIdx
    table.chunks id
  have hcapacity : ∀ (places : List (Index × Nat)) (chunk : Chunk),
      (places.foldl (fun chunk p => Snapshot.revalidateChunk p.2 p.1
        (table.dictionary p.1.sourceSlot) (table.indexTable p.1) chunk) chunk).capacity =
        chunk.capacity := by
    intro places
    induction places with
    | nil => exact fun chunk => rfl
    | cons p rest ih => exact fun chunk => (ih _).trans (Chunk.capacity_revalidateChunk ..)
  show Option.map Chunk.capacity (List.foldl _ table.chunks _)[id]? = _
  rw [hfold, Option.map_map]
  exact congrArg (table.chunks[id]?.map ·) (funext fun chunk => hcapacity _ chunk)

/-! ## Accepted tables -/

namespace Snapshot

/-- What is known of a table that was read: it fits the stored form, each of its chunks has a
    segment for every column, and their capacities are powers of two. -/
structure Accepted (table : Table) : Prop where
  fits : Fits table
  columns_size : ∀ chunk ∈ table.chunks, chunk.columns.size = table.schema.columns.size
  capacity : ∀ chunk ∈ table.chunks, ∃ k, chunk.capacity = 2 ^ k

section Made

variable {config : Config} {chunkCount watermark : Nat} {schema : Schema}
  {columns : List StoredColumn} {indexes : List StoredIndex} {fills : List Bitmap} {table : Table}
  (h : MadeOf config.chunkSize chunkCount watermark schema columns indexes fills table)

include h

/-- Each chunk of a table that was made of parts comes from a bitmap of live rows. -/
theorem MadeOf.exists_fill {id : Nat} {chunk : Chunk} (hchunk : table.chunks[id]? = some chunk) :
    ∃ fill, fills[id]? = some fill := by
  have hlt := (Array.getElem?_eq_some_iff.mp hchunk).1
  rw [h.table_eq, Table.size_revalidate] at hlt
  have hsize := size_chunksOf config.chunkSize columns indexes fills
  exact ⟨_, List.getElem?_eq_getElem (hsize ▸ hlt)⟩

theorem MadeOf.chunk_columns_size (husable : config.fault? = none) {id : Nat} {chunk : Chunk}
    (hchunk : table.chunks[id]? = some chunk) :
    chunk.columns.size = table.schema.columns.size := by
  obtain ⟨fill, hfill⟩ := h.exists_fill hchunk
  obtain ⟨before, hget, hwf, hcolumns, -⟩ := h.parts.assemble husable hfill
  obtain ⟨found, hfound, -, hrevalidated⟩ := Table.getElem?_revalidate
    (tableOf config.chunkSize watermark schema columns indexes fills) h.parts.wellFormed hget hwf
    hcolumns
  rw [h.table_eq] at hchunk ⊢
  rw [hchunk] at hfound
  cases hfound
  rw [hrevalidated.columns]
  exact hcolumns

theorem MadeOf.exists_pow_capacity (husable : config.fault? = none) {id : Nat} {chunk : Chunk}
    (hchunk : table.chunks[id]? = some chunk) : ∃ k, chunk.capacity = 2 ^ k := by
  obtain ⟨fill, hfill⟩ := h.exists_fill hchunk
  obtain ⟨m, hm⟩ := Config.exists_pow_of_usable husable
  have hsame := Table.capacity_revalidate
    (tableOf config.chunkSize watermark schema columns indexes fills) id
  have hget : (tableOf config.chunkSize watermark schema columns indexes fills).chunks[id]? =
    some (assemble config.chunkSize (columns.map fun stored => stored.segments.toArray)
      (indexes.map fun stored => stored.bitmaps.toArray) id fill) := by
    rw [tableOf, getElem?_chunksOf, hfill, Option.map_some]
  rw [← h.table_eq, hchunk, hget, Option.map_some, Option.map_some, Option.some.injEq] at hsame
  rw [hsame, assemble, hm]
  exact Chunk.exists_pow_restore fill _ _

/-- A table that was made of parts that fit their stored forms fits its own. -/
theorem MadeOf.fits (husable : config.fault? = none)
    (hcolumns : ∀ stored ∈ columns, ColumnFits stored)
    (hindexes : ∀ stored ∈ indexes, stored.index.name.utf8ByteSize < 2 ^ 32) : Fits table where
  chunks := by
    rw [h.table_eq, Table.size_revalidate, tableOf, size_chunksOf, h.parts.fills_length]
    exact h.chunkCount_lt
  columns := by
    rw [h.table_eq]
    show schema.columns.size < 2 ^ 32
    rw [h.parts.columns_eq, List.size_toArray, List.length_map]
    exact h.columns_lt
  indexes := by
    rw [h.table_eq]
    show schema.indexes.size < 2 ^ 32
    rw [h.parts.indexes_eq, List.size_toArray, List.length_map]
    exact h.indexes_lt
  columnName column hmem := by
    rw [h.table_eq] at hmem
    obtain ⟨stored, hstored, rfl⟩ : ∃ stored ∈ columns, stored.column = column := by
      have hmem' : column ∈ schema.columns := hmem
      simpa [h.parts.columns_eq] using hmem'
    exact (hcolumns stored hstored).name
  indexName index hmem := by
    rw [h.table_eq] at hmem
    obtain ⟨stored, hstored, rfl⟩ : ∃ stored ∈ indexes, stored.index = index := by
      have hmem' : index ∈ schema.indexes := hmem
      simpa [h.parts.indexes_eq] using hmem'
    exact hindexes stored hstored
  dictionary d hd := by
    rw [h.table_eq] at hd
    obtain ⟨stored, hstored, rfl⟩ : ∃ stored ∈ columns, stored.dictionary = d := by
      simpa [revalidate, tableOf, dictionariesOf] using hd
    exact (hcolumns stored hstored).dictionary
  value chunk hmem slot offset v hcell := by
    obtain ⟨id, hchunk⟩ := Array.mem_iff_getElem?.mp hmem
    obtain ⟨fill, hfill⟩ := h.exists_fill hchunk
    obtain ⟨found, hfound, -, -, -, hcells, -⟩ := h.parts.chunk_revalidate husable hfill
    rw [h.table_eq, hfound, Option.some.injEq] at hchunk
    subst hchunk
    rw [hcells] at hcell
    obtain ⟨segment, hsegment, hcell⟩ := Option.bind_eq_some_iff.mp hcell
    obtain ⟨stored, hstored, hs⟩ := Option.bind_eq_some_iff.mp hsegment
    exact (hcolumns stored (List.mem_of_getElem? hstored)).encodable segment
      (List.mem_of_getElem? hs) offset _ hcell

end Made

/-- So it is with the table of any accepted bytes. -/
theorem accepted_of_decode {config : Config} (husable : config.fault? = none) {registered : Schema}
    {bytes : Bytes} {table : Table}
    (h : decode config.chunkSize registered bytes = .ok table) : Accepted table := by
  obtain ⟨chunkCount, watermark, schema, columns, indexes, fills, hmade, hcolumns, hindexes⟩ :=
    of_decode (yields_parts (yields_columnFits config.chunkSize) fun chunkCount schema =>
      yields_indexName registered schema config.chunkSize chunkCount) h
  refine ⟨hmade.fits husable hcolumns hindexes, fun chunk hmem => ?_, fun chunk hmem => ?_⟩
  · obtain ⟨id, hchunk⟩ := Array.mem_iff_getElem?.mp hmem
    exact hmade.chunk_columns_size husable hchunk
  · obtain ⟨id, hchunk⟩ := Array.mem_iff_getElem?.mp hmem
    exact hmade.exists_pow_capacity husable hchunk

end Snapshot

end ColumnStore
