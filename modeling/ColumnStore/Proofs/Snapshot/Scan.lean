import ColumnStore.Proofs.Segment.Scan
import ColumnStore.Proofs.Snapshot.Load

/-!
# Scanning snapshots

A scanner of whole snapshots, put together from those of their parts, and that it follows the reader
(`follows_scanTable`), so that reading a snapshot never leaves the buffer, never looks at a place
that is not there and never computes a size of more than 64 bits (`scan_eq`). Names that are taken
are refused as such and the error is turned into one about the bytes afterwards (`asCorrupt`).

What bounds the sizes: a chunk has at most 2³¹ rows, four bytes count the chunks, and every bitmap
was compared with the chunk size before its offsets are turned into rows.
-/

namespace ColumnStore

open Reader (Yields)
open Scanner (Follows)

/-! ## Slots -/

/-- A taken name in a snapshot is a fault of the snapshot (`duplicate_to_corrupt`). -/
def Error.asCorrupt : Error → Error
  | .duplicateName name => .corruptSnapshot (.duplicateName name)
  | e => e

namespace Schema

/-- The outcome of adding a column or an index that was counted as the one in `slot`, where `next`
    is the slot it comes to. -/
def placed (outcome : Except Error Schema) (slot next : Nat) : Checked Schema :=
  match outcome with
  | .error e => .error (.refused e.asCorrupt)
  | .ok schema => if slot = next then .ok schema else .error .slot

variable {schema : Schema} {e : Error}

theorem error_of_addColumn {column : Column} (h : schema.addColumn column = .error e) :
    e = .duplicateName column.name := by
  unfold addColumn at h
  split_ifs at h
  cases h
  rfl

theorem error_of_addIndex {index : Index} (h : schema.addIndex index = .error e) :
    e = .duplicateName index.name := by
  unfold addIndex at h
  split_ifs at h
  cases h
  rfl

end Schema

namespace Snapshot

variable {chunkSize : Nat}

/-! ## Columns -/

/-- Scans the dictionary of a column. -/
def scanDictionary (kind : Kind) : Scanner Dictionary :=
  if kind = .enum then Dictionary.scan else pure .empty

/-- Scans one segment of a column and checks its ids. -/
def scanSegment (column : Column) (dictionary : Dictionary) (chunkSize : Nat) :
    Scanner Segment := do
  let segment ← Segment.scan column.kind chunkSize
  Scanner.require (column.kind != .enum || idsBelow segment dictionary.size)
    (.danglingString column.name)
  pure segment

/-- Scans a column with its segments. -/
def scanColumn (chunkSize chunkCount : Nat) : Scanner StoredColumn := do
  let name ← Scanner.string "column name"
  let code ← Scanner.nat 1 "column kind"
  match Kind.ofCode? code with
  | none => Scanner.check (Checked.fail (.unknownKind code))
  | some kind =>
    let dictionary ← scanDictionary kind
    let column : Column := ⟨name, kind⟩
    let segments ← Scanner.replicate (scanSegment column dictionary chunkSize) chunkCount
    pure ⟨column, dictionary, segments⟩

/-- Scans `n` columns, the first of which comes to `slot`. -/
def scanColumns (chunkSize chunkCount : Nat) :
    (n slot : Nat) → Schema → Scanner (Schema × List StoredColumn)
  | 0, _, schema => pure (schema, [])
  | n + 1, slot, schema => do
    let stored ← scanColumn chunkSize chunkCount
    let added := schema.addColumn stored.column
    let schema ← Scanner.check (Schema.placed added slot schema.columns.size)
    let (schema, rest) ← scanColumns chunkSize chunkCount n (slot + 1) schema
    pure (schema, stored :: rest)

theorem follows_scanColumn (hsize : chunkSize ≤ 2 ^ 31) (chunkCount : Nat) :
    Follows (scanColumn chunkSize chunkCount) (readColumn chunkSize chunkCount) := by
  refine (Scanner.follows_string _).bind fun name => (Scanner.follows_nat 1 _).bind fun code => ?_
  cases Kind.ofCode? code with
  | none => exact Follows.fail _
  | some kind =>
    have hdictionary : Follows (scanDictionary kind) (readDictionary kind) := by
      unfold scanDictionary readDictionary
      split_ifs
      · exact Dictionary.follows_scan
      · exact Follows.pure _
    have hsegment : ∀ dictionary, Follows (scanSegment ⟨name, kind⟩ dictionary chunkSize)
        (readSegment ⟨name, kind⟩ dictionary chunkSize) := fun dictionary =>
      (Segment.follows_scan hsize).bind fun segment =>
        Follows.require_bind fun _ => Follows.pure segment
    exact hdictionary.bind fun dictionary =>
      ((hsegment dictionary).replicate chunkCount).bind fun segments => Follows.pure _

theorem follows_scanColumns (hsize : chunkSize ≤ 2 ^ 31) (chunkCount n : Nat) (schema : Schema) :
    Follows (scanColumns chunkSize chunkCount n schema.columns.size schema)
      (readColumns chunkSize chunkCount n schema) := by
  induction n generalizing schema with
  | zero => exact Follows.pure _
  | succ n ih =>
    refine (follows_scanColumn hsize chunkCount).bind fun stored => ?_
    cases hadd : schema.addColumn stored.column with
    | error e =>
      obtain rfl := Schema.error_of_addColumn hadd
      exact Follows.fail _
    | ok schema' =>
      obtain ⟨-, rfl⟩ := Schema.eq_of_addColumn hadd
      refine Follows.check_bind (if_pos rfl) ?_
      rw [← Array.size_push stored.column]
      exact (ih { schema with columns := schema.columns.push stored.column }).bind
        fun result => Follows.pure _

/-! ## Indexes -/

/-- Scans one bitmap of an index. -/
def scanIndexBitmap (name : String) (chunkSize : Nat) : Scanner Bitmap := do
  let bits ← Bitmap.scan
  let capacity ← Scanner.check (Checked.size bits.capacity)
  Scanner.require (capacity ≤ chunkSize) (.indexLength name)
  pure bits

/-- Scans an index with its bitmaps. -/
def scanIndex (registered schema : Schema) (chunkSize chunkCount : Nat) : Scanner StoredIndex := do
  let name ← Scanner.string "index name"
  let source ← Scanner.string "index source"
  match schema.column? source with
  | none => Scanner.check (Checked.fail (.unknownSource name source))
  | some (slot, _) =>
    let bitmaps ← Scanner.replicate (scanIndexBitmap name chunkSize) chunkCount
    pure ⟨⟨name, source, slot, registered? registered name source⟩, bitmaps⟩

/-- Scans `n` indexes, the first of which comes to `slot`. -/
def scanIndexes (registered : Schema) (chunkSize chunkCount : Nat) :
    (n slot : Nat) → Schema → Scanner (Schema × List StoredIndex)
  | 0, _, schema => pure (schema, [])
  | n + 1, slot, schema => do
    let stored ← scanIndex registered schema chunkSize chunkCount
    let added := schema.addIndex stored.index
    let schema ← Scanner.check (Schema.placed added slot schema.indexes.size)
    let (schema, rest) ← scanIndexes registered chunkSize chunkCount n (slot + 1) schema
    pure (schema, stored :: rest)

/-- The capacity of a bitmap that was read is a size. -/
theorem size_capacity {bits : Bitmap} (h : bits.words.size < 2 ^ 32) :
    Checked.size bits.capacity = .ok bits.capacity := by
  apply Checked.size_of_lt
  rw [Bitmap.capacity]
  omega

theorem follows_scanIndex (registered schema : Schema) (chunkSize chunkCount : Nat) :
    Follows (scanIndex registered schema chunkSize chunkCount)
      (readIndex registered schema chunkSize chunkCount) := by
  refine (Scanner.follows_string _).bind fun name => (Scanner.follows_string _).bind fun source => ?_
  cases schema.column? source with
  | none => exact Follows.fail _
  | some found =>
    have hbitmap : Follows (scanIndexBitmap name chunkSize) (readIndexBitmap name chunkSize) :=
      Bitmap.follows_scan.bind_of Bitmap.yields_read fun bits hwords =>
        Follows.check_bind (size_capacity hwords) <|
          Follows.require_bind fun _ => Follows.pure bits
    exact (hbitmap.replicate chunkCount).bind fun bitmaps => Follows.pure _

theorem follows_scanIndexes (registered : Schema) (chunkSize chunkCount n : Nat)
    (schema : Schema) :
    Follows (scanIndexes registered chunkSize chunkCount n schema.indexes.size schema)
      (readIndexes registered chunkSize chunkCount n schema) := by
  induction n generalizing schema with
  | zero => exact Follows.pure _
  | succ n ih =>
    refine (follows_scanIndex registered schema chunkSize chunkCount).bind fun stored => ?_
    cases hadd : schema.addIndex stored.index with
    | error e =>
      obtain rfl := Schema.error_of_addIndex hadd
      exact Follows.fail _
    | ok schema' =>
      obtain ⟨-, rfl⟩ := Schema.eq_of_addIndex hadd
      refine Follows.check_bind (if_pos rfl) ?_
      rw [← Array.size_push stored.index]
      exact (ih { schema with indexes := schema.indexes.push stored.index }).bind
        fun result => Follows.pure _

/-! ## Rows -/

/-- Whether the rows at some offsets of chunk `id` lie below the watermark, asked up to the first
    that does not. -/
def rowsBelow (chunkSize watermark id : Nat) : List Nat → Checked Bool
  | [] => pure true
  | offset :: rest => do
    let first ← Checked.size (id * chunkSize)
    let row ← Checked.size (first + offset)
    if row < watermark then rowsBelow chunkSize watermark id rest else pure false

/-- Scans the bitmap of the live rows of chunk `id`. -/
def scanFill (chunkSize watermark id : Nat) : Scanner Bitmap := do
  let fill ← Bitmap.scan
  let capacity ← Scanner.check (Checked.size fill.capacity)
  Scanner.require (capacity ≤ chunkSize) (.fillLength id)
  let below ← Scanner.check (rowsBelow chunkSize watermark id fill.toList)
  Scanner.require below (.unallocatedRow id)
  pure fill

/-- Puts the parts of chunk `id` together, with room for a power of two of rows. -/
def assembleChecked (chunkSize : Nat) (columns : List (Array Segment))
    (indexes : List (Array Bitmap)) (id : Nat) (fill : Bitmap) : Checked Chunk := do
  let widest := max
    ((columns.filterMap (·[id]?)).foldl (fun n segment => max n segment.capacity) fill.capacity)
    ((indexes.filterMap (·[id]?)).foldl (fun n bits => max n bits.capacity) 0)
  let _ ← Checked.size (Chunk.powerOfTwoFrom widest)
  pure (assemble chunkSize columns indexes id fill)

/-- Scans the live rows of `n` chunks from chunk `id` on and puts the chunks together; counts the
    rows behind those counted already. -/
def scanRows (chunkSize watermark : Nat) (columns : List (Array Segment))
    (indexes : List (Array Bitmap)) : (n id counted : Nat) → Scanner (List Chunk × Nat)
  | 0, _, counted => pure ([], counted)
  | n + 1, id, counted => do
    let fill ← scanFill chunkSize watermark id
    let counted ← Scanner.check (Checked.size (counted + fill.count))
    let chunk ← Scanner.check (assembleChecked chunkSize columns indexes id fill)
    let (rest, counted) ← scanRows chunkSize watermark columns indexes n (id + 1) counted
    pure (chunk :: rest, counted)

theorem rowsBelow_eq {watermark id : Nat} {offsets : List Nat}
    (h : ∀ offset ∈ offsets, id * chunkSize + offset < 2 ^ 64) :
    rowsBelow chunkSize watermark id offsets =
      .ok (offsets.all fun offset => id * chunkSize + offset < watermark) := by
  induction offsets with
  | nil => rfl
  | cons offset rest ih =>
    have hfirst := h offset List.mem_cons_self
    rw [rowsBelow, Checked.size_of_lt (by omega), Checked.ok_bind, Checked.size_of_lt hfirst,
      Checked.ok_bind, ih fun other hmem => h other (List.mem_cons_of_mem _ hmem), List.all_cons]
    by_cases hbelow : id * chunkSize + offset < watermark
    · rw [if_pos hbelow, decide_eq_true hbelow, Bool.true_and]
    · rw [if_neg hbelow, decide_eq_false hbelow, Bool.false_and]
      rfl

theorem follows_scanFill {watermark id : Nat} (h : (id + 1) * chunkSize < 2 ^ 64) :
    Follows (scanFill chunkSize watermark id) (readFill chunkSize watermark id) := by
  refine Bitmap.follows_scan.bind_of Bitmap.yields_read fun fill hwords => ?_
  refine Follows.check_bind (size_capacity hwords) (Follows.require_bind fun hfits => ?_)
  have hle : fill.capacity ≤ chunkSize := of_decide_eq_true hfits
  refine Follows.check_bind (rowsBelow_eq fun offset hmem => ?_)
    (Follows.require_bind fun _ => Follows.pure fill)
  have hlt : offset < fill.capacity := Bitmap.lt_of_contains (Bitmap.mem_toList.mp hmem)
  rw [Nat.succ_mul] at h
  omega

/-- The parts of every chunk fit the chunk size. -/
structure PartsFit (chunkSize : Nat) (columns : List StoredColumn) (indexes : List StoredIndex) :
    Prop where
  segment : ∀ id, ∀ segment ∈ segmentsAt columns id, segment.capacity ≤ chunkSize
  bitmap : ∀ id, ∀ bits ∈ bitmapsAt indexes id, bits.capacity ≤ chunkSize

theorem PartsFit.of_ok {chunkCount : Nat} {schema : Schema} {columns : List StoredColumn}
    {indexes : List StoredIndex} (hcolumns : ∀ stored ∈ columns, ColumnOk chunkSize chunkCount stored)
    (hindexes : ∀ stored ∈ indexes, IndexOk chunkSize chunkCount schema stored) :
    PartsFit chunkSize columns indexes where
  segment id s hs := by
    obtain ⟨part, hpart, hfound⟩ := List.mem_filterMap.mp (List.mem_toArray.mp hs)
    obtain ⟨stored, hstored, rfl⟩ := List.mem_map.mp hpart
    rw [List.getElem?_toArray] at hfound
    exact ((hcolumns stored hstored).segment s (List.mem_of_getElem? hfound)).capacity_le
  bitmap id bits hbits := by
    obtain ⟨part, hpart, hfound⟩ := List.mem_filterMap.mp (List.mem_toArray.mp hbits)
    obtain ⟨stored, hstored, rfl⟩ := List.mem_map.mp hpart
    rw [List.getElem?_toArray] at hfound
    exact (hindexes stored hstored).bitmap bits (List.mem_of_getElem? hfound)

variable {columns : List StoredColumn} {indexes : List StoredIndex}

theorem PartsFit.assembleChecked_eq (h : PartsFit chunkSize columns indexes)
    (hsize : chunkSize ≤ 2 ^ 31) (id : Nat) {fill : Bitmap} (hfill : fill.capacity ≤ chunkSize) :
    assembleChecked chunkSize (columns.map fun stored => stored.segments.toArray)
        (indexes.map fun stored => stored.bitmaps.toArray) id fill =
      .ok (assemble chunkSize (columns.map fun stored => stored.segments.toArray)
        (indexes.map fun stored => stored.bitmaps.toArray) id fill) := by
  have hc := (Chunk.foldl_max_spec Segment.capacity
    ((columns.map fun stored => stored.segments.toArray).filterMap (·[id]?))
    fill.capacity).2.2 chunkSize hfill fun s hs => h.segment id s (List.mem_toArray.mpr hs)
  have hi := (Chunk.foldl_max_spec Bitmap.capacity
    ((indexes.map fun stored => stored.bitmaps.toArray).filterMap (·[id]?))
    0).2.2 chunkSize (Nat.zero_le _) fun b hb => h.bitmap id b (List.mem_toArray.mpr hb)
  have hpower := Chunk.powerOfTwoFrom_le ((Nat.max_le.mpr ⟨hc, hi⟩).trans hsize)
  rw [assembleChecked, Checked.size_of_lt (by omega)]
  rfl

theorem PartsFit.follows_scanRows (h : PartsFit chunkSize columns indexes)
    (hsize : chunkSize ≤ 2 ^ 31) (watermark : Nat) {n id counted : Nat} (hid : id + n ≤ 2 ^ 32)
    (hcounted : counted ≤ id * chunkSize) :
    Follows (scanRows chunkSize watermark (columns.map fun stored => stored.segments.toArray)
        (indexes.map fun stored => stored.bitmaps.toArray) n id counted)
      (do
        let fills ← readFills chunkSize watermark n id
        pure ((fills.zipIdx id).map fun (fill, id) =>
            assemble chunkSize (columns.map fun stored => stored.segments.toArray)
              (indexes.map fun stored => stored.bitmaps.toArray) id fill,
          counted + (fills.map Bitmap.count).sum)) := by
  -- the chunks before `id` have no more rows than room, which bounds what was counted
  induction n generalizing id counted with
  | zero => exact Follows.pure _
  | succ n ih =>
    have hrows : (id + 1) * chunkSize ≤ 2 ^ 32 * 2 ^ 31 :=
      Nat.mul_le_mul (by omega) hsize
    simp only [readFills, bind_assoc, pure_bind]
    refine (follows_scanFill (by omega)).bind_of (yields_readFill chunkSize watermark id)
      fun fill hfill => ?_
    have hcount := fill.count_le_capacity.trans hfill.1
    have hnext : counted + fill.count ≤ (id + 1) * chunkSize := by
      rw [Nat.succ_mul]
      omega
    refine Follows.check_bind (Checked.size_of_lt (by omega)) ?_
    refine Follows.check_bind (h.assembleChecked_eq hsize id hfill.1) ?_
    refine (ih (by omega) hnext).bind_map_of (Yields.trivial _) fun fills _ => ?_
    rw [List.zipIdx_cons, List.map_cons, List.map_cons, List.sum_cons, ← Nat.add_assoc]
    exact Follows.pure _

/-! ## Indexes compared with their predicates -/

/-- The cells of a chunk that an index's predicate is asked about. With a table of answers none is
    looked at. -/
def comparedCells (index : Index) (answers : Option (Array Bool)) (chunk : Chunk) :
    Checked (List Cell) :=
  match answers, chunk.columns[index.sourceSlot]? with
  | none, some segment =>
    segment.presence.toList.mapM fun offset => Checked.place (segment.cells.get? offset)
  | _, _ => pure []

/-- Compares an index with its predicate in a chunk. A slot that the chunk does not have makes room
    up to it. -/
def revalidateChunkChecked (slot : Nat) (index : Index) (dictionary : Dictionary)
    (answers : Option (Array Bool)) (chunk : Chunk) : Checked Chunk := do
  let _ ← comparedCells index answers chunk
  let _ ← if chunk.indexes.size ≤ slot then Checked.size (slot + 1) else pure slot
  pure (revalidateChunk slot index dictionary answers chunk)

/-- Compares an index with its predicate in every chunk. A detached index is passed over. -/
def revalidateIndex (table : Table) (chunks : Array Chunk) (index : Index) (slot : Nat) :
    Checked (Array Chunk) :=
  if index.isAttached then do
    let column ← Checked.place table.schema.columns[index.sourceSlot]?
    let dictionary := table.dictionary index.sourceSlot
    let answers := index.table? column dictionary
    let chunks ← chunks.toList.mapM (revalidateChunkChecked slot index dictionary answers)
    pure chunks.toArray
  else pure chunks

/-- Compares every index with its predicate (`revalidate`). -/
def revalidateChecked (table : Table) : Checked Table := do
  let chunks ← table.schema.indexes.toList.zipIdx.foldlM
    (fun chunks (index, slot) => revalidateIndex table chunks index slot) table.chunks
  pure { table with chunks }

section Revalidate

variable {table : Table} {chunk : Chunk} {chunks : Array Chunk} {slot : Nat} {index : Index}

theorem comparedCells_of_wellFormed
    (h : chunk.WellFormed chunkSize table.schema table.dictionaries) (index : Index)
    (answers : Option (Array Bool)) : ∃ cells, comparedCells index answers chunk = .ok cells := by
  unfold comparedCells
  cases answers with
  | some answers => exact ⟨[], rfl⟩
  | none =>
    cases hsegment : chunk.columns[index.sourceSlot]? with
    | none => exact ⟨[], rfl⟩
    | some segment =>
      obtain ⟨column, -, hs⟩ := h.column _ segment hsegment
      refine ⟨_, Checked.mapM_of_forall (g := fun offset => (segment.cells.get? offset).getD default)
        fun offset hmem => ?_⟩
      have hlt := hs.presence.lt offset (Bitmap.mem_toList.mp hmem)
      obtain ⟨cell, hcell⟩ := Option.isSome_iff_exists.mp (Cells.get?_isSome hs.room hlt)
      rw [hcell]
      rfl

theorem revalidateChunkChecked_eq
    (h : chunk.WellFormed chunkSize table.schema table.dictionaries)
    (hindex : table.schema.indexes[slot]? = some index) (dictionary : Dictionary)
    (answers : Option (Array Bool)) :
    revalidateChunkChecked slot index dictionary answers chunk =
      .ok (revalidateChunk slot index dictionary answers chunk) := by
  have hslot : slot < chunk.indexes.size := by
    rw [h.indexes_size]
    exact (Array.getElem?_eq_some_iff.mp hindex).1
  obtain ⟨cells, hcells⟩ := comparedCells_of_wellFormed h index answers
  rw [revalidateChunkChecked, hcells, if_neg (Nat.not_le.mpr hslot)]
  rfl

/-- One index compared with its predicate in well-formed chunks, which stay so. -/
theorem revalidateIndex_eq (hschema : table.schema.WellFormed)
    (hindex : table.schema.indexes[slot]? = some index)
    (h : ∀ chunk ∈ chunks, chunk.WellFormed chunkSize table.schema table.dictionaries ∧
      chunk.columns.size = table.schema.columns.size) :
    revalidateIndex table chunks index slot =
        .ok (chunks.map (revalidateChunk slot index (table.dictionary index.sourceSlot)
          (table.indexTable index))) ∧
      ∀ chunk ∈ chunks.map (revalidateChunk slot index (table.dictionary index.sourceSlot)
          (table.indexTable index)),
        chunk.WellFormed chunkSize table.schema table.dictionaries ∧
          chunk.columns.size = table.schema.columns.size := by
  obtain ⟨column, hcolumn, -⟩ := hschema.source index (Array.mem_of_getElem? hindex)
  have hanswers : table.indexTable index =
      index.table? column (table.dictionary index.sourceSlot) := by
    rw [Table.indexTable, hcolumn]
    rfl
  have hstep := fun chunk hmem => (h chunk hmem).1.revalidateChunk (h chunk hmem).2 hindex hcolumn
  rw [hanswers]
  refine ⟨?_, fun chunk' hmem => ?_⟩
  · unfold revalidateIndex
    split_ifs with hattached
    · rw [hcolumn]
      show (chunks.toList.mapM _ >>= _ : Checked _) = _
      rw [Checked.mapM_of_forall fun chunk hmem =>
        revalidateChunkChecked_eq (h chunk (Array.mem_toList_iff.mp hmem)).1 hindex _ _,
        Checked.ok_bind, ← Array.toList_map, Array.toArray_toList]
      rfl
    · have hnone : index.predicate = none := by simpa [Index.isAttached] using hattached
      have hsame := fun chunk => revalidateChunk_of_detached hnone slot
        (table.dictionary index.sourceSlot)
        (index.table? column (table.dictionary index.sourceSlot)) chunk
      exact congrArg Except.ok (Array.map_id'' hsame chunks).symm
  · obtain ⟨chunk, hchunk, rfl⟩ := Array.mem_map.mp hmem
    obtain ⟨after, hafter, hwf, hrebuilt, -⟩ := hstep chunk hchunk
    subst hafter
    exact ⟨hwf, (congrArg Array.size hrebuilt.columns).trans (h chunk hchunk).2⟩

/-- Indexes compared with their predicates one after the other. -/
theorem foldlM_revalidateIndex (hschema : table.schema.WellFormed) {places : List (Index × Nat)}
    (hplaces : ∀ p ∈ places, table.schema.indexes[p.2]? = some p.1)
    (h : ∀ chunk ∈ chunks, chunk.WellFormed chunkSize table.schema table.dictionaries ∧
      chunk.columns.size = table.schema.columns.size) :
    places.foldlM (fun chunks (index, slot) => revalidateIndex table chunks index slot) chunks =
      .ok (places.foldl (fun chunks (index, slot) =>
        chunks.map (revalidateChunk slot index (table.dictionary index.sourceSlot)
          (table.indexTable index))) chunks) := by
  induction places generalizing chunks with
  | nil => rfl
  | cons p rest ih =>
    obtain ⟨index, slot⟩ := p
    obtain ⟨hstep, hchunks⟩ :=
      revalidateIndex_eq hschema (hplaces (index, slot) List.mem_cons_self) h
    rw [List.foldlM_cons]
    show (revalidateIndex table chunks index slot >>= _ : Checked _) = _
    rw [hstep, Checked.ok_bind, ih (fun q hq => hplaces q (List.mem_cons_of_mem _ hq)) hchunks]
    rfl

theorem revalidateChecked_eq (hschema : table.schema.WellFormed)
    (h : ∀ chunk ∈ table.chunks, chunk.WellFormed chunkSize table.schema table.dictionaries ∧
      chunk.columns.size = table.schema.columns.size) :
    revalidateChecked table = .ok (revalidate table) := by
  rw [revalidateChecked, foldlM_revalidateIndex hschema (fun _ => Schema.mem_zipIdx_iff.mp) h]
  rfl

end Revalidate

/-! ## Whole snapshots -/

theorem PartsOk.wellFormed_of_mem {config : Config} {chunkCount watermark : Nat} {schema : Schema}
    {fills : List Bitmap}
    (h : PartsOk config.chunkSize chunkCount watermark schema columns indexes fills)
    (husable : config.fault? = none) {chunk : Chunk}
    (hmem : chunk ∈ chunksOf config.chunkSize columns indexes fills) :
    chunk.WellFormed config.chunkSize schema (dictionariesOf columns) ∧
      chunk.columns.size = schema.columns.size := by
  obtain ⟨id, hid⟩ := Array.mem_iff_getElem?.mp hmem
  obtain ⟨fill, hfill, -⟩ := Option.map_eq_some_iff.mp ((getElem?_chunksOf ..).symm.trans hid)
  obtain ⟨found, hfound, hwf, hcolumns, -⟩ := h.assemble husable hfill
  obtain rfl : found = chunk := Option.some.inj (hfound.symm.trans hid)
  exact ⟨hwf, hcolumns⟩

/-- Scans a whole snapshot for a collection with the given chunk size and schema. -/
def scanTable (chunkSize : Nat) (registered : Schema) : Scanner Table := do
  let front ← Scanner.take 4 "magic"
  Scanner.require (front = magic) .magic
  let found ← Scanner.nat 2 "version"
  Scanner.require (found = version) (.version found)
  let size ← Scanner.nat 4 "chunk size"
  Scanner.require (size = chunkSize) (.chunkSize size chunkSize)
  let chunkCount ← Scanner.nat 4 "chunk count"
  let left ← Scanner.remaining
  Scanner.require (chunkCount ≤ left / 4) (.chunkCount chunkCount)
  let columnCount ← Scanner.nat 4 "column count"
  let (schema, columns) ← scanColumns chunkSize chunkCount columnCount 0 .empty
  let indexCount ← Scanner.nat 4 "index count"
  let (schema, indexes) ← scanIndexes registered chunkSize chunkCount indexCount 0 schema
  let watermark ← Scanner.nat 8 "row watermark"
  let live ← Scanner.nat 8 "live count"
  let room ← Scanner.check (Checked.size (chunkCount * chunkSize))
  Scanner.require (watermark ≤ room) (.watermark watermark chunkCount)
  let segments := columns.map fun stored => stored.segments.toArray
  let bitmaps := indexes.map fun stored => stored.bitmaps.toArray
  let (chunks, counted) ← scanRows chunkSize watermark segments bitmaps chunkCount 0 0
  Scanner.require (counted = live) (.liveCount live counted)
  let left ← Scanner.remaining
  Scanner.require (left = 0) (.trailing left)
  Scanner.check (revalidateChecked
    { schema
      dictionaries := (columns.map StoredColumn.dictionary).toArray
      chunks := chunks.toArray
      nextRow := watermark
      live })

theorem follows_scanTable {config : Config} (husable : config.fault? = none)
    (registered : Schema) :
    Follows (scanTable config.chunkSize registered) (read config.chunkSize registered) := by
  have hsize := (Config.chunkSize_of_usable husable).2
  -- of the columns and indexes that are read it has to be known that they fit the chunks
  refine (Scanner.follows_take 4 _).bind fun front => Follows.require_bind fun _ => ?_
  refine (Scanner.follows_nat 2 _).bind fun found => Follows.require_bind fun _ => ?_
  refine (Scanner.follows_nat 4 _).bind fun size => Follows.require_bind fun _ => ?_
  refine (Scanner.follows_nat 4 _).bind_of (Reader.yields_nat 4 _) fun chunkCount hcount => ?_
  refine Follows.remaining_bind (fun left _ => ?_) ?_
  · exact decide_eq_decide.mpr (Nat.le_div_iff_mul_le (by omega))
  refine (Scanner.follows_nat 4 _).bind fun columnCount => ?_
  refine (follows_scanColumns hsize chunkCount columnCount .empty).bind_of
    (yields_readColumns config.chunkSize chunkCount columnCount Schema.wellFormed_empty)
    fun result hcolumns => ?_
  obtain ⟨schema₁, columns⟩ := result
  refine (Scanner.follows_nat 4 _).bind fun indexCount => ?_
  have hnone : schema₁.indexes.size = 0 := by rw [hcolumns.2.1]; rfl
  have hscanned := follows_scanIndexes registered config.chunkSize chunkCount indexCount schema₁
  rw [hnone] at hscanned
  refine hscanned.bind_of
    (yields_readIndexes registered config.chunkSize chunkCount indexCount hcolumns.1)
    fun result hindexes => ?_
  obtain ⟨schema, indexes⟩ := result
  refine (Scanner.follows_nat 8 _).bind fun watermark => ?_
  refine (Scanner.follows_nat 8 _).bind fun live => ?_
  have hrows : chunkCount * config.chunkSize ≤ 2 ^ 32 * 2 ^ 31 := Nat.mul_le_mul (by omega) hsize
  refine Follows.check_bind (Checked.size_of_lt (by omega)) (Follows.require_bind fun _ => ?_)
  have hfit := PartsFit.of_ok hcolumns.2.2.2 hindexes.2.2.2
  refine (hfit.follows_scanRows hsize watermark (show 0 + chunkCount ≤ 2 ^ 32 by omega)
    (Nat.zero_le _)).bind_map_of (yields_readFills config.chunkSize watermark chunkCount 0)
    fun fills hfills => ?_
  simp only [Nat.zero_add]
  refine Follows.require_bind fun _ => Follows.finish_bind ?_
  have hparts := partsOk_of_read hcolumns hindexes hfills
  exact Follows.check_ok (revalidateChecked_eq hparts.wellFormed fun chunk hmem =>
    hparts.wellFormed_of_mem husable hmem)

/-- Scans bytes that are a snapshot from the first to the last (`decode`). -/
def scan (chunkSize : Nat) (registered : Schema) (bytes : Bytes) : Checked Table :=
  (scanTable chunkSize registered bytes 0).map Prod.fst

/-- Every slice, place and size of a scan is in bounds, and the scan gives the table that is read,
    or refuses the bytes for the cause that is read. -/
theorem scan_eq {config : Config} (husable : config.fault? = none) (registered : Schema)
    {bytes : Bytes} (hbytes : bytes.length < 2 ^ 63) :
    scan config.chunkSize registered bytes =
      (decode config.chunkSize registered bytes).mapError .corrupt := by
  have h := follows_scanTable husable registered bytes 0 hbytes (Nat.zero_le _)
  rw [List.drop_zero] at h
  unfold scan decode
  generalize scanTable config.chunkSize registered bytes 0 = scanned at h ⊢
  generalize read config.chunkSize registered bytes = found at h ⊢
  cases h with
  | ok table hpos => rfl
  | refused cause => rfl

end Snapshot

end ColumnStore
