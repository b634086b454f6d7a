import ColumnStore.Proofs.Reader
import ColumnStore.Proofs.Table
import ColumnStore.Snapshot.Decode

/-!
# The parts of accepted snapshots

What is known of columns, indexes and bitmaps of live rows once they were read
(`yields_readColumns`, `yields_readIndexes`, `yields_readFills`), whatever the bytes, and that such
parts make well-formed chunks (`PartsOk.assemble`).
-/

namespace ColumnStore

open Reader (Yields)

/-! ## Segments and dictionaries -/

theorem Cell.yields_read (kind : Kind) : Yields (Cell.read kind) fun cell => cell.kind = kind := by
  cases kind with
  | float64 => exact Yields.bind_any fun bits => Yields.pure rfl
  | bool => exact Yields.bind_any fun byte => Yields.pure rfl
  | enum => exact Yields.bind_any fun id => Yields.pure rfl
  | any =>
    refine Yields.bind_any fun length => Yields.bind_any fun bytes => ?_
    cases Value.decode? bytes with
    | none => exact Yields.fail _ _
    | some v => exact Yields.pure rfl

namespace Segment

/-- Cells put one after the other. -/
def putAll (s : Segment) (cells : List (Nat × Cell)) : Segment :=
  cells.foldl (fun s (offset, cell) => s.put offset cell) s

theorem WellFormed.putAll {kind : Kind} {capacity : Nat} {s : Segment}
    (hs : s.WellFormed kind capacity) {cells : List (Nat × Cell)}
    (hcells : ∀ entry ∈ cells, entry.1 < capacity ∧ entry.2.kind = kind) :
    (s.putAll cells).WellFormed kind capacity ∧
      ∀ offset, (s.putAll cells).cell? offset =
        (Chunk.written offset cells).or (s.cell? offset) := by
  induction cells generalizing s with
  | nil => exact ⟨hs, fun _ => rfl⟩
  | cons entry rest ih =>
    obtain ⟨first, cell⟩ := entry
    obtain ⟨hlt, hkind⟩ := hcells (first, cell) List.mem_cons_self
    obtain ⟨hwf, hview⟩ := ih (hs.put hlt cell) fun e he => hcells e (List.mem_cons_of_mem _ he)
    refine ⟨hwf, fun offset => ?_⟩
    show ((s.put first cell).putAll rest).cell? offset = _
    rw [hview, hs.cell?_put hlt hkind, Chunk.written, Option.or_assoc]
    split_ifs <;> rfl

/-- The last of ascending offsets is the greatest. -/
theorem lt_used {offsets : List Nat} (h : offsets.Pairwise (· < ·)) {offset : Nat}
    (hmem : offset ∈ offsets) : offset < (offsets.getLast?.map (· + 1)).getD 0 := by
  induction offsets generalizing offset with
  | nil => cases hmem
  | cons first rest ih =>
    rw [List.pairwise_cons] at h
    cases rest with
    | nil =>
      rw [List.mem_singleton] at hmem
      simp [hmem]
    | cons second others =>
      rw [List.getLast?_cons_cons]
      rcases List.mem_cons.mp hmem with rfl | hrest
      · have hsecond := ih h.2 List.mem_cons_self
        have := h.1 second List.mem_cons_self
        omega
      · exact ih h.2 hrest

theorem used_le {offsets : List Nat} {limit : Nat} (h : ∀ offset ∈ offsets, offset < limit) :
    (offsets.getLast?.map (· + 1)).getD 0 ≤ limit := by
  cases hlast : offsets.getLast? with
  | none => exact Nat.zero_le _
  | some last => exact h last (List.mem_of_getLast? hlast)

theorem yields_read (kind : Kind) (chunkSize : Nat) :
    Yields (Segment.read kind chunkSize) fun s =>
      s.WellFormed kind s.capacity ∧ s.capacity ≤ chunkSize := by
  refine Yields.bind_any fun code => ?_
  cases Kind.ofCode? code with
  | none => exact Yields.fail _ _
  | some found =>
    refine Yields.require_bind fun _ => Yields.bind_any fun capacity => ?_
    refine Yields.require_bind fun hcapacity => Yields.bind_any fun presence => ?_
    refine Yields.require_bind fun hpresence => Yields.bind_any fun _ => ?_
    refine (Yields.mapM fun _ _ => Cell.yields_read kind).bind fun cells hcells => ?_
    apply Yields.pure
    have hroom : ∀ entry ∈ presence.toList.zip cells,
        entry.1 < (presence.toList.getLast?.map (· + 1)).getD 0 ∧ entry.2.kind = kind :=
      fun entry hentry => ⟨lt_used presence.toList_pairwise (List.of_mem_zip hentry).1,
        hcells.2 _ (List.of_mem_zip hentry).2⟩
    have hwf := ((wellFormed_withCapacity kind _).putAll hroom).1
    have hcap := hwf.capacity_eq
    have hused : (presence.toList.getLast?.map (· + 1)).getD 0 ≤ chunkSize :=
      (used_le (by simpa using hpresence)).trans (by simpa using hcapacity)
    unfold putAll at hwf hcap
    exact ⟨by rw [hcap]; exact hwf, by rw [hcap]; exact hused⟩

end Segment

theorem Dictionary.yields_read : Yields Dictionary.read Dictionary.WellFormed := by
  refine Yields.bind_any fun _ => Yields.bind_any fun count => Yields.bind_any fun size => ?_
  refine Yields.bind_any fun places => Yields.bind_any fun data => ?_
  have hentry : ∀ place : Nat × Nat, Yields (liftM (Dictionary.entryAt data.toArray place))
      fun entry => Dictionary.entryAt data.toArray (entry.offset, entry.length) = .ok entry := by
    intro place
    apply Yields.lift
    intro entry heq
    rw [Dictionary.place_of_entryAt heq, heq]
  refine (Yields.mapM fun place _ => hentry place).bind fun entries hentries => ?_
  apply Yields.pure
  intro entry hmem
  exact hentries.2 entry (by simpa using hmem)

namespace Snapshot

/-! ## Columns -/

/-- A segment as it is read for a column. -/
structure SegmentOk (chunkSize : Nat) (kind : Kind) (dictionary : Dictionary) (s : Segment) :
    Prop where
  wellFormed : s.WellFormed kind s.capacity
  capacity_le : s.capacity ≤ chunkSize
  known : ∀ offset cell, s.cell? offset = some cell → cell.Known dictionary

theorem known_of_idsBelow {s : Segment} {dictionary : Dictionary}
    (h : s.kind = .enum → idsBelow s dictionary.size = true) {offset : Nat} {cell : Cell}
    (hcell : s.cell? offset = some cell) : cell.Known dictionary := by
  cases cell with
  | enum id =>
    have hkind : s.kind = .enum := (Segment.kind_of_cell? hcell).symm
    have hmem : offset ∈ s.presence.toList :=
      Bitmap.mem_toList.mpr (Segment.isPresent_of_cell? hcell)
    have hall := List.all_eq_true.mp (h hkind) offset hmem
    rw [Segment.enumAt_eq, hcell] at hall
    have hlt : id < dictionary.size := by simpa [Cell.id?] using hall
    exact hlt
  | _ => trivial

theorem yields_readSegment (column : Column) (dictionary : Dictionary) (chunkSize : Nat) :
    Yields (readSegment column dictionary chunkSize)
      (SegmentOk chunkSize column.kind dictionary) := by
  refine (Segment.yields_read column.kind chunkSize).bind fun s hs => ?_
  refine Yields.require_bind fun hids => Yields.pure ⟨hs.1, hs.2, fun offset cell hcell => ?_⟩
  refine known_of_idsBelow (fun hkind => ?_) hcell
  rw [hs.1.kind_eq] at hkind
  simpa [hkind] using hids

/-- A column as it is read. -/
structure ColumnOk (chunkSize chunkCount : Nat) (stored : StoredColumn) : Prop where
  dictionary : stored.dictionary.WellFormed
  length : stored.segments.length = chunkCount
  segment : ∀ s ∈ stored.segments, SegmentOk chunkSize stored.column.kind stored.dictionary s

theorem yields_readColumn (chunkSize chunkCount : Nat) :
    Yields (readColumn chunkSize chunkCount) (ColumnOk chunkSize chunkCount) := by
  refine Yields.bind_any fun name => Yields.bind_any fun code => ?_
  cases Kind.ofCode? code with
  | none => exact Yields.fail _ _
  | some kind =>
    have hdictionary : Yields (readDictionary kind) Dictionary.WellFormed := by
      unfold readDictionary
      split_ifs
      · exact Dictionary.yields_read
      · exact Yields.pure Dictionary.wellFormed_empty
    refine hdictionary.bind fun dictionary hd => ?_
    refine ((yields_readSegment ⟨name, kind⟩ dictionary chunkSize).replicate chunkCount).bind
      fun segments hsegments => ?_
    exact Yields.pure ⟨hd, hsegments.1, hsegments.2⟩

theorem yields_readColumns (chunkSize chunkCount n : Nat) {schema : Schema}
    (hschema : schema.WellFormed) :
    Yields (readColumns chunkSize chunkCount n schema) fun result =>
      result.1.WellFormed ∧ result.1.indexes = schema.indexes ∧
        result.1.columns = schema.columns ++ (result.2.map StoredColumn.column).toArray ∧
        ∀ stored ∈ result.2, ColumnOk chunkSize chunkCount stored := by
  induction n generalizing schema with
  | zero => exact Yields.pure ⟨hschema, rfl, by simp, by simp⟩
  | succ n ih =>
    refine (yields_readColumn chunkSize chunkCount).bind fun stored hstored => ?_
    cases hadd : schema.addColumn stored.column with
    | error e => exact Yields.fail _ _
    | ok schema₁ =>
      obtain ⟨hfree, rfl⟩ := Schema.eq_of_addColumn hadd
      refine (ih (hschema.addColumn hfree)).bind fun result hresult => ?_
      obtain ⟨schema', others⟩ := result
      obtain ⟨hwf, hindexes, hcolumns, hothers⟩ := hresult
      refine Yields.pure ⟨hwf, hindexes, ?_, fun s hs => ?_⟩
      · simp only at hcolumns ⊢
        rw [hcolumns]
        simp
      · rcases List.mem_cons.mp hs with rfl | hs
        · exact hstored
        · exact hothers s hs

/-- What is known of every column that is read. -/
theorem yields_readColumns_all {P : StoredColumn → Prop} {chunkSize chunkCount : Nat}
    (h : Yields (readColumn chunkSize chunkCount) P) (n : Nat) (schema : Schema) :
    Yields (readColumns chunkSize chunkCount n schema) fun result =>
      result.2.length = n ∧ ∀ stored ∈ result.2, P stored := by
  induction n generalizing schema with
  | zero => exact Yields.pure ⟨rfl, by simp⟩
  | succ n ih =>
    refine h.bind fun stored hstored => ?_
    cases schema.addColumn stored.column with
    | error e => exact Yields.fail _ _
    | ok schema₁ =>
      refine (ih schema₁).bind fun result hresult => ?_
      obtain ⟨schema', others⟩ := result
      exact Yields.pure ⟨congrArg Nat.succ hresult.1, List.forall_mem_cons.mpr ⟨hstored, hresult.2⟩⟩

/-! ## Indexes -/

/-- An index as it is read. -/
structure IndexOk (chunkSize chunkCount : Nat) (schema : Schema) (stored : StoredIndex) : Prop where
  length : stored.bitmaps.length = chunkCount
  bitmap : ∀ bits ∈ stored.bitmaps, bits.capacity ≤ chunkSize
  source : ∃ column, schema.columns[stored.index.sourceSlot]? = some column ∧
    column.name = stored.index.source

theorem yields_readIndex (registered schema : Schema) (chunkSize chunkCount : Nat) :
    Yields (readIndex registered schema chunkSize chunkCount)
      (IndexOk chunkSize chunkCount schema) := by
  refine Yields.bind_any fun name => Yields.bind_any fun source => ?_
  cases hcolumn : schema.column? source with
  | none => exact Yields.fail _ _
  | some found =>
    obtain ⟨slot, column⟩ := found
    have hbitmap : Yields (readIndexBitmap name chunkSize) fun bits => bits.capacity ≤ chunkSize :=
      Yields.bind_any fun bits => Yields.require_bind fun hle => Yields.pure (by simpa using hle)
    refine (hbitmap.replicate chunkCount).bind fun bitmaps hbitmaps => ?_
    exact Yields.pure ⟨hbitmaps.1, hbitmaps.2, column, Schema.exists_of_column? hcolumn⟩

theorem yields_readIndexes (registered : Schema) (chunkSize chunkCount n : Nat) {schema : Schema}
    (hschema : schema.WellFormed) :
    Yields (readIndexes registered chunkSize chunkCount n schema) fun result =>
      result.1.WellFormed ∧ result.1.columns = schema.columns ∧
        result.1.indexes = schema.indexes ++ (result.2.map StoredIndex.index).toArray ∧
        ∀ stored ∈ result.2, IndexOk chunkSize chunkCount schema stored := by
  induction n generalizing schema with
  | zero => exact Yields.pure ⟨hschema, rfl, by simp, by simp⟩
  | succ n ih =>
    refine (yields_readIndex registered schema chunkSize chunkCount).bind fun stored hstored => ?_
    cases hadd : schema.addIndex stored.index with
    | error e => exact Yields.fail _ _
    | ok schema₁ =>
      obtain ⟨hfree, rfl⟩ := Schema.eq_of_addIndex hadd
      obtain ⟨column, hcolumn, hname⟩ := hstored.source
      refine (ih (hschema.addIndex hfree hcolumn hname)).bind fun result hresult => ?_
      obtain ⟨schema', others⟩ := result
      obtain ⟨hwf, hcolumns, hindexes, hothers⟩ := hresult
      refine Yields.pure ⟨hwf, hcolumns, ?_, fun s hs => ?_⟩
      · simp only at hindexes ⊢
        rw [hindexes]
        simp
      · rcases List.mem_cons.mp hs with rfl | hs
        · exact hstored
        · exact ⟨(hothers s hs).length, (hothers s hs).bitmap, (hothers s hs).source⟩

/-- What is known of every index that is read. -/
theorem yields_readIndexes_all {P : StoredIndex → Prop} {registered : Schema}
    {chunkSize chunkCount : Nat}
    (h : ∀ schema, Yields (readIndex registered schema chunkSize chunkCount) P) (n : Nat)
    (schema : Schema) :
    Yields (readIndexes registered chunkSize chunkCount n schema) fun result =>
      result.2.length = n ∧ ∀ stored ∈ result.2, P stored := by
  induction n generalizing schema with
  | zero => exact Yields.pure ⟨rfl, by simp⟩
  | succ n ih =>
    refine (h schema).bind fun stored hstored => ?_
    cases schema.addIndex stored.index with
    | error e => exact Yields.fail _ _
    | ok schema₁ =>
      refine (ih schema₁).bind fun result hresult => ?_
      obtain ⟨schema', others⟩ := result
      exact Yields.pure ⟨congrArg Nat.succ hresult.1, List.forall_mem_cons.mpr ⟨hstored, hresult.2⟩⟩

/-! ## Live rows -/

theorem yields_readFill (chunkSize watermark id : Nat) :
    Yields (readFill chunkSize watermark id) fun fill =>
      fill.capacity ≤ chunkSize ∧
        ∀ offset, fill.contains offset = true → id * chunkSize + offset < watermark := by
  refine Yields.bind_any fun fill => Yields.require_bind fun hle => ?_
  refine Yields.require_bind fun hall => Yields.pure ⟨by simpa using hle, fun offset ho => ?_⟩
  simpa using List.all_eq_true.mp hall offset (Bitmap.mem_toList.mpr ho)

theorem yields_readFills (chunkSize watermark n id : Nat) :
    Yields (readFills chunkSize watermark n id) fun fills =>
      fills.length = n ∧ ∀ (i : Nat) fill, fills[i]? = some fill →
        fill.capacity ≤ chunkSize ∧
          ∀ offset, fill.contains offset = true → (id + i) * chunkSize + offset < watermark := by
  induction n generalizing id with
  | zero => exact Yields.pure ⟨rfl, by simp⟩
  | succ n ih =>
    refine (yields_readFill chunkSize watermark id).bind fun fill hf => ?_
    refine (ih (id + 1)).bind fun rest hrest => ?_
    refine Yields.pure ⟨by simp [hrest.1], fun i found hfound => ?_⟩
    cases i with
    | zero =>
      cases hfound
      exact hf
    | succ i =>
      have := hrest.2 i found hfound
      rwa [show id + 1 + i = id + (i + 1) by omega] at this

/-! ## Putting the parts together -/

theorem filterMap_of_some {α β : Type} {f : α → Option β} {xs : List α}
    (h : ∀ x ∈ xs, (f x).isSome = true) (i : Nat) :
    (xs.filterMap f)[i]? = xs[i]?.bind f := by
  induction xs generalizing i with
  | nil => rfl
  | cons x rest ih =>
    obtain ⟨y, hy⟩ := Option.isSome_iff_exists.mp (h x List.mem_cons_self)
    rw [List.filterMap_cons, hy]
    cases i with
    | zero => simp [hy]
    | succ i => simpa using ih (fun z hz => h z (List.mem_cons_of_mem _ hz)) i

theorem size_eq_of_isSome {α β : Type} {xs : Array α} {ys : Array β}
    (h : ∀ i : Nat, xs[i]?.isSome = ys[i]?.isSome) : xs.size = ys.size := by
  rcases Nat.lt_trichotomy xs.size ys.size with hlt | heq | hlt
  · have := h xs.size
    rw [Array.getElem?_eq_none le_rfl, Array.getElem?_eq_getElem hlt] at this
    cases this
  · exact heq
  · have := h ys.size
    rw [Array.getElem?_eq_none le_rfl, Array.getElem?_eq_getElem hlt] at this
    cases this

/-- The part of every column or index that belongs to one chunk. -/
theorem getElem?_parts {α : Type} (parts : List (List α)) {count id : Nat}
    (hlength : ∀ part ∈ parts, part.length = count) (hid : id < count) (slot : Nat) :
    ((parts.map List.toArray).filterMap (·[id]?)).toArray[slot]? =
      parts[slot]?.bind fun part => part[id]? := by
  rw [List.getElem?_toArray, filterMap_of_some]
  · rw [List.getElem?_map]
    cases parts[slot]? <;> simp
  · intro part hpart
    obtain ⟨list, hlist, rfl⟩ := List.mem_map.mp hpart
    have := hlength list hlist
    simp [show id < list.length by omega]

/-- Columns, indexes and live rows that go together. -/
structure PartsOk (chunkSize chunkCount watermark : Nat) (schema : Schema)
    (columns : List StoredColumn) (indexes : List StoredIndex) (fills : List Bitmap) : Prop where
  wellFormed : schema.WellFormed
  columns_eq : schema.columns = (columns.map StoredColumn.column).toArray
  indexes_eq : schema.indexes = (indexes.map StoredIndex.index).toArray
  column : ∀ stored ∈ columns, ColumnOk chunkSize chunkCount stored
  bitmaps : ∀ stored ∈ indexes, stored.bitmaps.length = chunkCount ∧
    ∀ bits ∈ stored.bitmaps, bits.capacity ≤ chunkSize
  fills_length : fills.length = chunkCount
  fill : ∀ (id : Nat) fill, fills[id]? = some fill → fill.capacity ≤ chunkSize ∧
    ∀ offset, fill.contains offset = true → id * chunkSize + offset < watermark

/-- The dictionaries of columns as they were read. -/
def dictionariesOf (columns : List StoredColumn) : Array Dictionary :=
  (columns.map StoredColumn.dictionary).toArray

/-- The chunks that the parts make. -/
def chunksOf (chunkSize : Nat) (columns : List StoredColumn) (indexes : List StoredIndex)
    (fills : List Bitmap) : Array Chunk :=
  (fills.zipIdx.map fun (fill, id) =>
    assemble chunkSize (columns.map fun stored => stored.segments.toArray)
      (indexes.map fun stored => stored.bitmaps.toArray) id fill).toArray

theorem getElem?_chunksOf (chunkSize : Nat) (columns : List StoredColumn)
    (indexes : List StoredIndex) (fills : List Bitmap) (id : Nat) :
    (chunksOf chunkSize columns indexes fills)[id]? = fills[id]?.map
      (assemble chunkSize (columns.map fun stored => stored.segments.toArray)
        (indexes.map fun stored => stored.bitmaps.toArray) id) := by
  rw [chunksOf, List.getElem?_toArray, List.getElem?_map, List.getElem?_zipIdx]
  cases fills[id]? <;> simp

variable {config : Config} {chunkCount watermark : Nat} {schema : Schema}
  {columns : List StoredColumn} {indexes : List StoredIndex} {fills : List Bitmap}

/-- What is known of the columns, indexes and bitmaps that were read makes them go together. -/
theorem partsOk_of_read {chunkSize : Nat} {schema₁ : Schema}
    (hcolumns : schema₁.WellFormed ∧ schema₁.indexes = Schema.empty.indexes ∧
      schema₁.columns = Schema.empty.columns ++ (columns.map StoredColumn.column).toArray ∧
      ∀ stored ∈ columns, ColumnOk chunkSize chunkCount stored)
    (hindexes : schema.WellFormed ∧ schema.columns = schema₁.columns ∧
      schema.indexes = schema₁.indexes ++ (indexes.map StoredIndex.index).toArray ∧
      ∀ stored ∈ indexes, IndexOk chunkSize chunkCount schema₁ stored)
    (hfills : fills.length = chunkCount ∧ ∀ (i : Nat) fill, fills[i]? = some fill →
      fill.capacity ≤ chunkSize ∧
        ∀ offset, fill.contains offset = true → (0 + i) * chunkSize + offset < watermark) :
    PartsOk chunkSize chunkCount watermark schema columns indexes fills := by
  obtain ⟨-, hnoIndexes, hcolumnsEq, hcolumn⟩ := hcolumns
  obtain ⟨hschema, hcolumnsSame, hindexesEq, hindex⟩ := hindexes
  refine ⟨hschema, ?_, ?_, hcolumn, fun stored hs => ⟨(hindex stored hs).length,
    (hindex stored hs).bitmap⟩, hfills.1, fun id fill hfill => ?_⟩
  · rw [hcolumnsSame, hcolumnsEq]
    exact Array.empty_append
  · rw [hindexesEq, hnoIndexes]
    exact Array.empty_append
  · have hbelow := hfills.2 id fill hfill
    rwa [Nat.zero_add] at hbelow

/-- The segments of chunk `id`, as they are put into it. -/
def segmentsAt (columns : List StoredColumn) (id : Nat) : Array Segment :=
  ((columns.map fun stored => stored.segments.toArray).filterMap (·[id]?)).toArray

/-- The bitmaps of chunk `id`, as they are put into it. -/
def bitmapsAt (indexes : List StoredIndex) (id : Nat) : Array Bitmap :=
  ((indexes.map fun stored => stored.bitmaps.toArray).filterMap (·[id]?)).toArray

section Parts

variable (h : PartsOk config.chunkSize chunkCount watermark schema columns indexes fills) {id : Nat}
  (hid : id < chunkCount)

include h hid

theorem PartsOk.getElem?_segmentsAt (slot : Nat) :
    (segmentsAt columns id)[slot]? = columns[slot]?.bind fun stored => stored.segments[id]? := by
  have hlength : ∀ part ∈ columns.map StoredColumn.segments, part.length = chunkCount := by
    simpa using fun stored hs => (h.column stored hs).length
  have hparts := getElem?_parts (columns.map StoredColumn.segments) hlength hid slot
  rw [List.map_map, List.getElem?_map] at hparts
  rw [segmentsAt, show (fun stored : StoredColumn => stored.segments.toArray) =
    List.toArray ∘ StoredColumn.segments from rfl, hparts]
  cases columns[slot]? <;> rfl

theorem PartsOk.getElem?_bitmapsAt (slot : Nat) :
    (bitmapsAt indexes id)[slot]? = indexes[slot]?.bind fun stored => stored.bitmaps[id]? := by
  have hlength : ∀ part ∈ indexes.map StoredIndex.bitmaps, part.length = chunkCount := by
    simpa using fun stored hs => (h.bitmaps stored hs).1
  have hparts := getElem?_parts (indexes.map StoredIndex.bitmaps) hlength hid slot
  rw [List.map_map, List.getElem?_map] at hparts
  rw [bitmapsAt, show (fun stored : StoredIndex => stored.bitmaps.toArray) =
    List.toArray ∘ StoredIndex.bitmaps from rfl, hparts]
  cases indexes[slot]? <;> rfl

/-- There is a segment for every column. -/
theorem PartsOk.size_segmentsAt : (segmentsAt columns id).size = schema.columns.size := by
  apply size_eq_of_isSome
  intro slot
  rw [h.getElem?_segmentsAt hid, h.columns_eq, List.getElem?_toArray, List.getElem?_map]
  cases hstored : columns[slot]? with
  | none => rfl
  | some stored =>
    have := (h.column stored (List.mem_of_getElem? hstored)).length
    simp [show id < stored.segments.length by omega]

/-- There is a bitmap for every index. -/
theorem PartsOk.size_bitmapsAt : (bitmapsAt indexes id).size = schema.indexes.size := by
  apply size_eq_of_isSome
  intro slot
  rw [h.getElem?_bitmapsAt hid, h.indexes_eq, List.getElem?_toArray, List.getElem?_map]
  cases hstored : indexes[slot]? with
  | none => rfl
  | some stored =>
    have := (h.bitmaps stored (List.mem_of_getElem? hstored)).1
    simp [show id < stored.bitmaps.length by omega]

theorem PartsOk.segmentOk {slot : Nat} {segment : Segment}
    (hsegment : (segmentsAt columns id)[slot]? = some segment) :
    ∃ column, schema.columns[slot]? = some column ∧
      SegmentOk config.chunkSize column.kind
        (Chunk.dictionaryOf (dictionariesOf columns) slot) segment := by
  rw [h.getElem?_segmentsAt hid] at hsegment
  obtain ⟨stored, hstored, hs⟩ := Option.bind_eq_some_iff.mp hsegment
  have hok := h.column stored (List.mem_of_getElem? hstored)
  refine ⟨stored.column, by simp [h.columns_eq, hstored], ?_⟩
  have hdictionary : Chunk.dictionaryOf (dictionariesOf columns) slot = stored.dictionary := by
    simp [Chunk.dictionaryOf, dictionariesOf, hstored]
  rw [hdictionary]
  exact hok.segment segment (List.mem_of_getElem? hs)

theorem PartsOk.bitmap_capacity_le {bits : Bitmap} (hmem : bits ∈ bitmapsAt indexes id) :
    bits.capacity ≤ config.chunkSize := by
  obtain ⟨slot, hslot⟩ := Array.mem_iff_getElem?.mp hmem
  rw [h.getElem?_bitmapsAt hid] at hslot
  obtain ⟨stored, hstored, hbits⟩ := Option.bind_eq_some_iff.mp hslot
  exact (h.bitmaps stored (List.mem_of_getElem? hstored)).2 _ (List.mem_of_getElem? hbits)

end Parts

/-- A chunk put together from parts is well-formed and holds what they hold. -/
theorem PartsOk.assemble (h : PartsOk config.chunkSize chunkCount watermark schema columns indexes
      fills) (husable : config.fault? = none) {id : Nat} {fill : Bitmap}
    (hfill : fills[id]? = some fill) :
    ∃ chunk, (chunksOf config.chunkSize columns indexes fills)[id]? = some chunk ∧
      chunk.WellFormed config.chunkSize schema (dictionariesOf columns) ∧
      chunk.columns.size = schema.columns.size ∧
      (∀ offset, chunk.fill.contains offset = fill.contains offset) ∧
      (∀ slot offset, chunk.cell? slot offset =
        (columns[slot]?.bind fun stored => stored.segments[id]?).bind fun s => s.cell? offset) ∧
      ∀ slot offset, chunk.marks slot offset =
        (indexes[slot]?.bind fun stored => stored.bitmaps[id]?).any fun bits =>
          bits.contains offset := by
  have hid : id < chunkCount := by
    rw [← h.fills_length]
    exact (List.getElem?_eq_some_iff.mp hfill).1
  have hwf := Chunk.wellFormed_restore (Config.chunkSize_of_usable husable).1
    (h.fill id fill hfill).1
    (fun slot segment hs => by
      obtain ⟨column, hc, hok⟩ := h.segmentOk hid hs
      exact ⟨column, hc, hok.wellFormed, hok.capacity_le⟩)
    (fun slot segment hs offset cell hcell => by
      obtain ⟨column, -, hok⟩ := h.segmentOk hid hs
      exact hok.known offset cell hcell)
    (h.size_bitmapsAt hid) fun bits hmem => h.bitmap_capacity_le hid hmem
  have hsame := Chunk.restore_same
    (fun segment hmem => by
      obtain ⟨slot, hslot⟩ := Array.mem_iff_getElem?.mp hmem
      obtain ⟨column, -, hok⟩ := h.segmentOk hid hslot
      exact ⟨column.kind, _, hok.wellFormed⟩) config.chunkSize fill (bitmapsAt indexes id)
  refine ⟨_, ?_, hwf, (Array.size_map ..).trans (h.size_segmentsAt hid), hsame.fill,
    fun slot offset => ?_, fun slot offset => ?_⟩
  · rw [getElem?_chunksOf, hfill, Option.map_some]
    rfl
  · rw [hsame.cell?, Chunk.cell?, h.getElem?_segmentsAt hid]
  · rw [hsame.marks, Chunk.marks, h.getElem?_bitmapsAt hid]

end Snapshot

end ColumnStore
