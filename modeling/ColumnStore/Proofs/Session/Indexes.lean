import ColumnStore.Proofs.Session

/-!
# Indexes of sessions

The five places that write index bits (inserts, writes of a pass, deletions, the computation of a
new index and a load) all keep `Chunk.Indexed`, which is part of the invariant of sessions. Here it
is said in terms of the bitmaps and segments themselves:

* `Reachable.index_bit_iff`: in every session, the bitmap of an attached index holds exactly the
  offsets that are present in the source column and whose decoded value the predicate accepts.
-/

namespace ColumnStore

namespace Chunk

variable {chunkSize : Nat} {schema : Schema} {dictionaries : Array Dictionary} {chunk : Chunk}

theorem marks_eq_true_iff {slot offset : Nat} :
    chunk.marks slot offset = true ↔
      ∃ bits, chunk.indexes[slot]? = some bits ∧ bits.contains offset = true :=
  Option.any_eq_true ..

theorem cell?_eq_some_iff {slot offset : Nat} {cell : Cell} :
    chunk.cell? slot offset = some cell ↔
      ∃ segment, chunk.columns[slot]? = some segment ∧ segment.isPresent offset = true ∧
        segment.cells.get? offset = some cell := by
  unfold cell? Segment.cell?
  rw [Option.bind_eq_some_iff]
  constructor
  · rintro ⟨segment, hsegment, hcell⟩
    split_ifs at hcell with hpresent
    exact ⟨segment, hsegment, hpresent, hcell⟩
  · rintro ⟨segment, hsegment, hpresent, hcell⟩
    exact ⟨segment, hsegment, by rw [if_pos hpresent, hcell]⟩

/-- A present offset has a cell, and if that is an id, a text. -/
theorem WellFormed.exists_cell (h : chunk.WellFormed chunkSize schema dictionaries) {slot : Nat}
    {segment : Segment} (hsegment : chunk.columns[slot]? = some segment) {offset : Nat}
    (hpresent : segment.isPresent offset = true) :
    ∃ cell, segment.cells.get? offset = some cell ∧
      cell.Known (dictionaryOf dictionaries slot) := by
  obtain ⟨column, -, hs⟩ := h.column slot segment hsegment
  obtain ⟨cell, hcell⟩ := Option.isSome_iff_exists.mp (Cells.get?_isSome hs.room
    (hs.presence.lt offset hpresent))
  refine ⟨cell, hcell, h.known slot offset cell ?_⟩
  exact cell?_eq_some_iff.mpr ⟨segment, hsegment, hpresent, hcell⟩

end Chunk

/-- The bitmap of an attached index holds, in every chunk, exactly the offsets that its source
    column has a value at which the predicate accepts. -/
theorem Reachable.index_bit_iff {s : Session} (h : Reachable s) {slot : Nat} {index : Index}
    {predicate : Value → Bool}
    (hindex : s.collection.table.schema.indexes[slot]? = some index)
    (hpredicate : index.predicate = some predicate) :
    ∃ column,
      s.collection.table.schema.column? index.source = some (index.sourceSlot, column) ∧
      ∀ (id : Nat) chunk, s.collection.table.chunks[id]? = some chunk → ∀ offset,
        (∀ segment, chunk.columns[index.sourceSlot]? = some segment →
          segment.isPresent offset = true → ∃ cell, segment.cells.get? offset = some cell ∧
            cell.Known (s.collection.table.dictionary index.sourceSlot)) ∧
        ((∃ bits, chunk.indexes[slot]? = some bits ∧ bits.contains offset = true) ↔
          ∃ segment cell, chunk.columns[index.sourceSlot]? = some segment ∧
            segment.isPresent offset = true ∧ segment.cells.get? offset = some cell ∧
            predicate (Column.decode (s.collection.table.dictionary index.sourceSlot) cell) =
              true) := by
  have hwf := h.wellFormed.table
  obtain ⟨column, hcolumn, hname⟩ := hwf.schema.source index (Array.mem_of_getElem? hindex)
  refine ⟨column, hwf.schema.column?_eq_some_iff.mpr ⟨hcolumn, hname⟩,
    fun id chunk hchunk offset => ?_⟩
  have hok := hwf.chunk id chunk hchunk
  refine ⟨fun segment hsegment hpresent => hok.wellFormed.exists_cell hsegment hpresent, ?_⟩
  rw [← Chunk.marks_eq_true_iff, hok.indexed slot index predicate hindex hpredicate offset,
    Index.hits, Option.any_eq_true]
  constructor
  · rintro ⟨cell, hcell, haccepts⟩
    obtain ⟨segment, hsegment, hpresent, hget⟩ := Chunk.cell?_eq_some_iff.mp hcell
    exact ⟨segment, cell, hsegment, hpresent, hget, haccepts⟩
  · rintro ⟨segment, cell, hsegment, hpresent, hget, haccepts⟩
    exact ⟨cell, Chunk.cell?_eq_some_iff.mpr ⟨segment, hsegment, hpresent, hget⟩, haccepts⟩

theorem index_bit_iff_flags :
    ∃ chunk, Session.flags.collection.table.chunks[0]? = some chunk ∧
      (∃ bits, chunk.indexes[0]? = some bits ∧ bits.contains 0 = true) ∧
      ¬ ∃ bits, chunk.indexes[0]? = some bits ∧ bits.contains 1 = true := by
  have hindex : Session.flags.collection.table.schema.indexes[0]? =
      some ⟨"set", "flag", 0, some Value.isTrue⟩ := by
    cbv
  obtain ⟨column, -, hbits⟩ := reachable_flags.index_bit_iff hindex rfl
  have hcells : Session.flags.collection.table.chunks[0]?.map
      (fun chunk => (chunk.cell? 0 0, chunk.cell? 0 1)) =
        some (some (.bool true), some (.bool false)) := by
    cbv
  obtain ⟨chunk, hchunk, heq⟩ := Option.map_eq_some_iff.mp hcells
  obtain ⟨hset, hunset⟩ := Prod.mk.inj heq
  refine ⟨chunk, hchunk, ?_, ?_⟩
  · obtain ⟨segment, hsegment, hpresent, hget⟩ := Chunk.cell?_eq_some_iff.mp hset
    exact (hbits 0 chunk hchunk 0).2.mpr ⟨segment, _, hsegment, hpresent, hget, rfl⟩
  · rw [(hbits 0 chunk hchunk 1).2]
    rintro ⟨segment, cell, hsegment, hpresent, hget, haccepts⟩
    have hcell := Chunk.cell?_eq_some_iff.mpr ⟨segment, hsegment, hpresent, hget⟩
    rw [hunset] at hcell
    cases hcell
    cases haccepts

end ColumnStore
