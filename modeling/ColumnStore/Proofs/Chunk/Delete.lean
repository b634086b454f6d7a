import ColumnStore.Proofs.Chunk

/-!
# Deleting rows of a chunk

Deleting takes the selected live rows out with all that they hold (`WellFormed.deleteSelected`) and
counts them (`count_deleteSelected`); nothing else changes (`Deleted`). What was deleted is vacant:
it is not live, holds no cell and is in no index.
-/

namespace ColumnStore

namespace Chunk

variable {chunkSize : Nat} {schema : Schema} {dictionaries : Array Dictionary} {chunk : Chunk}

/-- An offset that nothing is stored at. -/
structure Vacant (chunk : Chunk) (offset : Nat) : Prop where
  fill : chunk.fill.contains offset = false
  cell? : ∀ slot, chunk.cell? slot offset = none
  marks : ∀ slot, chunk.marks slot offset = false

/-- The rows that deleting a selection takes out. -/
def doomed (chunk : Chunk) (selection : Bitmap) (offset : Nat) : Bool :=
  selection.contains offset && chunk.fill.contains offset

/-- What taking some rows out does. -/
structure Deleted (gone : Nat → Bool) (chunk chunk' : Chunk) : Prop where
  fill : ∀ offset, chunk'.fill.contains offset = (chunk.fill.contains offset && !gone offset)
  cell? : ∀ slot offset,
    chunk'.cell? slot offset = if gone offset then none else chunk.cell? slot offset
  marks : ∀ slot offset, chunk'.marks slot offset = (chunk.marks slot offset && !gone offset)

/-- Removing offsets one by one, where there is room for them. -/
theorem removeAll_spec {kind : Kind} {capacity : Nat} {segment : Segment}
    (hs : segment.WellFormed kind capacity) {offsets : List Nat}
    (hlt : ∀ offset ∈ offsets, offset < capacity) :
    (offsets.foldl (fun s offset => if offset < s.capacity then s.remove offset else s)
        segment).WellFormed kind capacity ∧
      ∀ offset, (offsets.foldl
        (fun s offset => if offset < s.capacity then s.remove offset else s) segment).cell? offset =
          if offset ∈ offsets then none else segment.cell? offset := by
  induction offsets generalizing segment with
  | nil => exact ⟨hs, fun offset => by simp⟩
  | cons first rest ih =>
    have hroom : first < segment.capacity := by
      rw [hs.capacity_eq]
      exact hlt first List.mem_cons_self
    obtain ⟨hwf, hview⟩ := ih (hs.remove first) fun o ho => hlt o (List.mem_cons_of_mem _ ho)
    rw [List.foldl_cons, if_pos hroom]
    refine ⟨hwf, fun offset => ?_⟩
    rw [hview, Segment.cell?_remove]
    by_cases hrest : offset ∈ rest
    · simp [hrest]
    · by_cases hfirst : first = offset
      · simp [hfirst]
      · simp [hrest, hfirst, Ne.symm hfirst]

theorem contains_doomed (chunk : Chunk) (selection : Bitmap) (offset : Nat) :
    (selection.and chunk.fill).contains offset = chunk.doomed selection offset :=
  Bitmap.contains_and ..

theorem Deleted.of_none {gone : Nat → Bool} (h : ∀ offset, gone offset = false) (chunk : Chunk) :
    Deleted gone chunk chunk where
  fill offset := by rw [h, Bool.not_false, Bool.and_true]
  cell? slot offset := by rw [h]; rfl
  marks slot offset := by rw [h, Bool.not_false, Bool.and_true]

/-- Deleting a selection takes its live rows out. -/
theorem WellFormed.deleteSelected (h : chunk.WellFormed chunkSize schema dictionaries)
    (selection : Bitmap) :
    (chunk.deleteSelected selection).2.WellFormed chunkSize schema dictionaries ∧
      Deleted (chunk.doomed selection) chunk (chunk.deleteSelected selection).2 ∧
      (chunk.deleteSelected selection).2.capacity = chunk.capacity := by
  unfold Chunk.deleteSelected
  simp only
  split_ifs with hcount
  · -- no live row is selected
    refine ⟨h, Deleted.of_none (fun offset => ?_) chunk, rfl⟩
    rw [Bitmap.count_eq, List.length_eq_zero_iff] at hcount
    rw [← contains_doomed, ← Bool.not_eq_true, ← Bitmap.mem_toList, hcount]
    exact List.not_mem_nil
  · have hmem : ∀ offset, offset ∈ (selection.and chunk.fill).toList ↔
        chunk.doomed selection offset = true := fun offset => by
      rw [Bitmap.mem_toList, contains_doomed]
    have hroom : ∀ offset ∈ (selection.and chunk.fill).toList, offset < chunk.capacity := by
      intro offset hoffset
      rw [hmem, doomed, Bool.and_eq_true] at hoffset
      exact h.fill.lt offset hoffset.2
    have hdeleted : Deleted (chunk.doomed selection) chunk
        { chunk with
          fill := chunk.fill.andNot (selection.and chunk.fill)
          columns := chunk.columns.map fun segment =>
            (selection.and chunk.fill).toList.foldl
              (fun s offset => if offset < s.capacity then s.remove offset else s) segment
          indexes := chunk.indexes.map (·.andNot (selection.and chunk.fill)) } := by
      refine ⟨fun offset => ?_, fun slot offset => ?_, fun slot offset => ?_⟩
      · rw [Bitmap.contains_andNot, contains_doomed]
      · rw [cell?, cell?, Array.getElem?_map]
        cases hsegment : chunk.columns[slot]? with
        | none => simp
        | some segment =>
          obtain ⟨column, -, hs⟩ := h.column slot segment hsegment
          rw [Option.map_some, Option.bind_some, Option.bind_some, (removeAll_spec hs hroom).2]
          simp only [hmem]
      · rw [marks, marks, Array.getElem?_map]
        cases chunk.indexes[slot]? with
        | none => simp
        | some bits =>
          rw [Option.map_some, Option.any_some, Option.any_some, Bitmap.contains_andNot,
            contains_doomed]
    refine ⟨?_, hdeleted, rfl⟩
    exact
      { chunkSize_eq := h.chunkSize_eq
        le_capacity := h.le_capacity
        capacity_le := h.capacity_le
        fill := h.fill.andNot _
        column := fun slot segment hsegment => by
          rw [Array.getElem?_map] at hsegment
          obtain ⟨old, hold, rfl⟩ := Option.map_eq_some_iff.mp hsegment
          obtain ⟨column, hcolumn, hs⟩ := h.column slot old hold
          exact ⟨column, hcolumn, (removeAll_spec hs hroom).1⟩
        known := fun slot offset cell hcell => by
          rw [hdeleted.cell?] at hcell
          split_ifs at hcell
          exact h.known slot offset cell hcell
        indexes_size := (Array.size_map ..).trans h.indexes_size
        index := fun slot bits hbits => by
          rw [Array.getElem?_map] at hbits
          obtain ⟨old, hold, rfl⟩ := Option.map_eq_some_iff.mp hbits
          exact (h.index slot old hold).andNot _ }

/-- Deleted rows leave every index, and attached indexes stay in step with their sources. -/
theorem Deleted.indexed {gone : Nat → Bool} {chunk' : Chunk} (hdel : Deleted gone chunk chunk')
    (h : chunk.Indexed schema dictionaries) : chunk'.Indexed schema dictionaries := by
  intro slot index predicate hindex hpredicate offset
  rw [hdel.marks, hdel.cell?, h slot index predicate hindex hpredicate offset]
  cases gone offset with
  | true => simp [Index.hits]
  | false => simp

theorem Deleted.vacant {gone : Nat → Bool} {chunk' : Chunk} (hdel : Deleted gone chunk chunk')
    {offset : Nat} (hgone : gone offset = true) : chunk'.Vacant offset where
  fill := by rw [hdel.fill, hgone]; simp
  cell? slot := by rw [hdel.cell?, if_pos hgone]
  marks slot := by rw [hdel.marks, hgone]; simp

/-- The number given is that of the rows taken out. -/
theorem count_deleteSelected (chunk : Chunk) (selection : Bitmap) :
    (chunk.deleteSelected selection).1 =
      (chunk.fill.toList.filter (chunk.doomed selection)).length := by
  have hlist : (selection.and chunk.fill).toList =
      chunk.fill.toList.filter (chunk.doomed selection) :=
    Bitmap.toList_eq_filter fun offset => by
      rw [contains_doomed, doomed]
      cases chunk.fill.contains offset <;> simp
  unfold deleteSelected
  simp only
  split_ifs with hcount
  · rw [← hlist, ← Bitmap.count_eq, hcount]
  · rw [← hlist, ← Bitmap.count_eq]

/-- The rows taken out and the rows that stay are the rows there were. -/
theorem WellFormed.deleteSelected_count (h : chunk.WellFormed chunkSize schema dictionaries)
    (selection : Bitmap) :
    (chunk.deleteSelected selection).1 + (chunk.deleteSelected selection).2.fill.count =
      chunk.fill.count := by
  obtain ⟨-, hdel, -⟩ := h.deleteSelected selection
  rw [count_deleteSelected, Bitmap.count_eq, Bitmap.count_eq, Bitmap.toList_eq_filter hdel.fill]
  exact (List.length_eq_length_filter_add _).symm

/-- Deleting one live row takes out that row. -/
theorem delete_of_live (h : chunk.WellFormed chunkSize schema dictionaries) {offset : Nat}
    (hlive : chunk.fill.contains offset = true) :
    ∃ chunk', chunk.delete offset = (true, chunk') ∧
      chunk'.WellFormed chunkSize schema dictionaries ∧ chunk'.capacity = chunk.capacity ∧
      Deleted (fun other => decide (offset = other)) chunk chunk' ∧
      1 + chunk'.fill.count = chunk.fill.count := by
  have hgone : chunk.doomed (Bitmap.empty.set offset) = fun other => decide (offset = other) := by
    funext other
    rw [doomed, Bitmap.contains_set, Bitmap.contains_empty, Bool.or_false]
    by_cases heq : offset = other
    · rw [← heq, hlive, Bool.and_true]
    · simp [heq]
  obtain ⟨hwf, hdel, hcap⟩ := h.deleteSelected (Bitmap.empty.set offset)
  rw [hgone] at hdel
  have hsum := h.deleteSelected_count (Bitmap.empty.set offset)
  have hcount : chunk.fill.count =
      (chunk.deleteSelected (Bitmap.empty.set offset)).2.fill.count + 1 := by
    apply Bitmap.count_of_insert (i := offset)
    · intro other
      rw [hdel.fill]
      by_cases heq : offset = other
      · simp [← heq, hlive]
      · simp [heq]
    · simp [hdel.fill]
  have hone : (chunk.deleteSelected (Bitmap.empty.set offset)).1 = 1 := by omega
  refine ⟨(chunk.deleteSelected (Bitmap.empty.set offset)).2, ?_, hwf, hcap, hdel, ?_⟩
  · unfold Chunk.delete
    rw [if_pos hlive]
    simp only [hone]
    rfl
  · omega

theorem delete_of_not_live {offset : Nat} (h : chunk.fill.contains offset = false) :
    chunk.delete offset = (false, chunk) := by
  unfold delete
  rw [h]
  rfl

end Chunk

end ColumnStore
