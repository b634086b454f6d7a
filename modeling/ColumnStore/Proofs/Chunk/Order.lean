import ColumnStore.Proofs.Chunk.Write

/-!
# The order of a row's cells

The cells of a new row are written one after another, and then the indexes over their columns are
asked one column after another. Cells of different columns do not meet: a segment is written once
(`writeCell_comm`) and an index is asked once (`reindex_comm`). So a chunk comes out the same
whatever order the cells are in (`insert_perm`), down to its segments and bitmaps.
-/

namespace ColumnStore

namespace Chunk

variable {chunk chunk' : Chunk} {offset : Nat}

theorem modify_comm {α : Type} (xs : Array α) {i j : Nat} (hne : i ≠ j) (f g : α → α) :
    (xs.modify i f).modify j g = (xs.modify j g).modify i f := by
  refine Array.ext_getElem? fun place => ?_
  simp only [Array.getElem?_modify]
  split_ifs with hj hi
  · exact absurd (hi.trans hj.symm) hne
  · rfl
  · rfl
  · rfl

/-! ## Cells -/

theorem writeCell_eq_ok_iff {slot : Nat} {name : String} {cell : Option Cell} :
    chunk.writeCell slot name offset cell = (.ok (), chunk') ↔
      (∃ segment, chunk.columns[slot]? = some segment ∧
        segment.checkWrite offset cell = .ok ()) ∧
      chunk' = chunk.putCell slot offset cell := by
  unfold writeCell
  cases hsegment : chunk.columns[slot]? with
  | none => simp
  | some segment =>
    cases hcheck : segment.checkWrite offset cell with
    | error e => simp [hcheck]
    | ok _ => simp [hcheck, putCell, eq_comm]

/-- Writes to two columns can change places. -/
theorem writeCell_comm {slot slot' : Nat} (hne : slot ≠ slot') {name name' : String}
    {cell cell' : Option Cell} {between : Chunk}
    (hfirst : chunk.writeCell slot name offset cell = (.ok (), between))
    (hsecond : between.writeCell slot' name' offset cell' = (.ok (), chunk')) :
    ∃ between', chunk.writeCell slot' name' offset cell' = (.ok (), between') ∧
      between'.writeCell slot name offset cell = (.ok (), chunk') := by
  obtain ⟨⟨segment, hsegment, hcheck⟩, rfl⟩ := writeCell_eq_ok_iff.mp hfirst
  obtain ⟨⟨segment', hsegment', hcheck'⟩, rfl⟩ := writeCell_eq_ok_iff.mp hsecond
  rw [putCell, Array.getElem?_modify, if_neg hne] at hsegment'
  refine ⟨_, writeCell_eq_ok_iff.mpr ⟨⟨segment', hsegment', hcheck'⟩, rfl⟩,
    writeCell_eq_ok_iff.mpr ⟨⟨segment, ?_, hcheck⟩, ?_⟩⟩
  · rw [putCell, Array.getElem?_modify, if_neg (Ne.symm hne), hsegment]
  · simp only [putCell, modify_comm chunk.columns hne]

theorem writeCells_cons_eq_ok_iff {slot : Nat} {cell : Cell} {rest : List (Nat × Cell)} :
    chunk.writeCells offset ((slot, cell) :: rest) = (.ok (), chunk') ↔
      ∃ between, chunk.writeCell slot "" offset (some cell) = (.ok (), between) ∧
        between.writeCells offset rest = (.ok (), chunk') := by
  rw [writeCells]
  rcases chunk.writeCell slot "" offset (some cell) with ⟨answer, between⟩
  cases answer with
  | error e => simp
  | ok _ => simp

/-- Cells of different columns that are written in one order are written in any other, with the same
    segments. -/
theorem writeCells_perm {cells cells' : List (Nat × Cell)} (hperm : cells.Perm cells')
    (hnodup : (cells.map Prod.fst).Nodup)
    (h : chunk.writeCells offset cells = (.ok (), chunk')) :
    chunk.writeCells offset cells' = (.ok (), chunk') := by
  induction hperm generalizing chunk with
  | nil => exact h
  | cons entry _ ih =>
    obtain ⟨between, hfirst, hrest⟩ := writeCells_cons_eq_ok_iff.mp h
    have hnodup := (List.nodup_cons.mp hnodup).2
    exact writeCells_cons_eq_ok_iff.mpr ⟨between, hfirst, ih hnodup hrest⟩
  | swap second first rest =>
    obtain ⟨between, hfirst, hrest⟩ := writeCells_cons_eq_ok_iff.mp h
    obtain ⟨afterBoth, hsecond, hrest⟩ := writeCells_cons_eq_ok_iff.mp hrest
    have hne : first.1 ≠ second.1 := fun heq =>
      (List.nodup_cons.mp hnodup).1 (heq ▸ List.mem_cons_self)
    obtain ⟨between', hsecond, hfirst⟩ := writeCell_comm hne hfirst hsecond
    exact writeCells_cons_eq_ok_iff.mpr
      ⟨between', hsecond, writeCells_cons_eq_ok_iff.mpr ⟨afterBoth, hfirst, hrest⟩⟩
  | trans hperm _ ih ih' =>
    exact ih' ((hperm.map Prod.fst).nodup_iff.mp hnodup) (ih hnodup h)

/-! ## Index bits -/

/-- The indexes over two columns can be asked in either order: no bitmap belongs to two indexes. -/
theorem assignAnswers_comm (schema : Schema) (dictionaries : Array Dictionary) (offset : Nat)
    (cells : Nat → Option Cell) (source source' : Nat) (indexes : Array Bitmap) :
    let ask (source : Nat) := assignAnswers schema (dictionaryOf dictionaries source) offset source
      (cells source)
    ask source' (ask source indexes) = ask source (ask source' indexes) := by
  intro ask
  -- one step for both columns, which finds the column of an index by itself
  let tell (indexes : Array Bitmap) (p : Nat × Index) : Array Bitmap :=
    indexes.modify p.1 fun bits => bits.assign offset
      (p.2.answer (dictionaryOf dictionaries p.2.sourceSlot) (cells p.2.sourceSlot))
  have hask (source : Nat) (indexes : Array Bitmap) :
      ask source indexes = (schema.indexesOn source).foldl tell indexes := by
    refine List.foldl_ext _ _ _ fun indexes p hp => ?_
    obtain ⟨slot, index⟩ := p
    rw [← (mem_indexesOn.mp hp).2]
  have hregistered {p : Nat × Index}
      (hp : p ∈ schema.indexesOn source ++ schema.indexesOn source') :
      schema.indexes[p.1]? = some p.2 := by
    rcases List.mem_append.mp hp with hp | hp
    · exact (mem_indexesOn.mp hp).1
    · exact (mem_indexesOn.mp hp).1
  have hcomm : ∀ p ∈ schema.indexesOn source ++ schema.indexesOn source',
      ∀ q ∈ schema.indexesOn source ++ schema.indexesOn source', ∀ indexes,
        tell (tell indexes p) q = tell (tell indexes q) p := by
    intro p hp q hq indexes
    by_cases heq : p.1 = q.1
    · have hindex := hregistered hp
      rw [heq, hregistered hq] at hindex
      rw [Prod.ext heq (Option.some.inj hindex).symm]
    · exact modify_comm indexes heq _ _
  rw [hask, hask, hask, hask, ← List.foldl_append, ← List.foldl_append]
  exact List.perm_append_comm.foldl_eq' hcomm indexes

theorem reindex_comm (chunk : Chunk) (schema : Schema) (dictionaries : Array Dictionary)
    (offset source source' : Nat) :
    (chunk.reindex schema dictionaries offset source).reindex schema dictionaries offset source' =
      (chunk.reindex schema dictionaries offset source').reindex schema dictionaries offset
        source := by
  -- neither pass changes the cells that the other asks about
  have h := assignAnswers_comm schema dictionaries offset
    (fun source => chunk.askedCell source offset) source source' chunk.indexes
  show ({ chunk with indexes := _ } : Chunk) = { chunk with indexes := _ }
  rw [Chunk.mk.injEq]
  exact ⟨rfl, rfl, rfl, rfl, h⟩

/-- A new row comes out the same whatever order its cells are in. -/
theorem insert_perm {schema : Schema} {dictionaries : Array Dictionary}
    {cells cells' : List (Nat × Cell)} (hperm : cells.Perm cells')
    (hnodup : (cells.map Prod.fst).Nodup)
    (h : chunk.insert schema dictionaries offset cells = (.ok (), chunk')) :
    chunk.insert schema dictionaries offset cells' = (.ok (), chunk') := by
  unfold insert at h ⊢
  rcases hgrow : (chunk.sync schema).growFor offset with ⟨_ | _, grown⟩
  · rw [hgrow] at h
    cases congrArg Prod.fst h
  · rcases hwrite : grown.writeCells offset cells with ⟨_ | _, filled⟩
    · simp only [hgrow, hwrite] at h
      cases congrArg Prod.fst h
    · simp only [hgrow, hwrite] at h
      simp only [writeCells_perm hperm hnodup hwrite, ← h]
      rw [hperm.foldl_eq' fun entry _ entry' _ chunk => reindex_comm chunk schema dictionaries
        offset entry.1 entry'.1]

end Chunk

end ColumnStore
