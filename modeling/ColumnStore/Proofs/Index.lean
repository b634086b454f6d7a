import ColumnStore.Index
import ColumnStore.Proofs.Column
import ColumnStore.Proofs.Segment

/-!
# Computing an index

`compute_of_attached`: the bitmap computed for an index with a predicate holds the offsets whose
cell the predicate accepts, whether its answers are looked up in a table of the dictionary's texts
or the predicate is asked for each value. `evaluateCell_of_attached` says the same of one cell.
-/

namespace ColumnStore

namespace Index

/-- Whether a predicate accepts what a row stores; a row that stores nothing is not accepted. -/
def hits (predicate : Value → Bool) (dictionary : Dictionary) (cell : Option Cell) : Bool :=
  cell.any fun cell => predicate (Column.decode dictionary cell)

/-- A predicate's answers do not change as the dictionary grows. -/
theorem hits_of_extends (predicate : Value → Bool) {d d' : Dictionary} (h : d.Extends d')
    {cell : Option Cell} (hknown : ∀ c ∈ cell, c.Known d) :
    hits predicate d' cell = hits predicate d cell := by
  cases cell with
  | none => rfl
  | some cell =>
    show predicate (Column.decode d' cell) = predicate (Column.decode d cell)
    rw [Column.decode_of_extends h (hknown cell rfl)]

theorem evaluateCell_of_attached {index : Index} {predicate : Value → Bool}
    (h : index.predicate = some predicate) (dictionary : Dictionary) (cell : Option Cell) :
    index.evaluateCell dictionary cell = some (hits predicate dictionary cell) := by
  rw [evaluateCell, h]
  rfl

theorem compute_of_detached {index : Index} (h : index.predicate = none) (dictionary : Dictionary)
    (segment : Segment) (table : Option (Array Bool)) :
    index.compute dictionary segment table = none := by
  rw [compute, h]
  rfl

/-- The table of answers says of an id what the predicate says of its text. -/
theorem getElem?_evaluate {d : Dictionary} {f : String → Bool} {id : Nat} (h : id < d.size) :
    ∃ s, d.get? id = some s ∧ (d.evaluate f)[id]? = some (f s) := by
  have hentry : d.entries[id]? = some d.entries[id] := Array.getElem?_eq_getElem h
  refine ⟨d.entries[id].text, ?_, ?_⟩
  · rw [Dictionary.get?, hentry, Option.map_some]
  · rw [Dictionary.evaluate, Array.getElem?_map, hentry, Option.map_some]

/-- What is computed with a table whose answers are the predicate's, or without one, is the set of
    the offsets that the predicate accepts. -/
theorem compute_of_answers {index : Index} {predicate : Value → Bool}
    (h : index.predicate = some predicate) {kind : Kind} {capacity : Nat} {segment : Segment}
    (hs : segment.WellFormed kind capacity) {dictionary : Dictionary} {table : Option (Array Bool)}
    (htable : ∀ answers ∈ table, ∀ offset cell, segment.cell? offset = some cell →
      (cell.id?.any fun id => answers[id]?.getD false) =
        predicate (Column.decode dictionary cell)) :
    ∃ bits, index.compute dictionary segment table = some bits ∧
      bits.Fits capacity ∧
      ∀ offset, bits.contains offset = hits predicate dictionary (segment.cell? offset) := by
  unfold compute
  rw [h]
  simp only [Option.map_some, Option.some.injEq, exists_eq_left']
  generalize hhit : (fun offset => _ : Nat → Bool) = hit
  have hpresent : ∀ offset ∈ segment.presence.toList.filter hit, offset < capacity := by
    intro offset hmem
    exact hs.presence.lt offset (Bitmap.mem_toList.mp (List.mem_filter.mp hmem).1)
  rw [hs.capacity_eq]
  refine ⟨(Bitmap.fits_withCapacity capacity).foldl_set hpresent, fun offset => ?_⟩
  rw [Bitmap.contains_foldl_set, Bitmap.contains_withCapacity, Bool.or_false, Bool.eq_iff_iff,
    decide_eq_true_eq, List.mem_filter, Bitmap.mem_toList]
  cases hcell : segment.cell? offset with
  | none =>
    have habsent : segment.isPresent offset = false := by
      rw [← hs.isSome_cell?, hcell]
      rfl
    rw [Segment.isPresent] at habsent
    simp [habsent, hits]
  | some cell =>
    have hpres : segment.presence.contains offset = true := Segment.isPresent_of_cell? hcell
    have hanswer : hit offset = predicate (Column.decode dictionary cell) := by
      rw [← hhit]
      cases table with
      | none => simp only [hs.valueAt_of_lt (hs.presence.lt offset hpres), hcell]
      | some answers =>
        simp only [Segment.enumAt_eq, hcell, Option.bind_some]
        exact htable answers rfl offset cell hcell
    simp [hpres, hanswer, hits]

/-- The bitmap computed for an attached index holds the offsets that the predicate accepts. -/
theorem compute_of_attached {index : Index} {predicate : Value → Bool}
    (h : index.predicate = some predicate) {column : Column} {capacity : Nat} {segment : Segment}
    (hs : segment.WellFormed column.kind capacity) {dictionary : Dictionary}
    (hknown : ∀ offset cell, segment.cell? offset = some cell → cell.Known dictionary) :
    ∃ bits, index.compute dictionary segment (index.table? column dictionary) = some bits ∧
      bits.Fits capacity ∧
      ∀ offset, bits.contains offset = hits predicate dictionary (segment.cell? offset) := by
  refine compute_of_answers h hs fun answers hanswers offset cell hcell => ?_
  rw [table?, h, Option.bind_some, Column.evaluate] at hanswers
  split_ifs at hanswers with henum
  · -- the cell is an id, and the table has the answer for its text
    cases hanswers
    have hkind := (Segment.kind_of_cell? hcell).trans (hs.kind_eq.trans henum)
    cases cell with
    | enum id =>
      obtain ⟨s, hs, htable⟩ :=
        getElem?_evaluate (f := fun s => predicate (.string s)) (hknown offset _ hcell)
      simp only [Cell.id?, Option.any_some, htable, Option.getD_some, Column.decode, hs]
    | _ => cases hkind
  · cases hanswers

/-- Asking the predicate for each value gives the same offsets. -/
theorem compute_without_table {index : Index} {predicate : Value → Bool}
    (h : index.predicate = some predicate) {kind : Kind} {capacity : Nat} {segment : Segment}
    (hs : segment.WellFormed kind capacity) (dictionary : Dictionary) :
    ∃ bits, index.compute dictionary segment none = some bits ∧ bits.Fits capacity ∧
      ∀ offset, bits.contains offset = hits predicate dictionary (segment.cell? offset) :=
  compute_of_answers h hs fun _ hanswers => nomatch hanswers

end Index

end ColumnStore
