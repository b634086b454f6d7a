import ColumnStore.Proofs.Index

/-!
# Special filters against the general one

A selection is narrowed by reading numbers straight from a segment of numbers, by looking ids up in
a table of the dictionary's answers, or by intersection with `Segment.truthy`; the bits of an index
come from a table, from a pass over the values, or from one cell at a time. `Segment.filterValue`
and `Index.evaluateCell` decode each cell and ask the predicate. Results, for a segment of the
column's kind whose ids are in the column's dictionary:

* `filterFloat_eq_filterValue`, `filterEnum_eq_filterValue`, `and_truthy_eq_filterValue`,
  `and_presence_eq_filterValue`: each special filter leaves the selection that the general one
  leaves, word for word;
* `Index.compute_eq`: the three ways to the bits of an attached index agree;
* `Segment.WellFormed.paths_agree`: all of these for one segment.
-/

namespace ColumnStore

namespace Segment

variable {column : Column} {capacity : Nat} {segment : Segment} {dictionary : Dictionary}

/-- A narrowing is what the general filter leaves if it keeps the selection's length and decides on
    each cell as the general filter does on the cell's value. -/
theorem eq_filterValue {narrowed selection : Bitmap} (keep : Cell → Bool)
    (hsize : narrowed.words.size = selection.words.size)
    (hcontains : ∀ offset, narrowed.contains offset =
      (selection.contains offset && (segment.cell? offset).any keep))
    {f : Value → Bool}
    (hkeep : ∀ offset cell, segment.cell? offset = some cell →
      keep cell = f (Column.decode dictionary cell)) :
    narrowed = segment.filterValue dictionary f selection := by
  refine Bitmap.ext_contains (hsize.trans (size_filterValue ..).symm) fun offset => ?_
  rw [hcontains, contains_filterValue]
  cases hcell : segment.cell? offset with
  | none => rfl
  | some cell => rw [Option.any_some, Option.any_some, hkeep offset cell hcell]

theorem WellFormed.filterFloat_eq_filterValue (hs : segment.WellFormed column.kind capacity)
    (hkind : column.kind = .float64) (dictionary : Dictionary) (f : Binary64 → Bool)
    (selection : Bitmap) :
    segment.filterFloat f selection =
      segment.filterValue dictionary (fun v => v.asFloat64?.any f) selection := by
  refine eq_filterValue (fun cell => cell.number?.any f) (size_filterFloat ..) (fun offset => ?_)
    fun offset cell hcell => ?_
  · rw [contains_filterFloat, Option.any_bind]
    rfl
  · have hcellKind := (kind_of_cell? hcell).trans (hs.kind_eq.trans hkind)
    cases cell with
    | float64 x => rfl
    | _ => cases hcellKind

theorem WellFormed.filterEnum_eq_filterValue (hs : segment.WellFormed column.kind capacity)
    (hkind : column.kind = .enum)
    (hknown : ∀ offset cell, segment.cell? offset = some cell → cell.Known dictionary)
    (f : String → Bool) (selection : Bitmap) :
    segment.filterEnum (dictionary.evaluate f) selection =
      segment.filterValue dictionary (fun v => v.asString?.any f) selection := by
  refine eq_filterValue
    (fun cell => cell.id?.any fun id => (dictionary.evaluate f)[id]?.getD false)
    (size_filterEnum ..) (fun offset => ?_) fun offset cell hcell => ?_
  · rw [contains_filterEnum, Option.any_bind]
    rfl
  · have hcellKind := (kind_of_cell? hcell).trans (hs.kind_eq.trans hkind)
    cases cell with
    | enum id =>
      -- the id is in the dictionary, so the table has an answer for it
      obtain ⟨s, htext, hanswer⟩ := Index.getElem?_evaluate (f := f) (hknown offset _ hcell)
      rw [Cell.id?, Option.any_some, hanswer, Column.decode, htext]
      rfl
    | _ => cases hcellKind

theorem WellFormed.contains_and_truthy (hs : segment.WellFormed column.kind capacity)
    (selection : Bitmap) (offset : Nat) :
    (selection.and segment.truthy).contains offset =
      (selection.contains offset && (segment.cell? offset).any Cell.isTruthy) := by
  rw [Bitmap.contains_and, hs.contains_truthy]

theorem WellFormed.and_truthy_eq_filterValue (hs : segment.WellFormed column.kind capacity)
    (hkind : column.kind = .bool) (dictionary : Dictionary) (selection : Bitmap) :
    selection.and segment.truthy =
      segment.filterValue dictionary (fun v => v.asBool? == some true) selection := by
  refine eq_filterValue Cell.isTruthy (Bitmap.size_and ..) (hs.contains_and_truthy selection)
    fun offset cell hcell => ?_
  have hcellKind := (kind_of_cell? hcell).trans (hs.kind_eq.trans hkind)
  cases cell with
  | bool b => cases b <;> rfl
  | _ => cases hcellKind

theorem WellFormed.and_presence_eq_filterValue (hs : segment.WellFormed column.kind capacity)
    (hkind : column.kind ≠ .bool) (dictionary : Dictionary) (selection : Bitmap) :
    selection.and segment.truthy = segment.filterValue dictionary (fun _ => true) selection := by
  refine eq_filterValue Cell.isTruthy (Bitmap.size_and ..) (hs.contains_and_truthy selection)
    fun offset cell hcell => ?_
  have hcellKind := (kind_of_cell? hcell).trans hs.kind_eq
  cases cell with
  | bool b => exact absurd hcellKind.symm hkind
  | _ => rfl

end Segment

/-- The table, the pass over the values and the evaluation of single cells give the same bits, and
    no bit past the segment's capacity. -/
theorem Index.compute_eq {index : Index} {predicate : Value → Bool}
    (h : index.predicate = some predicate) {column : Column} {capacity : Nat} {segment : Segment}
    (hs : segment.WellFormed column.kind capacity) {dictionary : Dictionary}
    (hknown : ∀ offset cell, segment.cell? offset = some cell → cell.Known dictionary) :
    ∃ bits, index.compute dictionary segment (index.table? column dictionary) = some bits ∧
      index.compute dictionary segment none = some bits ∧
      (∀ offset < capacity, ∃ cell, segment.valueAt offset = .ok cell ∧
        index.evaluateCell dictionary cell = some (bits.contains offset)) ∧
      ∀ offset, capacity ≤ offset → bits.contains offset = false := by
  obtain ⟨bits, hbits, hfits, hcontains⟩ := compute_of_attached h hs hknown
  obtain ⟨bits', hbits', hfits', hcontains'⟩ := compute_without_table h hs dictionary
  obtain rfl : bits = bits' :=
    hfits.eq_of_contains hfits' fun offset _ => (hcontains offset).trans (hcontains' offset).symm
  refine ⟨bits, hbits, hbits', fun offset hlt => ⟨_, hs.valueAt_of_lt hlt, ?_⟩,
    fun offset hle => ?_⟩
  · rw [evaluateCell_of_attached h, hcontains]
  · by_contra hbit
    have hlt := hfits.lt offset (by simpa using hbit)
    omega

/-- Every special way to narrow a selection leaves what the filter on decoded values leaves, and
    the ways to compute an attached index agree bit for bit. -/
theorem Segment.WellFormed.paths_agree {column : Column} {capacity : Nat} {segment : Segment}
    (hs : segment.WellFormed column.kind capacity) {dictionary : Dictionary}
    (hknown : ∀ offset cell, segment.cell? offset = some cell → cell.Known dictionary)
    (selection : Bitmap) :
    (column.kind = .float64 → ∀ f : Binary64 → Bool,
      segment.filterFloat f selection =
        segment.filterValue dictionary (fun v => v.asFloat64?.any f) selection) ∧
    (column.kind = .enum → ∀ f : String → Bool, ∃ answers,
      column.evaluate dictionary f = some answers ∧
      segment.filterEnum answers selection =
        segment.filterValue dictionary (fun v => v.asString?.any f) selection) ∧
    (column.kind = .bool →
      selection.and segment.truthy =
        segment.filterValue dictionary (fun v => v.asBool? == some true) selection) ∧
    (column.kind ≠ .bool →
      selection.and segment.truthy =
        segment.filterValue dictionary (fun _ => true) selection) ∧
    ∀ (index : Index) (predicate : Value → Bool), index.predicate = some predicate →
      ∃ bits, index.compute dictionary segment (index.table? column dictionary) = some bits ∧
        index.compute dictionary segment none = some bits ∧
        (∀ offset < segment.capacity, ∃ cell, segment.valueAt offset = .ok cell ∧
          index.evaluateCell dictionary cell = some (bits.contains offset)) ∧
        ∀ offset, segment.capacity ≤ offset → bits.contains offset = false := by
  refine ⟨fun hkind f => hs.filterFloat_eq_filterValue hkind dictionary f selection,
    fun hkind f => ⟨dictionary.evaluate f, if_pos hkind, ?_⟩,
    fun hkind => hs.and_truthy_eq_filterValue hkind dictionary selection,
    fun hkind => hs.and_presence_eq_filterValue hkind dictionary selection,
    fun index predicate hpredicate => ?_⟩
  · exact hs.filterEnum_eq_filterValue hkind hknown f selection
  · rw [hs.capacity_eq]
    exact Index.compute_eq hpredicate hs hknown

/-- Two rows with texts, filtered and indexed by the second text. -/
theorem paths_agree_texts :
    let texts := (Dictionary.empty.push "ash").push "oak"
    let segment := ((Segment.withCapacity .enum 64).put 3 (.enum 0)).put 5 (.enum 1)
    let selection := Bitmap.filled 8
    let index : Index := ⟨"long", "tree", 0, some fun v => v.asString?.any (· == "oak")⟩
    segment.filterEnum (texts.evaluate (· == "oak")) selection =
      segment.filterValue texts (fun v => v.asString?.any (· == "oak")) selection ∧
    (segment.filterEnum (texts.evaluate (· == "oak")) selection).toList = [5] ∧
    selection.and segment.truthy = segment.filterValue texts (fun _ => true) selection ∧
    ∃ bits, index.compute texts segment none = some bits ∧
      index.compute texts segment (index.table? ⟨"tree", .enum⟩ texts) = some bits ∧
      bits.contains 64 = false := by
  intro texts segment selection index
  have hempty := Segment.wellFormed_withCapacity .enum 64
  have hfirst := hempty.put (show 3 < 64 by decide) (.enum 0)
  have hs : segment.WellFormed (⟨"tree", .enum⟩ : Column).kind 64 :=
    hfirst.put (show 5 < 64 by decide) (.enum 1)
  have hknown : ∀ offset cell, segment.cell? offset = some cell → cell.Known texts := by
    intro offset cell hcell
    rw [hfirst.cell?_put (by decide) rfl, hempty.cell?_put (by decide) rfl,
      Segment.cell?_withCapacity] at hcell
    split_ifs at hcell
    · cases hcell
      exact (by decide : 1 < 2)
    · cases hcell
      exact (by decide : 0 < 2)
  obtain ⟨-, henum, -, hpresent, hindex⟩ := hs.paths_agree hknown selection
  obtain ⟨answers, hanswers, heq⟩ := henum rfl (· == "oak")
  cases hanswers
  obtain ⟨bits, htable, hvalues, -, hpast⟩ := hindex index _ rfl
  exact ⟨heq, by cbv, hpresent (by decide), bits, hvalues, htable, hpast 64 (le_refl 64)⟩

end ColumnStore
