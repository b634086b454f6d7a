import ColumnStore.Proofs.Transaction.Record

/-!
# What the writes of a pass do

A write goes to the column of its pass or to a named one (`Cursor.target?`). If it is accepted, one
value of the row is replaced, and the indexes over the column that the pass knows are asked about
the row (`Table.Wrote`); else nothing changes (`Table.Held.edit_cases`). The contents need only be
held in form, so this is said of retired contents too.

From the single write, by induction on the record of a pass:

* `Table.Composes.cellValue?_cases`: every value after a pass was there before or was written in it;
* `Table.Composes.marks_detached`: a pass takes out of a detached index exactly the rows whose
  source it wrote.
-/

namespace ColumnStore

namespace Cursor

variable {cursor : Cursor} {edit : Edit}

/-- The column that a write goes to, with its slot. -/
def target? (cursor : Cursor) (edit : Edit) : Option (Nat × Column) :=
  match edit.column with
  | none => some (cursor.slot, cursor.column)
  | some name => cursor.schema.column? name

/-- A write to the column in a slot that was accepted. -/
def Sets (cursor : Cursor) (slot : Nat) (edit : Edit) : Prop :=
  edit.answer = .ok () ∧ ∃ column, cursor.target? edit = some (slot, column)

theorem getElem?_of_target? (hcolumn : cursor.schema.columns[cursor.slot]? = some cursor.column)
    {slot : Nat} {column : Column} (h : cursor.target? edit = some (slot, column)) :
    cursor.schema.columns[slot]? = some column := by
  obtain ⟨name, value, answer⟩ := edit
  cases name with
  | none =>
    cases h
    exact hcolumn
  | some name => exact (Schema.exists_of_column? h).1

theorem run_edit_of_target? {slot : Nat} {column : Column}
    (h : cursor.target? edit = some (slot, column)) (dictionaries : Array Dictionary)
    (chunk : Chunk) : cursor.run edit.visit dictionaries chunk =
      cursor.write slot column edit.value dictionaries chunk := by
  obtain ⟨name, value, answer⟩ := edit
  cases name with
  | none =>
    cases h
    rfl
  | some name =>
    have hcolumn : cursor.schema.column? name = some (slot, column) := h
    show cursor.run (.writeOf name value .done) dictionaries chunk = _
    rw [run, hcolumn]
    rfl

theorem run_edit_of_no_target (h : cursor.target? edit = none) (dictionaries : Array Dictionary)
    (chunk : Chunk) :
    ∃ e, cursor.run edit.visit dictionaries chunk = (.error e, dictionaries, chunk) := by
  obtain ⟨name, value, answer⟩ := edit
  cases name with
  | none => cases h
  | some name =>
    have hcolumn : cursor.schema.column? name = none := h
    refine ⟨.unknownColumn name, ?_⟩
    show cursor.run (.writeOf name value .done) dictionaries chunk = _
    rw [run, hcolumn]
    rfl

end Cursor

namespace Table

open Selection (row_eq_iff)

variable {config : Config} {table table' : Table} {cursor : Nat → Cursor}

/-! ## One write -/

/-- What an accepted write to the column in a slot does: the row has the value, or none for `null`,
    and of the indexes over the column those with a predicate are asked and the others lose the row.
    An index that the pass does not know is left alone. -/
structure Wrote (config : Config) (known : Schema) (slot row : Nat) (value : Value)
    (table table' : Table) : Prop where
  cellValue? : ∀ slot' row', table'.cellValue? config slot' row' =
    if slot' = slot ∧ row' = row then value.present? else table.cellValue? config slot' row'
  marks : ∀ (slot' row' : Nat), table'.marks config slot' row' =
    match known.indexes[slot']? with
    | some index =>
      if row' = row ∧ index.sourceSlot = slot then
        index.predicate.any fun predicate => value.present?.any predicate
      else table.marks config slot' row'
    | none => table.marks config slot' row'

theorem Held.known (h : table.Held config) {slot row : Nat} {cell : Cell}
    (hcell : table.cell? config slot row = some cell) : cell.Known (table.dictionary slot) := by
  obtain ⟨chunk, hchunk, hc⟩ := Option.bind_eq_some_iff.mp hcell
  exact (h.chunk _ chunk hchunk).known slot _ cell hc

/-- What an index over a column is told of a write, by the value. -/
theorem answer_of_encodesAt {column : Column} {dictionaries dictionaries' : Array Dictionary}
    {slot : Nat} {value : Value} {cell : Option Cell}
    (h : Column.EncodesAt column dictionaries slot value cell dictionaries') (index : Index) :
    index.answer (Chunk.dictionaryOf dictionaries' slot) cell =
      index.predicate.any fun predicate => value.present?.any predicate := by
  rw [← h.value, Index.answer, Index.evaluateCell]
  cases index.predicate <;> cases cell <;> rfl

/-- The rows of a table after one cell of a chunk was overwritten. -/
theorem Held.wrote_of_updated (h : table.Held config) {known : Schema} {row : Nat}
    {chunk chunk' : Chunk} (hchunk : table.chunks[row / config.chunkSize]? = some chunk)
    {slot : Nat} {column : Column} {value : Value} {cell : Option Cell}
    {dictionaries : Array Dictionary}
    (hspec : Column.EncodesAt column table.dictionaries slot value cell dictionaries)
    (hupdated : Chunk.Updated known dictionaries (row % config.chunkSize) slot cell chunk chunk') :
    Wrote config known slot row value table
      (table.withChunk (row / config.chunkSize) dictionaries chunk') := by
  have hreplaced := getElem?_withChunk hchunk dictionaries chunk'
  refine ⟨fun slot' row' => ?_, fun slot' row' => ?_⟩
  · rw [cellValue?, cell?_of_replaced hreplaced]
    split_ifs with hid hcase hcase
    · rw [hupdated.cell?, if_pos ⟨hcase.1, by rw [hcase.2]⟩, hcase.1]
      exact hspec.value
    · rw [hupdated.cell?, if_neg fun hc => hcase ⟨hc.1, row_eq_iff.mpr ⟨hid, hc.2⟩⟩,
        ← cell?_of_row hchunk hid]
      exact decode_of_known hspec.allExtend fun cell => h.known
    · exact absurd (by rw [hcase.2]) hid
    · exact decode_of_known hspec.allExtend fun cell => h.known
  · rw [marks_of_replaced hreplaced]
    split_ifs with hid
    · rw [hupdated.marks, marks_of_row hchunk hid]
      cases known.indexes[slot']? with
      | none => rfl
      | some index =>
        have hrow : row' % config.chunkSize = row % config.chunkSize ↔ row' = row :=
          ⟨fun hmod => row_eq_iff.mpr ⟨hid, hmod⟩, fun heq => by rw [heq]⟩
        simp only [hrow, answer_of_encodesAt hspec]
    · have hne : row' ≠ row := fun heq => hid (by rw [heq])
      cases known.indexes[slot']? <;> simp [hne]

/-- A write at a live row is refused and changes nothing, or it is accepted and does what it is
    for. -/
theorem Held.edit_cases (h : table.Held config) (hplaces : Places table.schema cursor) {row : Nat}
    (hlive : table.isLive config row = true) {edit : Edit}
    (hedit : table.visitAt config cursor row edit.visit = (some edit.answer, table')) :
    (∃ e, edit.answer = .error e ∧ table' = table) ∨
      ∃ slot column, (cursor (row % config.chunkSize)).target? edit = some (slot, column) ∧
        edit.answer = .ok () ∧ Written config table table' ∧
        Wrote config (cursor (row % config.chunkSize)).schema slot row edit.value table table' := by
  obtain ⟨chunk, hchunk, hfill⟩ := (Option.any_eq_true ..).mp hlive
  have hoffset := hplaces.offset_eq (row % config.chunkSize)
  -- a write without effect puts the chunk back
  have hrefused : ∀ e, (cursor (row % config.chunkSize)).run edit.visit table.dictionaries chunk =
      (.error e, table.dictionaries, chunk) → edit.answer = .error e ∧ table' = table := by
    intro e hrun
    rw [visitAt, hchunk] at hedit
    simp only [hrun, withChunk_self hchunk, Prod.mk.injEq, Option.some.injEq] at hedit
    exact ⟨hedit.1.symm, hedit.2.symm⟩
  cases htarget : (cursor (row % config.chunkSize)).target? edit with
  | none =>
    obtain ⟨e, hrun⟩ := Cursor.run_edit_of_no_target htarget table.dictionaries chunk
    exact Or.inl ⟨e, hrefused e hrun⟩
  | some found =>
    obtain ⟨slot, column⟩ := found
    have hrun := Cursor.run_edit_of_target? htarget table.dictionaries chunk
    cases haccepts : column.kind.accepts edit.value with
    | false =>
      rw [Cursor.write_of_not_accepts _ haccepts] at hrun
      exact Or.inl ⟨_, hrefused _ hrun⟩
    | true =>
      obtain ⟨dictionaries, chunk', cell, hwrite, hkept, hspec, hupdated⟩ :=
        Cursor.write_of_accepts (h.chunk _ chunk hchunk) (hplaces.extends_ _) h.dictionaries_size
          (hoffset.symm ▸ hfill) (Cursor.getElem?_of_target? (hplaces.column _) htarget) haccepts
      rw [hoffset] at hupdated
      rw [visitAt, hchunk] at hedit
      simp only [hrun.trans hwrite, Prod.mk.injEq, Option.some.injEq] at hedit
      obtain ⟨hanswer, rfl⟩ := hedit
      exact Or.inr ⟨slot, column, rfl, hanswer.symm, h.withChunk hchunk hkept,
        h.wrote_of_updated hchunk hspec hupdated⟩

/-! ## The writes of a pass -/

/-- A value after the writes was there before or is that of a write. -/
theorem Composes.cellValue?_cases {edits : List (Nat × Edit)}
    (h : Composes config cursor table edits table') (hheld : table.Held config)
    (hplaces : Places table.schema cursor)
    (hlive : ∀ entry ∈ edits, table.isLive config entry.1 = true) {slot row : Nat} {v : Value}
    (hv : table'.cellValue? config slot row = some v) :
    table.cellValue? config slot row = some v ∨
      ∃ entry ∈ edits, entry.2.value.present? = some v := by
  induction h with
  | nil => exact Or.inl hv
  | @cons table table₁ _ row' edit rest hedit _ _ ih =>
    rw [List.forall_mem_cons] at hlive
    rcases hheld.edit_cases hplaces hlive.1 hedit with ⟨e, -, rfl⟩ |
      ⟨slot', column, -, -, hwritten, hwrote⟩
    · rcases ih hheld hplaces hlive.2 hv with hold | ⟨entry, hentry, hvalue⟩
      · exact Or.inl hold
      · exact Or.inr ⟨entry, List.mem_cons_of_mem _ hentry, hvalue⟩
    · have hlive' : ∀ entry ∈ rest, table₁.isLive config entry.1 = true := by
        rw [hwritten.isLive_eq]
        exact hlive.2
      rcases ih hwritten.held (hwritten.schema_eq.symm ▸ hplaces) hlive' hv with
        hold | ⟨entry, hentry, hvalue⟩
      · rw [hwrote.cellValue?] at hold
        split_ifs at hold
        · exact Or.inr ⟨(row', edit), List.mem_cons_self, hold⟩
        · exact Or.inl hold
      · exact Or.inr ⟨entry, List.mem_cons_of_mem _ hentry, hvalue⟩

/-- Of the rows in a detached index, the writes leave those whose source none of them set. -/
theorem Composes.marks_detached {edits : List (Nat × Edit)}
    (h : Composes config cursor table edits table') (hheld : table.Held config)
    (hplaces : Places table.schema cursor)
    (hlive : ∀ entry ∈ edits, table.isLive config entry.1 = true) {slot : Nat} {index : Index}
    (hindex : ∀ offset, (cursor offset).schema.indexes[slot]? = some index)
    (hdetached : index.predicate = none) (row : Nat) :
    table'.marks config slot row = true ↔ table.marks config slot row = true ∧
      ∀ edit, (row, edit) ∈ edits →
        ¬(cursor (row % config.chunkSize)).Sets index.sourceSlot edit := by
  induction h with
  | nil => simp
  | @cons table table₁ _ row' edit rest hedit _ _ ih =>
    rw [List.forall_mem_cons] at hlive
    have hsplit (p : Edit → Prop) : (∀ other, (row, other) ∈ (row', edit) :: rest → p other) ↔
        (row = row' → p edit) ∧ ∀ other, (row, other) ∈ rest → p other := by
      simp only [List.mem_cons, Prod.mk.injEq]
      exact ⟨fun h => ⟨fun heq => h edit (Or.inl ⟨heq, rfl⟩),
          fun other hmem => h other (Or.inr hmem)⟩,
        fun h other hmem => hmem.elim (fun ⟨heq, hedit⟩ => hedit ▸ h.1 heq) (h.2 other)⟩
    rw [hsplit]
    rcases hheld.edit_cases hplaces hlive.1 hedit with ⟨e, hanswer, rfl⟩ |
      ⟨slot', column, htarget, hanswer, hwritten, hwrote⟩
    · have hnot : ¬(cursor (row % config.chunkSize)).Sets index.sourceSlot edit := by
        rintro ⟨hok, -⟩
        rw [hanswer] at hok
        cases hok
      rw [ih hheld hplaces hlive.2]
      simp only [hnot, not_false_eq_true, implies_true, true_and]
    · have hlive' : ∀ entry ∈ rest, table₁.isLive config entry.1 = true := by
        rw [hwritten.isLive_eq]
        exact hlive.2
      have hmarks := hwrote.marks slot row
      rw [hindex] at hmarks
      simp only [hdetached, Option.any_none] at hmarks
      have hsets : row = row' → ((cursor (row % config.chunkSize)).Sets index.sourceSlot edit ↔
          index.sourceSlot = slot') := by
        rintro rfl
        refine ⟨fun ⟨_, other, hother⟩ => ?_, fun heq => ⟨hanswer, column, heq ▸ htarget⟩⟩
        rw [htarget, Option.some.injEq, Prod.mk.injEq] at hother
        exact hother.1.symm
      rw [ih hwritten.held (hwritten.schema_eq.symm ▸ hplaces) hlive', hmarks]
      by_cases hrow : row = row'
      · by_cases hslot : index.sourceSlot = slot'
        · -- the row is out, and a write of the record says why
          have hset := (hsets hrow).mpr hslot
          rw [if_pos ⟨hrow, hslot⟩]
          exact ⟨fun h => absurd h.1 (by decide), fun h => absurd hset (h.2.1 hrow)⟩
        · have hnot := mt (hsets hrow).mp hslot
          simp only [hslot, and_false, if_false, hnot, not_false_eq_true, implies_true, true_and]
      · simp only [hrow, false_and, if_false, false_implies, true_and]

end Table

end ColumnStore
