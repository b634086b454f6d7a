import ColumnStore.Proofs.Chunk.Write
import ColumnStore.Proofs.Row

/-!
# Visits of a row in a chunk

`Cursor.run_spec`: a visit of a live row gives what it gives on the row as a map, leaves the row as
it leaves the map, and touches nothing else: no other row and no bitmap of live rows. The attached
indexes stay in step (`Chunk.Touched`).
-/

namespace ColumnStore

namespace Schema

variable {schema : Schema}

theorem columnNamed_eq (schema : Schema) (name : String) :
    columnNamed schema.columns.toList name = (schema.column? name).map Prod.snd := by
  have hfind : columnNamed schema.columns.toList name =
      (schema.columnSlot? name).bind fun slot => schema.columns[slot]? := by
    rw [columnNamed, Array.find?_toList, Array.find?_eq_bind_findIdx?_getElem?]
    rfl
  rw [hfind, column?]
  cases schema.columnSlot? name with
  | none => rfl
  | some slot => cases hcolumn : schema.columns[slot]? <;> simp [hcolumn]

end Schema

namespace Chunk

variable {chunkSize : Nat} {schema : Schema} {dictionaries : Array Dictionary} {chunk : Chunk}

/-- The row at an offset. -/
def rowAt (schema : Schema) (dictionaries : Array Dictionary) (chunk : Chunk) (offset : Nat) :
    Row :=
  fun name => (schema.column? name).bind fun found =>
    (chunk.cell? found.1 offset).map (Column.decode (dictionaryOf dictionaries found.1))

/-- A chunk, with the dictionaries, after some of its rows were overwritten. -/
structure Touched (chunkSize : Nat) (schema : Schema) (touched : Nat → Prop)
    (dictionaries : Array Dictionary) (chunk : Chunk) (dictionaries' : Array Dictionary)
    (chunk' : Chunk) : Prop where
  wellFormed : chunk'.WellFormed chunkSize schema dictionaries'
  indexed : chunk'.Indexed schema dictionaries'
  allExtend : Column.AllExtend dictionaries dictionaries'
  dictionary : (∀ d ∈ dictionaries, d.WellFormed) → ∀ d ∈ dictionaries', d.WellFormed
  fill : ∀ offset, chunk'.fill.contains offset = chunk.fill.contains offset
  cell? : ∀ slot offset, ¬touched offset → chunk'.cell? slot offset = chunk.cell? slot offset
  marks : ∀ slot offset, ¬touched offset → chunk'.marks slot offset = chunk.marks slot offset

theorem Touched.refl (touched : Nat → Prop) (h : chunk.WellFormed chunkSize schema dictionaries)
    (hindexed : chunk.Indexed schema dictionaries) :
    Touched chunkSize schema touched dictionaries chunk dictionaries chunk :=
  ⟨h, hindexed, Column.AllExtend.refl _, id, fun _ => rfl, fun _ _ _ => rfl, fun _ _ _ => rfl⟩

theorem Touched.trans {touched : Nat → Prop} {ds ds' ds'' : Array Dictionary} {c c' c'' : Chunk}
    (h : Touched chunkSize schema touched ds c ds' c')
    (h' : Touched chunkSize schema touched ds' c' ds'' c'') :
    Touched chunkSize schema touched ds c ds'' c'' where
  wellFormed := h'.wellFormed
  indexed := h'.indexed
  allExtend := h.allExtend.trans h'.allExtend
  dictionary hd := h'.dictionary (h.dictionary hd)
  fill offset := (h'.fill offset).trans (h.fill offset)
  cell? slot offset ho := (h'.cell? slot offset ho).trans (h.cell? slot offset ho)
  marks slot offset ho := (h'.marks slot offset ho).trans (h.marks slot offset ho)

end Chunk

namespace Cursor

variable {chunkSize : Nat} {dictionaries : Array Dictionary} {chunk : Chunk} {cursor : Cursor}

open Chunk (rowAt Touched dictionaryOf)

/-- Overwriting a column of a live row. -/
theorem write_spec (hschema : cursor.schema.WellFormed)
    (h : chunk.WellFormed chunkSize cursor.schema dictionaries)
    (hindexed : chunk.Indexed cursor.schema dictionaries)
    (hsize : dictionaries.size = cursor.schema.columns.size)
    (hlive : chunk.fill.contains cursor.offset = true) {slot : Nat} {column : Column}
    (hcolumn : cursor.schema.columns[slot]? = some column) (value : Value) :
    ∃ dictionaries' chunk', cursor.write slot column value dictionaries chunk =
        (((rowAt cursor.schema dictionaries chunk cursor.offset).write column value).1,
          dictionaries', chunk') ∧
      ((rowAt cursor.schema dictionaries chunk cursor.offset).write column value).2 =
        rowAt cursor.schema dictionaries' chunk' cursor.offset ∧
      Touched chunkSize cursor.schema (· = cursor.offset) dictionaries chunk dictionaries'
        chunk' := by
  unfold Cursor.write Row.write
  cases haccepts : column.kind.accepts value with
  | false =>
    rw [Column.encodeAt_of_not_accepts haccepts]
    exact ⟨dictionaries, chunk, rfl, rfl, Touched.refl _ h hindexed⟩
  | true =>
    have hslot := (Array.getElem?_eq_some_iff.mp hcolumn).1
    obtain ⟨cell, ds', hencode, hspec⟩ :=
      Column.encodeAt_of_accepts haccepts (show slot < dictionaries.size by omega)
    have hwf := h.of_allExtend hspec.allExtend
    have hindexed' := hindexed.of_allExtend h hspec.allExtend
    have hstorable : ∀ c ∈ cell, Chunk.Storable cursor.schema ds' slot c := fun c hc =>
      ⟨⟨column, hcolumn, hspec.kind c hc⟩, hspec.known c hc⟩
    obtain ⟨chunk', hupdate, hwf', -, hupd⟩ :=
      hwf.update (Schema.Extends.refl _) (h.fill.lt _ hlive) hslot hstorable column
    rw [hencode]
    simp only [hupdate]
    refine ⟨ds', chunk', rfl, ?_, ?_⟩
    · -- the row as a map
      funext name
      rw [if_pos trivial]
      show (if name = column.name then value.present?
        else rowAt cursor.schema dictionaries chunk cursor.offset name) = _
      unfold rowAt
      by_cases hname : name = column.name
      · rw [if_pos hname, hschema.column?_eq_some_iff.mpr ⟨hcolumn, hname.symm⟩, Option.bind_some,
          hupd.cell?, if_pos ⟨rfl, rfl⟩, hspec.value]
      · rw [if_neg hname]
        cases hother : cursor.schema.column? name with
        | none => rfl
        | some found =>
          obtain ⟨slot', column'⟩ := found
          obtain ⟨hc', hname'⟩ := Schema.exists_of_column? hother
          have hne : slot' ≠ slot := by
            rintro rfl
            rw [hcolumn] at hc'
            cases hc'
            exact hname hname'.symm
          rw [Option.bind_some, Option.bind_some, hupd.cell?, if_neg fun hc => hne hc.1]
          show (chunk.cell? slot' cursor.offset).map _ = (chunk.cell? slot' cursor.offset).map _
          cases hcell : chunk.cell? slot' cursor.offset with
          | none => rfl
          | some c =>
            exact congrArg some (Column.decode_of_extends (hspec.allExtend.extends_ slot')
              (h.known slot' _ c hcell)).symm
    · refine ⟨hwf', hupd.indexed hindexed', hspec.allExtend, hspec.wellFormed, hupd.fill,
        fun slot' offset hne => ?_, fun slot' offset hne => ?_⟩
      · rw [hupd.cell?, if_neg fun hc => hne hc.2]
      · rw [hupd.marks]
        cases cursor.schema.indexes[slot']? with
        | none => rfl
        | some index => exact if_neg fun hc => hne hc.1

/-- A value of the row, read through the cursor. -/
theorem value_eq_rowAt (hschema : cursor.schema.WellFormed)
    (h : chunk.WellFormed chunkSize cursor.schema dictionaries)
    (hlive : chunk.fill.contains cursor.offset = true) {slot : Nat} {column : Column}
    (hcolumn : cursor.schema.columns[slot]? = some column) :
    chunk.value dictionaries slot cursor.offset =
      .ok (rowAt cursor.schema dictionaries chunk cursor.offset column.name) := by
  rw [h.value_eq ((h.fill.lt _ hlive).trans_le h.capacity_le), if_pos hlive, rowAt,
    hschema.column?_eq_some_iff.mpr ⟨hcolumn, rfl⟩]
  rfl

/-- A number of the row, read through the cursor. -/
theorem float_eq_rowAt (hschema : cursor.schema.WellFormed)
    (h : chunk.WellFormed chunkSize cursor.schema dictionaries)
    (hcolumn : cursor.schema.columns[cursor.slot]? = some cursor.column) :
    (chunk.columns[cursor.slot]?.bind fun segment => segment.floatAt cursor.offset) =
      if cursor.column.kind = .float64 then
        (rowAt cursor.schema dictionaries chunk cursor.offset cursor.column.name).bind
          Value.asFloat64?
      else none := by
  have hcell : (chunk.columns[cursor.slot]?.bind fun segment => segment.floatAt cursor.offset) =
      (chunk.cell? cursor.slot cursor.offset).bind Cell.number? := by
    unfold Chunk.cell?
    cases chunk.columns[cursor.slot]? with
    | none => rfl
    | some segment => exact segment.floatAt_eq cursor.offset
  rw [hcell, rowAt, hschema.column?_eq_some_iff.mpr ⟨hcolumn, rfl⟩, Option.bind_some]
  simp only
  cases hfound : chunk.cell? cursor.slot cursor.offset with
  | none => simp
  | some cell =>
    obtain ⟨column, hc, hkind⟩ := h.kind_of_cell? hfound
    rw [hcolumn] at hc
    cases hc
    rw [← hkind]
    cases cell <;> rfl

/-- A visit of a live row is the visit of the row as a map. -/
theorem run_spec {α : Type} (cursor : Cursor) (hschema : cursor.schema.WellFormed)
    (hcolumn : cursor.schema.columns[cursor.slot]? = some cursor.column) (visit : Visit α)
    (h : chunk.WellFormed chunkSize cursor.schema dictionaries)
    (hindexed : chunk.Indexed cursor.schema dictionaries)
    (hsize : dictionaries.size = cursor.schema.columns.size)
    (hlive : chunk.fill.contains cursor.offset = true) :
    ∃ dictionaries' chunk', cursor.run visit dictionaries chunk =
        ((visit.runOn cursor.schema.columns.toList cursor.column
          (rowAt cursor.schema dictionaries chunk cursor.offset)).1, dictionaries', chunk') ∧
      (visit.runOn cursor.schema.columns.toList cursor.column
        (rowAt cursor.schema dictionaries chunk cursor.offset)).2 =
          rowAt cursor.schema dictionaries' chunk' cursor.offset ∧
      Touched chunkSize cursor.schema (· = cursor.offset) dictionaries chunk dictionaries'
        chunk' := by
  induction visit generalizing dictionaries chunk with
  | done a => exact ⟨dictionaries, chunk, rfl, rfl, Touched.refl _ h hindexed⟩
  | value next ih =>
    rw [Cursor.run, value_eq_rowAt hschema h hlive hcolumn]
    exact ih _ h hindexed hsize hlive
  | float64 next ih =>
    rw [Cursor.run, float_eq_rowAt hschema h hcolumn]
    exact ih _ h hindexed hsize hlive
  | valueOf name next ih =>
    rw [Cursor.run, Visit.runOn, Schema.columnNamed_eq]
    cases hfound : cursor.schema.column? name with
    | none => exact ih _ h hindexed hsize hlive
    | some found =>
      obtain ⟨slot, column⟩ := found
      obtain ⟨hc, hname⟩ := Schema.exists_of_column? hfound
      simp only [Option.map_some, Option.isSome_some, if_true,
        value_eq_rowAt hschema h hlive hc, hname]
      exact ih _ h hindexed hsize hlive
  | write value next ih =>
    obtain ⟨ds₁, chunk₁, hwrite, hrow, htouched⟩ :=
      write_spec hschema h hindexed hsize hlive hcolumn value
    obtain ⟨ds₂, chunk₂, hrun, hrow', htouched'⟩ := ih
      ((rowAt cursor.schema dictionaries chunk cursor.offset).write cursor.column value).1
      htouched.wellFormed htouched.indexed (htouched.allExtend.size.trans hsize)
      ((htouched.fill _).trans hlive)
    refine ⟨ds₂, chunk₂, ?_, ?_, htouched.trans htouched'⟩
    · rw [Cursor.run, hwrite, Visit.runOn]
      simp only [hrow]
      exact hrun
    · rw [Visit.runOn]
      simp only [hrow]
      exact hrow'
  | writeOf name value next ih =>
    cases hfound : cursor.schema.column? name with
    | none =>
      have hnamed : columnNamed cursor.schema.columns.toList name = none := by
        rw [Schema.columnNamed_eq, hfound, Option.map_none]
      rw [Cursor.run, Visit.runOn]
      simp only [hfound, hnamed]
      exact ih _ h hindexed hsize hlive
    | some found =>
      obtain ⟨slot, column⟩ := found
      obtain ⟨hc, -⟩ := Schema.exists_of_column? hfound
      have hnamed : columnNamed cursor.schema.columns.toList name = some column := by
        rw [Schema.columnNamed_eq, hfound, Option.map_some]
      obtain ⟨ds₁, chunk₁, hwrite, hrow, htouched⟩ :=
        write_spec hschema h hindexed hsize hlive hc value
      obtain ⟨ds₂, chunk₂, hrun, hrow', htouched'⟩ := ih
        ((rowAt cursor.schema dictionaries chunk cursor.offset).write column value).1
        htouched.wellFormed htouched.indexed (htouched.allExtend.size.trans hsize)
        ((htouched.fill _).trans hlive)
      refine ⟨ds₂, chunk₂, ?_, ?_, htouched.trans htouched'⟩
      · rw [Cursor.run, Visit.runOn]
        simp only [hfound, hnamed, hwrite, hrow]
        exact hrun
      · rw [Visit.runOn]
        simp only [hnamed, hrow]
        exact hrow'

end Cursor

end ColumnStore
