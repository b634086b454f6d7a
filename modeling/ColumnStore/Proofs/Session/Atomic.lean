import ColumnStore.Proofs.Session

/-!
# Insertion is all or nothing

A record is checked, its texts are given ids, a chunk is allocated, the chunk grows and its cells
are written, and nothing of this is ever taken back. It need not be: what the check lets through is
what the columns encode, and in every session that comes about the segments of every chunk are of
the kinds of their columns and grow together, so that after the check no step is left that can fail.

* `Kind.accepts_iff`: what a column takes is `null` and the values of its kind;
* `Table.checkFields_eq_error_iff`: the check fails just for a record with an entry that does not
  fit its column;
* `Reachable.insert_atomic`: an insertion fails just for such a record and changes nothing then; else
  the chunk takes the cells, and the number it answers is that of a row that is live.
-/

namespace ColumnStore

/-! ## What a column takes -/

/-- Whether a value is of a kind. Every value is one of the kind `any`. -/
def Value.IsA (value : Value) : Kind → Prop
  | .float64 => ∃ x, value = .float64 x
  | .bool => ∃ b, value = .bool b
  | .enum => ∃ text, value = .string text
  | .any => True

theorem Kind.accepts_iff {kind : Kind} {value : Value} :
    kind.accepts value = true ↔ value = .null ∨ value.IsA kind := by
  cases kind <;> cases value <;> simp [Kind.accepts, Value.IsA]

/-- Whether an entry of the record names a column and is neither `null` nor of the column's kind. -/
def Schema.Refuses (schema : Schema) (record : Record) : Prop :=
  ∃ column ∈ schema.columns, ∃ value, (column.name, value) ∈ record ∧ value ≠ .null ∧
    ¬value.IsA column.kind

namespace Table

variable {config : Config} {table : Table} {record : Record}

/-- The fields of a record are its entries that name a column. -/
theorem mem_fields_iff {schema : Schema} (h : schema.WellFormed) {slot : Nat} {column : Column}
    {value : Value} :
    (slot, column, value) ∈ fields schema record ↔
      schema.columns[slot]? = some column ∧ (column.name, value) ∈ record := by
  constructor
  · intro hmem
    obtain ⟨⟨name, v⟩, hentry, heq⟩ := List.mem_filterMap.mp hmem
    obtain ⟨⟨slot', column'⟩, hfound, heq⟩ := Option.map_eq_some_iff.mp heq
    cases heq
    obtain ⟨hcolumn, rfl⟩ := h.column?_eq_some_iff.mp hfound
    exact ⟨hcolumn, hentry⟩
  · rintro ⟨hcolumn, hentry⟩
    refine List.mem_filterMap.mpr ⟨(column.name, value), hentry, ?_⟩
    show (schema.column? column.name).map _ = _
    rw [h.column?_eq_some_iff.mpr ⟨hcolumn, rfl⟩]
    rfl

/-- Some field does not fit just if the schema refuses the record. -/
theorem find?_illTyped_eq_none_iff (h : table.schema.WellFormed) :
    (fields table.schema record).find? illTyped = none ↔ ¬table.schema.Refuses record := by
  have hfits : ∀ {column : Column} {value : Value}, ¬(!column.kind.accepts value) = true ↔
      (value ≠ .null → value.IsA column.kind) := by
    intro column value
    rw [Bool.not_eq_true', Bool.not_eq_false, Kind.accepts_iff]
    exact or_iff_not_imp_left
  rw [List.find?_eq_none]
  constructor
  · rintro hnone ⟨column, hcolumn, value, hentry, hnull, hkind⟩
    obtain ⟨slot, hslot⟩ := Array.mem_iff_getElem?.mp hcolumn
    exact hkind (hfits.mp (hnone _ ((mem_fields_iff h).mpr ⟨hslot, hentry⟩)) hnull)
  · rintro hfit ⟨slot, column, value⟩ hmem
    obtain ⟨hslot, hentry⟩ := (mem_fields_iff h).mp hmem
    refine hfits.mpr fun hnull => ?_
    by_contra hkind
    exact hfit ⟨column, Array.mem_of_getElem? hslot, value, hentry, hnull, hkind⟩

/-- The check fails just for a record with an entry that does not fit its column. -/
theorem checkFields_eq_error_iff (h : table.schema.WellFormed) :
    (∃ e, checkFields (fields table.schema record) = .error e) ↔ table.schema.Refuses record := by
  rw [checkFields_eq, ← not_iff_not, ← find?_illTyped_eq_none_iff h]
  cases (fields table.schema record).find? illTyped <;> simp

/-! ## Past the check -/

/-- The record's fields are encoded, there is a chunk for the next row, the chunk takes the cells,
    and the table is what it was with the grown dictionaries, with that chunk in its place and with
    one row more. -/
def Writes (config : Config) (table : Table) (record : Record) : Prop :=
  ∃ cells dictionaries chunk chunk',
    encodeFields table.dictionaries (fields table.schema record) = (.ok cells, dictionaries) ∧
      (table.allocated config).chunks[table.nextRow / config.chunkSize]? = some chunk ∧
      chunk.insert table.schema dictionaries (table.nextRow % config.chunkSize) cells =
        (.ok (), chunk') ∧
      insert config record table =
        (.ok table.nextRow, { table with
          dictionaries
          chunks := (table.allocated config).chunks.setIfInBounds
            (table.nextRow / config.chunkSize) chunk'
          nextRow := table.nextRow + 1
          live := table.live + 1 })

theorem WellFormed.writes (h : table.WellFormed config)
    (hcheck : checkFields (fields table.schema record) = .ok ()) :
    table.Writes config record := by
  have haccepts : (fields table.schema record).find? illTyped = none := by
    rw [checkFields_eq] at hcheck
    cases hfind : (fields table.schema record).find? illTyped with
    | none => rfl
    | some field => simp [hfind] at hcheck
  obtain ⟨cells, dictionaries, chunk, chunk', hencode, hchunk, hinsert, -⟩ :=
    h.insert_chunk haccepts
  exact ⟨cells, dictionaries, chunk, chunk', hencode, hchunk, hinsert,
    insert_of_chunk haccepts hencode hchunk hinsert⟩

end Table

/-! ## Sessions -/

/-- An insertion fails if and only if the record has an entry that names a column and is neither
    `null` nor of its kind, and then the collection is left as it was, in all its parts. When the
    check has passed, every step after it succeeds. Either way a row number is given out only to a
    row that is live from then on and counted. -/
theorem Reachable.insert_atomic {s : Session} (h : Reachable s) (record : Record) :
    let c := s.collection
    let c' := (c.insert record).2
    ((∃ e, (c.insert record).1 = .error e) ↔ c.table.schema.Refuses record) ∧
      (∀ e, (c.insert record).1 = .error e → c' = c) ∧
      (Table.checkFields (Table.fields c.table.schema record) = .ok () →
        c.table.Writes c.config record) ∧
      (c'.table.nextRow = c.table.nextRow ∨
        c'.table.nextRow = c.table.nextRow + 1 ∧ (c.insert record).1 = .ok c.table.nextRow ∧
          c'.table.isLive c'.config c.table.nextRow = true ∧ c'.count = c.count + 1) := by
  intro c c'
  have hwf : c.table.WellFormed c.config := h.wellFormed.table
  cases hfind : (Table.fields c.table.schema record).find? Table.illTyped with
  | some field =>
    obtain ⟨slot, column, value⟩ := field
    have hinsert : c.insert record = (.error (column.mismatch value), c) := by
      rw [Collection.insert, Collection.change, Table.insert_of_illTyped hfind]
    have hrefuses : c.table.schema.Refuses record := by
      rw [← Table.checkFields_eq_error_iff hwf.schema, Table.checkFields_eq, hfind]
      exact ⟨_, rfl⟩
    have hsame : c' = c := congrArg Prod.snd hinsert
    rw [hinsert, hsame]
    exact ⟨⟨fun _ => hrefuses, fun _ => ⟨_, rfl⟩⟩, fun _ _ => rfl, hwf.writes, Or.inl rfl⟩
  | none =>
    obtain ⟨table', hinsert, -, hins⟩ := hwf.insert hfind
    have hfits := (Table.find?_illTyped_eq_none_iff hwf.schema).mp hfind
    have hanswer : c.insert record = (.ok c.table.nextRow, { c with table := table' }) := by
      rw [Collection.insert, Collection.change, hinsert]
    have hc' : c' = { c with table := table' } := congrArg Prod.snd hanswer
    rw [hanswer, hc']
    refine ⟨⟨fun ⟨_, herror⟩ => (by cases herror), fun hrefuses => absurd hrefuses hfits⟩,
      fun _ herror => (by cases herror), hwf.writes,
      Or.inr ⟨hins.nextRow_eq, rfl, ?_, hins.live_eq⟩⟩
    exact (hins.isLive c.table.nextRow).trans (by rw [decide_eq_true rfl, Bool.true_or])

/-- A text for a flag is refused and leaves no trace; a third flag that fits is live at once. -/
theorem insert_atomic_flags :
    (Session.flags.collection.insert [("flag", .string "on")]).2 = Session.flags.collection ∧
      (Session.flags.collection.insert [("flag", .bool true)]).2.table.isLive
        (Session.flags.collection.insert [("flag", .bool true)]).2.config 2 = true := by
  have hrefuses : Session.flags.collection.table.schema.Refuses [("flag", .string "on")] :=
    ⟨⟨"flag", .bool⟩, by decide +kernel, .string "on", List.mem_singleton_self _, nofun, nofun⟩
  have hnext : Session.flags.collection.table.nextRow = 2 := by decide +kernel
  obtain ⟨e, herror⟩ := (reachable_flags.insert_atomic _).1.mpr hrefuses
  obtain ⟨-, -, -, hsame | ⟨-, -, hlive, -⟩⟩ :=
    reachable_flags.insert_atomic [("flag", .bool true)]
  · exact absurd hsame (by decide +kernel)
  · rw [hnext] at hlive
    exact ⟨(reachable_flags.insert_atomic _).2.1 e herror, hlive⟩

end ColumnStore
