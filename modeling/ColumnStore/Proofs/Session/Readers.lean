import ColumnStore.Proofs.Session.Queries
import ColumnStore.Transaction.Reader

/-!
# Typed readers of sessions

A reader looks a row up among the chunks that were there when its transaction was opened; reading a
value of the collection looks it up among the chunks there are. Both see the same chunks, so they
tell the same of every row that lies in one of the former, and the reader has nothing to tell of
the others.

* `Transaction.Views`: the contents, the columns and the chunks that a transaction looks at are
  those of its opening (`Session.views_step`, `Session.views_run`);
* `FloatReader.get_eq`, `StringReader.get_eq`: what a reader gives, by what is read of the row;
* `Reachable.reader_get_iff`: a reader gives what the collection does for exactly the rows in chunks
  that were there when its transaction was opened;
* `reader_get_later`: a live row with a number that the reader does not give.
-/

namespace ColumnStore

/-! ## What a transaction looks at -/

/-- Two moments of a transaction: it looks at the same contents, columns and chunks. -/
structure Transaction.Views (t t' : Transaction) : Prop where
  generation : t'.generation = t.generation
  schema : t'.schema = t.schema
  size : t'.selection.size = t.selection.size

namespace Transaction

variable {t t' : Transaction}

theorem Views.refl (t : Transaction) : t.Views t := ⟨rfl, rfl, rfl⟩

theorem Views.trans {t₁ t₂ t₃ : Transaction} (h : t₁.Views t₂) (h' : t₂.Views t₃) : t₁.Views t₃ :=
  ⟨h'.generation.trans h.generation, h'.schema.trans h.schema, h'.size.trans h.size⟩

theorem views_narrow (t : Transaction) (table : Table) (filter : Chunk → Bitmap → Bitmap) :
    t.Views (t.narrow table filter) := ⟨rfl, rfl, Array.size_mapIdx⟩

theorem views_reset (t : Transaction) :
    t.Views { t with selection := t.selection.map Bitmap.reset } := ⟨rfl, rfl, Array.size_map ..⟩

end Transaction

namespace Session

/-- An operation, its own filters and deletions among them, keeps what a transaction looks at. -/
theorem views_step (s : Session) (op : Op) {id : Nat} {t : Transaction}
    (ht : s.transactions[id]? = some t) :
    ∃ t', (s.step op).2.transactions[id]? = some t' ∧ t.Views t' := by
  cases hnarrows : op.narrows id with
  | false => exact ⟨t, (getElem?_step_of_not_narrows hnarrows ht).1, Transaction.Views.refl t⟩
  | true =>
    cases op with
    | filter i filter =>
      obtain rfl : i = id := beq_iff_eq.mp hnarrows
      cases happly : filter.apply t s.collection with
      | error e => exact ⟨t, by simp only [Session.step, ht, happly], Transaction.Views.refl t⟩
      | ok t' =>
        obtain ⟨judge, rfl⟩ := Transaction.narrow_of_apply happly
        refine ⟨_, ?_, t.views_narrow (t.table s.collection) judge⟩
        simp only [Session.step, ht, happly]
        exact getElem?_setIfInBounds_self ht _
    | deleteAll i =>
      obtain rfl : i = id := beq_iff_eq.mp hnarrows
      refine ⟨_, ?_, t.views_reset⟩
      simp only [Session.step, ht]
      exact getElem?_setIfInBounds_self ht _
    | _ => cases hnarrows

theorem views_run (s : Session) (ops : List Op) {id : Nat} {t : Transaction}
    (ht : s.transactions[id]? = some t) :
    ∃ t', (s.run ops).transactions[id]? = some t' ∧ t.Views t' := by
  induction ops generalizing s t with
  | nil => exact ⟨t, ht, Transaction.Views.refl t⟩
  | cons op rest ih =>
    obtain ⟨t₁, ht₁, hviews₁⟩ := s.views_step op ht
    obtain ⟨t₂, ht₂, hviews₂⟩ := ih (s.step op).2 ht₁
    exact ⟨t₂, ht₂, hviews₁.trans hviews₂⟩

end Session

/-! ## What a reader gives -/

namespace Collection

variable {c : Collection}

/-- What reading a row gives; a row never given out is as one that is not live. -/
theorem current_eq_read? (h : c.table.WellFormed c.config) {name : String} {slot : Nat}
    {column : Column} (hcolumn : c.table.schema.column? name = some (slot, column)) (row : Nat) :
    c.current name row = c.table.read? c.config slot row := by
  unfold current valueAt
  rw [h.valueAt_eq, hcolumn]
  simp only
  by_cases hrow : row < c.table.nextRow
  · rw [if_pos hrow]
    rfl
  · have hlive : c.table.isLive c.config row = false := by
      rw [← Bool.not_eq_true]
      exact fun hlive => hrow (h.lt_nextRow hlive)
    rw [if_neg hrow, Table.read?, hlive]
    rfl

theorem current_eq_some_iff {name : String} {row : Nat} {v : Value} :
    c.current name row = some v ↔ c.valueAt name row = .ok (some v) := by
  unfold current
  cases c.valueAt name row with
  | error e => constructor <;> intro h <;> cases h
  | ok found =>
    show found = some v ↔ Except.ok found = .ok (some v)
    rw [Except.ok.injEq]

end Collection

/-- A number or a text is given just if the value is that number or that text. -/
theorem Collection.current_bind_iff {α : Type} {c : Collection} {name : String} {row : Nat}
    {read : Value → Option α} {write : α → Value}
    (hread : ∀ v a, read v = some a ↔ v = write a) {a : α} :
    (c.current name row).bind read = some a ↔ c.valueAt name row = .ok (some (write a)) := by
  rw [Option.bind_eq_some_iff, ← current_eq_some_iff]
  constructor
  · rintro ⟨v, hv, ha⟩
    rw [hv, (hread v a).mp ha]
  · intro hv
    exact ⟨write a, hv, (hread _ a).mpr rfl⟩

theorem Value.asFloat64?_eq_some_iff (v : Value) (x : Binary64) :
    v.asFloat64? = some x ↔ v = .float64 x := by
  cases v <;> simp [asFloat64?]

theorem Value.asString?_eq_some_iff (v : Value) (text : String) :
    v.asString? = some text ↔ v = .string text := by
  cases v <;> simp [asString?]

/-- The number in a cell of a column of numbers is that of its value. -/
theorem Cell.number?_eq {cell : Cell} (hkind : cell.kind = .float64) (dictionary : Dictionary) :
    cell.number? = (Column.decode dictionary cell).asFloat64? := by
  cases cell with
  | float64 x => rfl
  | _ => cases hkind

section Get

variable {c : Collection} {t : Transaction} {name : String} {slot : Nat} {column : Column}

theorem Transaction.chunk?_eq (hgen : t.generation = c.generation) (row : Nat) :
    t.chunk? c (row / c.chunkSize) =
      if row / c.chunkSize < t.selection.size then c.table.chunks[row / c.config.chunkSize]?
      else none := by
  rw [Transaction.chunk?, Transaction.table_of_current hgen]
  rfl

/-- A reader of numbers gives the number that is read of a row in a chunk of its transaction. -/
theorem FloatReader.get_eq (h : c.table.WellFormed c.config) (hgen : t.generation = c.generation)
    (hcolumn : c.table.schema.column? name = some (slot, column))
    (hkind : column.kind = .float64) (row : Nat) :
    (FloatReader.mk t slot).get c row =
      if row / c.chunkSize < t.selection.size then (c.current name row).bind Value.asFloat64?
      else none := by
  unfold get
  simp only [Transaction.chunk?_eq hgen]
  split_ifs with hid
  · rw [Collection.current_eq_read? h hcolumn]
    cases hchunk : c.table.chunks[row / c.config.chunkSize]? with
    | none =>
      rw [Table.read?, Table.isLive, hchunk]
      rfl
    | some chunk =>
      have hlive := Table.isLive_of_row hchunk rfl
      rw [Table.read?, hlive]
      show (if chunk.fill.contains (row % c.config.chunkSize) = true then
          chunk.columns[slot]?.bind fun segment => segment.floatAt (row % c.config.chunkSize)
        else none) = _
      split_ifs with hfill
      · have hcell : c.table.cell? c.config slot row =
            chunk.cell? slot (row % c.config.chunkSize) := Table.cell?_of_row hchunk rfl slot
        have hnumber : (chunk.columns[slot]?.bind fun segment =>
            segment.floatAt (row % c.config.chunkSize)) =
              (c.table.cell? c.config slot row).bind Cell.number? := by
          rw [hcell, Chunk.cell?, Option.bind_assoc]
          simp only [Segment.floatAt_eq]
        rw [hnumber, Table.cellValue?, Option.bind_map]
        cases hfound : c.table.cell? c.config slot row with
        | none => rfl
        | some cell =>
          obtain ⟨⟨found, hslot, hcellKind⟩, -⟩ := h.kind_of_cell? hfound
          rw [(Schema.exists_of_column? hcolumn).1] at hslot
          cases hslot
          exact Cell.number?_eq (hcellKind.trans hkind) _
      · rfl
  · rfl

/-- A reader of texts gives the text that is read of a row in a chunk of its transaction. -/
theorem StringReader.get_eq (h : c.table.WellFormed c.config) (hgen : t.generation = c.generation)
    (hcolumn : c.table.schema.column? name = some (slot, column)) (row : Nat) :
    (StringReader.mk t slot).get c row =
      if row / c.chunkSize < t.selection.size then (c.current name row).bind Value.asString?
      else none := by
  unfold get
  simp only [Transaction.chunk?_eq hgen, Transaction.table_of_current hgen]
  split_ifs with hid
  · rw [Collection.current_eq_read? h hcolumn]
    cases hchunk : c.table.chunks[row / c.config.chunkSize]? with
    | none =>
      rw [Table.read?, Table.isLive, hchunk]
      rfl
    | some chunk =>
      show ((chunk.value c.table.dictionaries slot (row % c.config.chunkSize)).toOption.join.bind
        Value.asString?) = _
      rw [h.value_eq hchunk]
      rfl
  · rfl

end Get

/-! ## Readers of an open transaction -/

/-- After a transaction was opened and anything but loads was done, a reader of one of its columns
    gives what the collection does for the rows in chunks that were there at the opening, live or
    not, inserted since or not; of the rows in later chunks it gives nothing. -/
theorem Reachable.reader_get_iff {s : Session} (h : Reachable s) {ops : List Op}
    (hops : ∀ op ∈ ops, op.isLoad = false) :
    let c := ((s.step .begin).2.run ops).collection
    ∃ t, ((s.step .begin).2.run ops).transactions[s.transactions.size]? = some t ∧
      ∀ name slot column, s.collection.table.schema.column? name = some (slot, column) →
        (column.kind = .float64 → ∃ reader, t.floatReader name = .ok reader ∧ ∀ row x,
          reader.get c row = some x ↔
            row / c.chunkSize < s.collection.table.chunks.size ∧
              c.valueAt name row = .ok (some (.float64 x))) ∧
        (column.kind = .enum ∨ column.kind = .any → ∃ reader, t.stringReader name = .ok reader ∧
          ∀ row text, reader.get c row = some text ↔
            row / c.chunkSize < s.collection.table.chunks.size ∧
              c.valueAt name row = .ok (some (.string text))) := by
  have hopened := h.wellFormed.step .begin
  obtain ⟨hwf, -, hgeneration⟩ := hopened.run_steps hops
  have hlast : (s.step .begin).2.transactions[s.transactions.size]? = some (.start s.collection) :=
    Array.getElem?_push_size
  obtain ⟨t, ht, hviews⟩ := (s.step .begin).2.views_run ops hlast
  refine ⟨t, ht, fun name slot column hcolumn => ?_⟩
  have hgen := hviews.generation.trans hgeneration.symm
  have hsize : t.selection.size = s.collection.table.chunks.size :=
    hviews.size.trans (Array.size_map ..)
  have hopen := hwf.current t (Array.mem_of_getElem? ht) hgen
  have hfound : t.schema.column? name = some (slot, column) := by
    rw [hviews.schema]
    exact hcolumn
  have hpresent := hopen.extends_.column? hwf.table.schema hfound
  have hlookup : t.column name = .ok (slot, column) := by rw [Transaction.column, hfound]
  refine ⟨fun hkind => ⟨⟨t, slot⟩, ?_, fun row x => ?_⟩,
    fun hkind => ⟨⟨t, slot⟩, ?_, fun row text => ?_⟩⟩
  · rw [Transaction.floatReader, Transaction.typedColumn, hlookup]
    show (if column.kind = .float64 then _ else _) >>= _ = _
    rw [if_pos hkind]
    rfl
  · rw [FloatReader.get_eq hwf.table hgen hpresent hkind, hsize]
    split_ifs with hid
    · rw [Collection.current_bind_iff Value.asFloat64?_eq_some_iff]
      exact (and_iff_right hid).symm
    · refine ⟨fun hnone => ?_, fun hsome => absurd hsome.1 hid⟩
      cases hnone
  · rw [Transaction.stringReader, hlookup]
    rcases hkind with hkind | hkind <;> simp only [hkind, bind, Except.bind] <;> rfl
  · rw [StringReader.get_eq hwf.table hgen hpresent, hsize]
    split_ifs with hid
    · rw [Collection.current_bind_iff Value.asString?_eq_some_iff]
      exact (and_iff_right hid).symm
    · refine ⟨fun hnone => ?_, fun hsome => absurd hsome.1 hid⟩
      cases hnone

/-- A row of numbers, on which a transaction can be opened. -/
def Session.ages : Session :=
  (start (.new 2)).run [.createColumn "age" .float64, .insert [("age", .float64 .one)]]

theorem reachable_ages : Reachable Session.ages := (Reachable.new 2).run _

/-- A number inserted after the opening, into a chunk that was there. -/
theorem reader_get_iff_ages :
    ∃ t reader, ((Session.ages.step .begin).2.run
        [.insert [("age", .float64 .zero)]]).transactions[0]? = some t ∧
      t.floatReader "age" = .ok reader ∧
      reader.get ((Session.ages.step .begin).2.run [.insert [("age", .float64 .zero)]]).collection
        1 = some .zero := by
  have hops : ∀ op ∈ [Op.insert [("age", .float64 .zero)]], op.isLoad = false := by
    simp [Op.isLoad]
  obtain ⟨t, ht, hreaders⟩ := reachable_ages.reader_get_iff hops
  have hcolumn : Session.ages.collection.table.schema.column? "age" =
      some (0, ⟨"age", .float64⟩) := by
    decide +kernel
  obtain ⟨reader, hreader, hget⟩ := (hreaders "age" 0 _ hcolumn).1 rfl
  refine ⟨t, reader, ht, hreader, (hget 1 .zero).mpr ⟨by decide +kernel, by cbv⟩⟩

/-- A number inserted after the opening, into a chunk that was not there: the collection has it and
    the reader gives nothing. -/
theorem reader_get_later :
    let s := (Session.start (.new 2)).run [.createColumn "age" .float64, .begin,
      .insert [("age", .float64 .one)]]
    ∃ t reader, s.transactions[0]? = some t ∧ t.floatReader "age" = .ok reader ∧
      reader.get s.collection 0 = none ∧
      s.collection.valueAt "age" 0 = .ok (some (.float64 .one)) := by
  let t : Transaction :=
    .start ((Session.start (.new 2)).run [.createColumn "age" .float64]).collection
  refine ⟨t, ⟨t, 0⟩, rfl, ?_, ?_, ?_⟩
  · cbv
  · cbv
  · cbv

end ColumnStore
