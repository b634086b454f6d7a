import ColumnStore.Proofs.Binary64
import ColumnStore.Proofs.Session.Generations
import ColumnStore.Proofs.Session.Sheet

/-!
# The layout of rows does not show

A configuration says how rows are laid out: how many go into a chunk, how much room is made for
them, how many threads scan them. Two collections with different configurations put one row into
different chunks, and a column that was added late has segments in other chunks of the one than of
the other. Both show the same notebook, and what the notebook does not have, the readers of
transactions, comes to the same by row.

* `FloatReader.sum_eq`: the sum of a reader adds up the numbers of the selected rows; a chunk
  without a segment adds nothing, which is what its rows would add, one zero for each;
* `run_layouts`: after the same operations, loads excepted, two collections give the same answers.
-/

namespace ColumnStore

/-! ## Sums by row -/

namespace Binary64

/-- The sum of some numbers after a total, in order. -/
def addAll {α : Type} (number : α → Option Binary64) (total : Binary64) (xs : List α) : Binary64 :=
  xs.foldl (fun total x => total.add ((number x).getD .zero)) total

variable {α : Type} {total : Binary64}

theorem addAll_cons (number : α → Option Binary64) (total : Binary64) (x : α) (xs : List α) :
    total.addAll number (x :: xs) = (total.add ((number x).getD .zero)).addAll number xs := by
  rw [addAll, List.foldl_cons, addAll]

theorem Total.addAll (h : total.Total) (number : α → Option Binary64) (xs : List α) :
    (total.addAll number xs).Total := by
  induction xs generalizing total with
  | nil => exact h
  | cons x rest ih =>
    rw [addAll_cons]
    exact ih (h.add _)

theorem addAll_congr {number number' : α → Option Binary64} {xs : List α}
    (h : ∀ x ∈ xs, number x = number' x) : total.addAll number xs = total.addAll number' xs := by
  rw [addAll, addAll]
  exact List.foldl_ext _ _ _ fun total x hx => by rw [h x hx]

/-- Absent numbers leave a total as it is. -/
theorem Total.addAll_none (h : total.Total) {number : α → Option Binary64} {xs : List α}
    (hnone : ∀ x ∈ xs, number x = none) : total.addAll number xs = total := by
  induction xs generalizing total with
  | nil => rfl
  | cons x rest ih =>
    rw [List.forall_mem_cons] at hnone
    rw [addAll_cons, hnone.1, Option.getD_none, h.add_zero, ih h hnone.2]

end Binary64

section Sum

open Selection (rowsFrom)

variable {c : Collection} {t : Transaction} {name : String} {slot : Nat} {column : Column}

/-- The number that is read of a row is that of its cell: a row that is not live has none. -/
theorem Table.Plain.number_eq (h : c.table.Plain c.config)
    (hcolumn : c.table.schema.column? name = some (slot, column)) (hkind : column.kind = .float64)
    (row : Nat) :
    (c.current name row).bind Value.asFloat64? =
      (c.table.cell? c.config slot row).bind Cell.number? := by
  rw [Collection.current_eq_read? h.wellFormed hcolumn, Table.read?]
  split_ifs with hlive
  · rw [Table.cellValue?, Option.bind_map]
    cases hcell : c.table.cell? c.config slot row with
    | none => rfl
    | some cell =>
      obtain ⟨⟨found, hslot, hcellKind⟩, -⟩ := h.wellFormed.kind_of_cell? hcell
      rw [(Schema.exists_of_column? hcolumn).1] at hslot
      cases hslot
      exact (Cell.number?_eq (hcellKind.trans hkind) _).symm
  · rw [(h.tidy row (Bool.eq_false_of_not_eq_true hlive)).cell?]
    rfl

/-- What one chunk adds to a sum are the numbers of its rows. -/
theorem FloatReader.addAll_chunk (c : Collection) (slot id : Nat) {bits : Bitmap}
    (hbounded : ∀ offset, bits.contains offset = true → offset < c.config.chunkSize)
    {total : Binary64} (htotal : total.Total) :
    (match c.table.chunks[id]?.bind fun chunk => chunk.columns[slot]? with
      | some segment => total.addAll segment.floatAt bits.toList
      | none => total) =
      total.addAll (fun offset =>
        (c.table.cell? c.config slot (id * c.config.chunkSize + offset)).bind Cell.number?)
        bits.toList := by
  have hcell : ∀ offset ∈ bits.toList,
      c.table.cell? c.config slot (id * c.config.chunkSize + offset) =
        (c.table.chunks[id]?.bind fun chunk => chunk.columns[slot]?).bind (·.cell? offset) := by
    intro offset hoffset
    have hlt := hbounded offset (Bitmap.mem_toList.mp hoffset)
    cases hchunk : c.table.chunks[id]? with
    | none => rw [Table.cell?, Selection.div_of_offset hlt, hchunk]; rfl
    | some chunk => exact Table.cell?_of_chunk hchunk hlt slot
  cases hsegment : c.table.chunks[id]?.bind fun chunk => chunk.columns[slot]? with
  | none =>
    refine (htotal.addAll_none fun offset hoffset => ?_).symm
    rw [hcell offset hoffset, hsegment]
    rfl
  | some segment =>
    refine Binary64.addAll_congr fun offset hoffset => ?_
    rw [hcell offset hoffset, hsegment, Segment.floatAt_eq]
    rfl

/-- So do the chunks from some chunk on. -/
theorem FloatReader.addAll_chunks (c : Collection) (slot : Nat) {bitmaps : List Bitmap}
    (hbounded : Selection.Bounded c.config.chunkSize bitmaps) (id : Nat) {total : Binary64}
    (htotal : total.Total) :
    (bitmaps.zipIdx id).foldl (fun total (bits, id) =>
        match c.table.chunks[id]?.bind fun chunk => chunk.columns[slot]? with
        | some segment => total.addAll segment.floatAt bits.toList
        | none => total) total =
      total.addAll (fun row => (c.table.cell? c.config slot row).bind Cell.number?)
        (rowsFrom c.config.chunkSize bitmaps id) := by
  induction bitmaps generalizing id total with
  | nil => rfl
  | cons bits rest ih =>
    have hchunk := addAll_chunk c slot id (hbounded bits List.mem_cons_self) htotal
    have hrows : total.addAll (fun row => (c.table.cell? c.config slot row).bind Cell.number?)
        (bits.toList.map fun offset => id * c.config.chunkSize + offset) = _ := List.foldl_map
    rw [List.zipIdx_cons, List.foldl_cons, Selection.rowsFrom_cons, Binary64.addAll,
      List.foldl_append]
    refine (congrArg (List.foldl _ · _) (hchunk.trans hrows.symm)).trans ?_
    exact ih hbounded.tail (id + 1) (htotal.addAll _ _)

/-- The sum of a reader adds up the numbers that are read of the selected rows, in order. -/
theorem FloatReader.sum_eq (h : c.table.Plain c.config) (hgen : t.generation = c.generation)
    (ht : t.Open c.config c.table) (hcolumn : c.table.schema.column? name = some (slot, column))
    (hkind : column.kind = .float64) :
    (FloatReader.mk t slot).sum c =
      Binary64.zero.addAll (fun row => (c.current name row).bind Value.asFloat64?) (t.rows c) := by
  simp only [h.number_eq hcolumn hkind]
  rw [Transaction.rows_eq, ← addAll_chunks c slot ht.bounded 0 Binary64.total_zero, sum]
  refine List.foldl_ext _ _ _ fun total entry hentry => ?_
  obtain ⟨bits, id⟩ := entry
  have hid : id < t.selection.size := by
    have := (List.mem_zipIdx hentry).2.1
    simpa using this
  have hchunk : t.chunk? c id = c.table.chunks[id]? := by
    rw [Transaction.chunk?, if_pos hid, Transaction.table_of_current hgen]
  simp only [hchunk]
  rfl

end Sum

/-! ## Transactions of one notebook -/

namespace Transaction

/-- What can be read through two transactions is the same; by the readers of single rows, of the
    rows below a bound. -/
structure ReadsAlikeBelow (bound : Nat) (t : Transaction) (c : Collection) (t' : Transaction)
    (c' : Collection) : Prop where
  count : t'.count = t.count
  rows : t'.rows c' = t.rows c
  sum : ∀ name, (t'.floatReader name).map (·.sum c') = (t.floatReader name).map (·.sum c)
  number : ∀ name, ∀ row < bound,
    (t'.floatReader name).map (·.get c' row) = (t.floatReader name).map (·.get c row)
  opens : ∀ name,
    (t'.stringReader name).map (fun _ => ()) = (t.stringReader name).map fun _ => ()
  text : ∀ name, ∀ row < bound,
    (t'.stringReader name).map (·.get c' row) = (t.stringReader name).map (·.get c row)

theorem count_eq_length (t : Transaction) (c : Collection) : t.count = (t.rows c).length := by
  rw [rows_eq, Selection.length_rowsFrom, count, List.sum]

/-- What is read by the readers of a column is the same when it is by two readers of its slot. -/
theorem floatReader_map_congr {t t' : Transaction} (h : t'.schema.columns = t.schema.columns)
    {name : String} {α : Type} {read read' : FloatReader → α}
    (hread : ∀ slot column, t.schema.column? name = some (slot, column) → column.kind = .float64 →
      read' ⟨t', slot⟩ = read ⟨t, slot⟩) :
    (t'.floatReader name).map read' = (t.floatReader name).map read := by
  unfold floatReader typedColumn Transaction.column
  rw [Schema.column?_congr h]
  cases hfound : t.schema.column? name with
  | none => rfl
  | some found =>
    obtain ⟨slot, column⟩ := found
    simp only [bind, Except.bind]
    split_ifs with hkind
    · exact congrArg Except.ok (hread slot column hfound hkind)
    · rfl

theorem stringReader_map_congr {t t' : Transaction} (h : t'.schema.columns = t.schema.columns)
    {name : String} {α : Type} {read read' : StringReader → α}
    (hread : ∀ slot column, t.schema.column? name = some (slot, column) →
      read' ⟨t', slot⟩ = read ⟨t, slot⟩) :
    (t'.stringReader name).map read' = (t.stringReader name).map read := by
  unfold stringReader Transaction.column
  rw [Schema.column?_congr h]
  cases hfound : t.schema.column? name with
  | none => rfl
  | some found =>
    obtain ⟨slot, column⟩ := found
    have hsame := congrArg (Except.ok (ε := Error)) (hread slot column hfound)
    simp only [bind, Except.bind]
    cases column.kind with
    | enum => exact hsame
    | any => exact hsame
    | float64 => rfl
    | bool => rfl

end Transaction

namespace Session

variable {s s' : Session}

/-- What is read of a row in a session without loads is in its notebook. -/
theorem Plain.current_congr (h : s.Plain) (h' : s'.Plain) (hnotebook : s'.notebook = s.notebook)
    (name : String) (row : Nat) :
    s'.collection.current name row = s.collection.current name row := by
  have hsheet : s'.collection.sheet = s.collection.sheet := congrArg Notebook.sheet hnotebook
  rw [Collection.current_sheet h.table.wellFormed, Collection.current_sheet h'.table.wellFormed,
    hsheet]

/-- Transactions of one notebook read alike, the rows of chunks that both were opened on. -/
theorem Plain.readsAlikeBelow (h : s.Plain) (h' : s'.Plain) (hnotebook : s'.notebook = s.notebook)
    {id : Nat} {t t' : Transaction} (ht : s.transactions[id]? = some t)
    (ht' : s'.transactions[id]? = some t') {bound : Nat}
    (hbound : bound ≤ t.selection.size * s.collection.config.chunkSize)
    (hbound' : bound ≤ t'.selection.size * s'.collection.config.chunkSize) :
    t.ReadsAlikeBelow bound s.collection t' s'.collection := by
  obtain ⟨hopen, hgen⟩ := h.opened ht
  obtain ⟨hopen', hgen'⟩ := h'.opened ht'
  have hquery : t'.query s'.collection = t.query s.collection := by
    have hfound := congrArg (fun n : Notebook => n.queries[id]?) hnotebook
    simpa only [getElem?_notebook, ht, ht', Option.map_some, Option.some.injEq] using hfound
  have hcolumns : t'.schema.columns = t.schema.columns :=
    Array.toList_inj.mp (congrArg Sheet.Query.columns hquery)
  have hrows : t'.rows s'.collection = t.rows s.collection :=
    congrArg Sheet.Query.selected hquery
  have hcurrent := h.current_congr h' hnotebook
  have hwf := h.table.wellFormed
  have hwf' := h'.table.wellFormed
  have hplace : ∀ {name : String} {found : Nat × Column}, t.schema.column? name = some found →
      s.collection.table.schema.column? name = some found ∧
        s'.collection.table.schema.column? name = some found := by
    intro name found hfound
    refine ⟨hopen.extends_.column? hwf.schema hfound, hopen'.extends_.column? hwf'.schema ?_⟩
    rw [Schema.column?_congr hcolumns]
    exact hfound
  have hchunk : ∀ row < bound, row / s.collection.chunkSize < t.selection.size ∧
      row / s'.collection.chunkSize < t'.selection.size := fun row hrow =>
    ⟨(Nat.div_lt_iff_lt_mul hwf.chunkSize_pos).mpr (hrow.trans_le hbound),
      (Nat.div_lt_iff_lt_mul hwf'.chunkSize_pos).mpr (hrow.trans_le hbound')⟩
  refine ⟨?_, hrows, fun name => ?_, fun name row hrow => ?_, fun name => ?_,
    fun name row hrow => ?_⟩
  · rw [t'.count_eq_length s'.collection, t.count_eq_length s.collection, hrows]
  · refine Transaction.floatReader_map_congr hcolumns fun slot column hcolumn hkind => ?_
    obtain ⟨hfound, hfound'⟩ := hplace hcolumn
    rw [FloatReader.sum_eq h.table hgen hopen hfound hkind,
      FloatReader.sum_eq h'.table hgen' hopen' hfound' hkind, hrows]
    simp only [hcurrent]
  · refine Transaction.floatReader_map_congr hcolumns fun slot column hcolumn hkind => ?_
    obtain ⟨hfound, hfound'⟩ := hplace hcolumn
    rw [FloatReader.get_eq hwf hgen hfound hkind, FloatReader.get_eq hwf' hgen' hfound' hkind,
      if_pos (hchunk row hrow).1, if_pos (hchunk row hrow).2, hcurrent]
  · exact Transaction.stringReader_map_congr hcolumns fun _ _ _ => rfl
  · refine Transaction.stringReader_map_congr hcolumns fun slot column hcolumn => ?_
    obtain ⟨hfound, hfound'⟩ := hplace hcolumn
    rw [StringReader.get_eq hwf hgen hfound, StringReader.get_eq hwf' hgen' hfound',
      if_pos (hchunk row hrow).1, if_pos (hchunk row hrow).2, hcurrent]

/-- A transaction that a run adds was opened by one of its operations. -/
theorem exists_begin {s : Session} {ops : List Op} {id : Nat} (hid : s.transactions.size ≤ id)
    {t : Transaction} (ht : (s.run ops).transactions[id]? = some t) :
    ∃ before after, ops = before ++ .begin :: after ∧ (s.run before).transactions.size = id := by
  induction ops generalizing s with
  | nil =>
    rw [show s.run [] = s from rfl, Array.getElem?_eq_none hid] at ht
    cases ht
  | cons op rest ih =>
    rcases Nat.lt_or_ge id (s.step op).2.transactions.size with hlt | hge
    · obtain ⟨-, heq, rfl⟩ := s.getElem?_step_of_le op hid (Array.getElem?_eq_getElem hlt)
      exact ⟨[], rest, rfl, heq.symm⟩
    · obtain ⟨before, after, rfl, hsize⟩ := ih hge ht
      exact ⟨op :: before, after, rfl, hsize⟩

theorem run_append (s : Session) (before after : List Op) :
    s.run (before ++ after) = (s.run before).run after := List.foldl_append

/-- A transaction was opened on chunks that hold all rows there were then. -/
theorem Plain.le_of_begin (h : s.Plain) {before after : List Op}
    (hops : ∀ op ∈ before ++ .begin :: after, op.isLoad = false) {t : Transaction}
    (ht : (s.run (before ++ .begin :: after)).transactions[(s.run before).transactions.size]? =
      some t) :
    (s.run before).collection.table.nextRow ≤
      t.selection.size * (s.run (before ++ .begin :: after)).collection.config.chunkSize := by
  rw [List.forall_mem_append, List.forall_mem_cons] at hops
  obtain ⟨hwf, -⟩ := h.wellFormed.run_steps hops.1
  obtain ⟨-, hconfig, -⟩ := (hwf.step .begin).run_steps hops.2.2
  have hlast : ((s.run before).step .begin).2.transactions[(s.run before).transactions.size]? =
      some (.start (s.run before).collection) := Array.getElem?_push_size
  obtain ⟨t', ht', hviews⟩ := Session.views_run _ after hlast
  rw [run_append, run_cons] at ht ⊢
  rw [ht'] at ht
  cases ht
  rw [hviews.size, hconfig]
  exact hwf.table.nextRow_le.trans_eq (congrArg (· * _) (Array.size_map ..).symm)

theorem Plain.of_withConfig {config : Config} {c : Collection}
    (h : Collection.withConfig config = .ok c) :
    (start c).Plain ∧ (start c).notebook = Notebook.empty := by
  obtain ⟨hfault, rfl⟩ := Collection.build_of_withConfig h
  exact ⟨plain_start hfault, notebook_start config⟩

end Session

/-- Two collections, whatever their configurations, after the same operations, loads excepted: the
    next operation has the same answer, error or not, and a pass visits the same rows in the same
    order and stops at the same one; the columns and indexes, every record, every value and the
    count are the same; and there are the same transactions, which select the same rows and have
    readers that give the same sums and, of the rows that were there at their opening, the same
    values. -/
theorem run_layouts {config config' : Config} {c c' : Collection}
    (h : Collection.withConfig config = .ok c) (h' : Collection.withConfig config' = .ok c')
    {ops : List Op} (hops : ∀ op ∈ ops, op.isLoad = false) :
    let s := (Session.start c).run ops
    let s' := (Session.start c').run ops
    (∀ op : Op, op.isLoad = false → (s'.step op).1 = (s.step op).1) ∧
      s'.collection.columns = s.collection.columns ∧
      s'.collection.indexes = s.collection.indexes ∧
      (∀ row, s'.collection.fetch row = s.collection.fetch row) ∧
      (∀ column row, s'.collection.valueAt column row = s.collection.valueAt column row) ∧
      s'.collection.count = s.collection.count ∧
      s'.transactions.size = s.transactions.size ∧
      ∀ id t, s.transactions[id]? = some t → ∃ t' before after,
        s'.transactions[id]? = some t' ∧ ops = before ++ .begin :: after ∧
          ((Session.start c).run before).transactions.size = id ∧
          t.ReadsAlikeBelow ((Session.start c).run before).collection.table.nextRow s.collection
            t' s'.collection := by
  intro s s'
  obtain ⟨hstart, hempty⟩ := Session.Plain.of_withConfig h
  obtain ⟨hstart', hempty'⟩ := Session.Plain.of_withConfig h'
  have hrun : ∀ {ops : List Op}, (∀ op ∈ ops, op.isLoad = false) →
      ((Session.start c').run ops).notebook = ((Session.start c).run ops).notebook := by
    intro ops hops
    rw [(hstart.run hops).1, (hstart'.run hops).1, hempty, hempty']
  have hplain : s.Plain := (hstart.run hops).2
  have hplain' : s'.Plain := (hstart'.run hops).2
  have hnotebook : s'.notebook = s.notebook := hrun hops
  have hsheet : s'.collection.sheet = s.collection.sheet := congrArg Notebook.sheet hnotebook
  have hwf := hplain.wellFormed.table
  have hwf' := hplain'.wellFormed.table
  have hsizes : ∀ {s s' : Session}, s'.notebook = s.notebook →
      s'.transactions.size = s.transactions.size := fun heq => by
    simpa [Session.notebook] using congrArg (fun n : Notebook => n.queries.size) heq
  refine ⟨fun op hop => ?_, ?_, ?_, fun row => ?_, fun column row => ?_, ?_, hsizes hnotebook,
    fun id t ht => ?_⟩
  · rw [(hplain.refines hop).1, (hplain'.refines hop).1, hnotebook]
  · have hcolumns : s'.collection.table.schema.columns = s.collection.table.schema.columns :=
      Array.toList_inj.mp (congrArg Sheet.columns hsheet)
    show Table.columnNames _ = Table.columnNames _
    rw [Table.columnNames, Table.columnNames, hcolumns]
  · have hrules := congrArg (fun sheet : Sheet => sheet.rules.map Sheet.Rule.name) hsheet
    show Table.indexNames _ = Table.indexNames _
    rw [Table.indexNames, Table.indexNames, Array.toList_map, Array.toList_map]
    exact ((Table.rules_sheet ..).symm.trans hrules).trans (Table.rules_sheet ..)
  · exact (hwf'.fetch_sheet row).trans ((congrArg (·.fetch row) hsheet).trans
      (hwf.fetch_sheet row).symm)
  · exact (hwf'.valueAt_sheet column row).trans ((congrArg (·.valueAt column row) hsheet).trans
      (hwf.valueAt_sheet column row).symm)
  · exact hwf'.count_sheet.trans ((congrArg Sheet.count hsheet).trans hwf.count_sheet.symm)
  · obtain ⟨before, after, rfl, rfl⟩ := Session.exists_begin (Nat.zero_le id) ht
    have hbefore : ∀ op ∈ before, op.isLoad = false := fun op hop =>
      hops op (List.mem_append_left _ hop)
    have hlt : ((Session.start c).run before).transactions.size < s'.transactions.size := by
      rw [hsizes hnotebook]
      exact (Array.getElem?_eq_some_iff.mp ht).1
    obtain ⟨t', ht'⟩ : ∃ t', s'.transactions[((Session.start c).run before).transactions.size]? =
        some t' := ⟨_, Array.getElem?_eq_getElem hlt⟩
    refine ⟨t', before, after, ht', rfl, rfl,
      hplain.readsAlikeBelow hplain' hnotebook ht ht' (hstart.le_of_begin hops ht) ?_⟩
    have hrows : ((Session.start c').run before).collection.table.nextRow =
        ((Session.start c).run before).collection.table.nextRow := by
      have hlength := congrArg (fun n : Notebook => n.sheet.rows.length) (hrun hbefore)
      exact ((Table.length_rows ..).symm.trans hlength).trans (Table.length_rows ..)
    rw [← hrows]
    rw [← hsizes (hrun hbefore)] at ht'
    exact hstart'.le_of_begin hops ht'

/-- The last of 65 rows opens a second chunk where 64 make one, and is in the first where 128 do. -/
theorem run_layouts_ages :
    let ops := .createColumn "age" .float64 ::
      List.replicate 65 (.insert [("age", .float64 .one)])
    ∃ c c', Collection.withConfig ⟨0, 64, none⟩ = .ok c ∧
      Collection.withConfig ⟨1000, 128, some 4⟩ = .ok c' ∧
      ((Session.start c').run ops).collection.fetch 64 =
        ((Session.start c).run ops).collection.fetch 64 := by
  intro ops
  have hops : ∀ op ∈ ops, op.isLoad = false := by
    simp [ops, Op.isLoad]
  have hconfig : Collection.withConfig ⟨0, 64, none⟩ = .ok (.build ⟨0, 64, none⟩) := by
    rfl
  have hconfig' : Collection.withConfig ⟨1000, 128, some 4⟩ = .ok (.build ⟨1000, 128, some 4⟩) := by
    rfl
  obtain ⟨-, -, -, hfetch, -⟩ := run_layouts hconfig hconfig' hops
  exact ⟨_, _, hconfig, hconfig', hfetch 64⟩

end ColumnStore
