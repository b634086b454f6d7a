import ColumnStore.Proofs.Transaction.Walk

/-!
# The record of a pass

`Transaction.recorded` makes any visitor keep a record of the rows it is called at and of the writes
it makes there, with the answers it gets. It does to the store what the visitor does
(`Cursor.run_recorded`), so the record says what the visitor does. `Table.walk_recorded`: over a list
of live rows, the record follows the list up to the first visit that ends the walk (`Follows`), and
the contents are what its writes make of them one after the other, a write that fails counting for
nothing (`Table.Composes`).

`Table.Held` is the form in which contents are kept, the retired ones included. A transaction on
retired contents writes under its own schema, which may lack columns and indexes that the contents
have.
-/

namespace ColumnStore

/-! ## Records -/

/-- A write that a visit made, to the column of its pass or to the named one, and its answer. -/
structure Edit where
  column : Option String
  value : Value
  answer : Except Error Unit

/-- The write as a visit of its own. -/
def Edit.visit (edit : Edit) : Visit (Except Error Unit) :=
  match edit.column with
  | none => .set edit.value
  | some name => .setOf name edit.value

/-- A call of a visitor: the row, the writes made there and how the visit ended. -/
structure Call where
  row : Nat
  edits : List Edit
  outcome : Except Error Bool

/-- The visit, which also adds its writes to a list. -/
def Visit.recorded {α : Type} : Visit α → List Edit → Visit (α × List Edit)
  | .done a, edits => .done (a, edits)
  | .value next, edits => .value fun v => (next v).recorded edits
  | .float64 next, edits => .float64 fun x => (next x).recorded edits
  | .valueOf name next, edits => .valueOf name fun r => (next r).recorded edits
  | .write v next, edits => .write v fun r => (next r).recorded (edits ++ [⟨none, v, r⟩])
  | .writeOf name v next, edits =>
    .writeOf name v fun r => (next r).recorded (edits ++ [⟨some name, v, r⟩])

/-- The visitor, which also adds every row it is called at to a list. -/
def Transaction.recorded {σ : Type} (visitor : Transaction.Visitor σ) :
    Transaction.Visitor (σ × List Call) :=
  fun (state, log) row =>
    ((visitor state row).recorded []).bind fun ((state, outcome), edits) =>
      .done ((state, log ++ [⟨row, edits, outcome⟩]), outcome)

/-- A pass over the rows of a list that leaves this record comes to the rows in order, each once. It
    goes on while the visits say so: to the end, or to the first that says to stop, which ends the
    pass well, or that fails, which ends it with the error. -/
def Follows (rows : List Nat) (log : List Call) (ended : Except Error Unit) : Prop :=
  (log.map Call.row = rows ∧ (∀ call ∈ log, call.outcome = .ok true) ∧ ended = .ok ()) ∨
    ∃ before last rest, log = before ++ [last] ∧
      rows = before.map Call.row ++ last.row :: rest ∧
      (∀ call ∈ before, call.outcome = .ok true) ∧
      (last.outcome = .ok false ∧ ended = .ok () ∨
        ∃ e, last.outcome = .error e ∧ ended = .error e)

theorem Follows.cons {rows : List Nat} {log : List Call} {ended : Except Error Unit}
    (h : Follows rows log ended) {first : Call} (hfirst : first.outcome = .ok true) :
    Follows (first.row :: rows) (first :: log) ended := by
  rcases h with ⟨rfl, hall, hended⟩ | ⟨before, last, rest, rfl, rfl, hall, hended⟩
  · exact Or.inl ⟨rfl, List.forall_mem_cons.mpr ⟨hfirst, hall⟩, hended⟩
  · exact Or.inr ⟨first :: before, last, rest, rfl, rfl, List.forall_mem_cons.mpr ⟨hfirst, hall⟩,
      hended⟩

theorem Follows.mem {rows : List Nat} {log : List Call} {ended : Except Error Unit}
    (h : Follows rows log ended) {call : Call} (hcall : call ∈ log) : call.row ∈ rows := by
  rcases h with ⟨rfl, -⟩ | ⟨before, last, rest, rfl, rfl, -⟩
  · exact List.mem_map_of_mem hcall
  · rw [List.mem_append, List.mem_singleton] at hcall
    rcases hcall with hbefore | rfl
    · exact List.mem_append_left _ (List.mem_map_of_mem hbefore)
    · exact List.mem_append_right _ List.mem_cons_self

/-! ## One write -/

namespace Chunk

/-- A chunk under dictionaries of which each keeps its ids, with the same live rows. -/
structure Kept (chunkSize : Nat) (schema : Schema) (dictionaries : Array Dictionary)
    (chunk : Chunk) (dictionaries' : Array Dictionary) (chunk' : Chunk) : Prop where
  wellFormed : chunk'.WellFormed chunkSize schema dictionaries'
  allExtend : Column.AllExtend dictionaries dictionaries'
  fill : chunk'.fill = chunk.fill

end Chunk

/-- The errors of a write that is refused. -/
def Error.IsRefusal (e : Error) : Prop :=
  (∃ column expected found, e = .typeMismatch column expected found) ∨
    ∃ column, e = .unknownColumn column

namespace Cursor

open Chunk (Kept)

variable {α : Type} {chunkSize : Nat} {schema : Schema} {dictionaries : Array Dictionary}
  {chunk : Chunk} {cursor : Cursor}

theorem run_bind {β : Type} (cursor : Cursor) (visit : Visit α) (f : α → Visit β)
    (dictionaries : Array Dictionary) (chunk : Chunk) :
    cursor.run (visit.bind f) dictionaries chunk =
      cursor.run (f (cursor.run visit dictionaries chunk).1)
        (cursor.run visit dictionaries chunk).2.1 (cursor.run visit dictionaries chunk).2.2 := by
  induction visit generalizing dictionaries chunk with
  | done a => rfl
  | value next ih => exact ih ..
  | float64 next ih => exact ih ..
  | valueOf name next ih => exact ih ..
  | write v next ih => exact ih ..
  | writeOf name v next ih => exact ih ..

/-- A write of a value that the column accepts succeeds and overwrites one cell. -/
theorem write_of_accepts (h : chunk.WellFormed chunkSize schema dictionaries)
    (hext : cursor.schema.Extends schema) (hsize : dictionaries.size = schema.columns.size)
    (hlive : chunk.fill.contains cursor.offset = true) {slot : Nat} {column : Column}
    (hcolumn : cursor.schema.columns[slot]? = some column) {value : Value}
    (haccepts : column.kind.accepts value = true) :
    ∃ dictionaries' chunk' cell,
      cursor.write slot column value dictionaries chunk = (.ok (), dictionaries', chunk') ∧
      Kept chunkSize schema dictionaries chunk dictionaries' chunk' ∧
      Column.EncodesAt column dictionaries slot value cell dictionaries' ∧
      Chunk.Updated cursor.schema dictionaries' cursor.offset slot cell chunk chunk' := by
  have hfound := hext.columns slot column hcolumn
  have hslot := (Array.getElem?_eq_some_iff.mp hfound).1
  obtain ⟨cell, ds', hencode, hspec⟩ :=
    Column.encodeAt_of_accepts haccepts (show slot < dictionaries.size by omega)
  have hstorable : ∀ c ∈ cell, Chunk.Storable schema ds' slot c := fun c hc =>
    ⟨⟨column, hfound, hspec.kind c hc⟩, hspec.known c hc⟩
  obtain ⟨chunk', hupdate, hwf, -, hupdated⟩ := (h.of_allExtend hspec.allExtend).update hext
    (h.fill.lt _ hlive) (Array.getElem?_eq_some_iff.mp hcolumn).1 hstorable column
  have hwrite : cursor.write slot column value dictionaries chunk = (.ok (), ds', chunk') := by
    unfold Cursor.write
    rw [hencode]
    simp only [hupdate]
  have hfill := cursor.fill_write slot column value dictionaries chunk
  rw [hwrite] at hfill
  exact ⟨ds', chunk', cell, hwrite, ⟨hwf, hspec.allExtend, hfill⟩, hspec, hupdated⟩

theorem write_of_not_accepts (cursor : Cursor) {column : Column} {value : Value}
    (haccepts : column.kind.accepts value = false) (slot : Nat) (dictionaries : Array Dictionary)
    (chunk : Chunk) : cursor.write slot column value dictionaries chunk =
      (.error (column.mismatch value), dictionaries, chunk) := by
  unfold Cursor.write
  rw [Column.encodeAt_of_not_accepts haccepts]

/-- A write is accepted, or refused for its type and without any effect. -/
theorem write_cases (h : chunk.WellFormed chunkSize schema dictionaries)
    (hext : cursor.schema.Extends schema) (hsize : dictionaries.size = schema.columns.size)
    (hlive : chunk.fill.contains cursor.offset = true) {slot : Nat} {column : Column}
    (hcolumn : cursor.schema.columns[slot]? = some column) (value : Value) :
    cursor.write slot column value dictionaries chunk =
        (.error (column.mismatch value), dictionaries, chunk) ∨
      ∃ dictionaries' chunk',
        cursor.write slot column value dictionaries chunk = (.ok (), dictionaries', chunk') ∧
        Kept chunkSize schema dictionaries chunk dictionaries' chunk' := by
  cases haccepts : column.kind.accepts value with
  | false => exact Or.inl (cursor.write_of_not_accepts haccepts slot dictionaries chunk)
  | true =>
    obtain ⟨ds', chunk', -, hwrite, hkept, -⟩ :=
      write_of_accepts h hext hsize hlive hcolumn haccepts
    exact Or.inr ⟨ds', chunk', hwrite, hkept⟩

/-- A write to the column of the pass, or to a named one, keeps the form of the chunk; if it fails,
    it is refused and has no effect. -/
theorem run_edit (h : chunk.WellFormed chunkSize schema dictionaries)
    (hext : cursor.schema.Extends schema) (hsize : dictionaries.size = schema.columns.size)
    (hlive : chunk.fill.contains cursor.offset = true)
    (hcolumn : cursor.schema.columns[cursor.slot]? = some cursor.column) (edit : Edit) :
    (∃ e, e.IsRefusal ∧
      cursor.run edit.visit dictionaries chunk = (.error e, dictionaries, chunk)) ∨
    ∃ dictionaries' chunk',
      cursor.run edit.visit dictionaries chunk = (.ok (), dictionaries', chunk') ∧
      Kept chunkSize schema dictionaries chunk dictionaries' chunk' := by
  obtain ⟨name, value, answer⟩ := edit
  have hwrite : ∀ {slot : Nat} {column : Column}, cursor.schema.columns[slot]? = some column →
      (∃ e : Error, e.IsRefusal ∧
        cursor.write slot column value dictionaries chunk = (.error e, dictionaries, chunk)) ∨
      ∃ dictionaries' chunk',
        cursor.write slot column value dictionaries chunk = (.ok (), dictionaries', chunk') ∧
        Kept chunkSize schema dictionaries chunk dictionaries' chunk' := fun hfound =>
    (write_cases h hext hsize hlive hfound value).imp_left fun hrefused =>
      ⟨_, Or.inl ⟨_, _, _, rfl⟩, hrefused⟩
  cases name with
  | none => exact hwrite hcolumn
  | some name =>
    show (∃ e : Error, e.IsRefusal ∧ cursor.run (.writeOf name value .done) dictionaries chunk = _) ∨
      ∃ dictionaries' chunk', cursor.run (.writeOf name value .done) dictionaries chunk = _ ∧ _
    rw [run]
    cases hfound : cursor.schema.column? name with
    | none => exact Or.inl ⟨_, Or.inr ⟨name, rfl⟩, rfl⟩
    | some found => exact hwrite (Schema.exists_of_column? hfound).1

/-- Writes made one after the other at a row, with the answers they get. -/
inductive Makes (cursor : Cursor) :
    Array Dictionary → Chunk → List Edit → Array Dictionary → Chunk → Prop
  | nil {dictionaries : Array Dictionary} {chunk : Chunk} :
    Makes cursor dictionaries chunk [] dictionaries chunk
  | cons {dictionaries ds₁ ds₂ : Array Dictionary} {chunk chunk₁ chunk₂ : Chunk} {edit : Edit}
    {rest : List Edit}
    (hedit : cursor.run edit.visit dictionaries chunk = (edit.answer, ds₁, chunk₁))
    (hrest : Makes cursor ds₁ chunk₁ rest ds₂ chunk₂) :
    Makes cursor dictionaries chunk (edit :: rest) ds₂ chunk₂

/-- What comes after a first write is made on what that leaves. -/
theorem makes_bind (edit : Edit) {next : Except Error Unit → Visit α} {edits made : List Edit}
    {ran : Except Error Unit × Array Dictionary × Chunk}
    (hran : cursor.run edit.visit dictionaries chunk = ran) (hanswer : edit.answer = ran.1)
    (hrun : cursor.run ((next ran.1).recorded (edits ++ [edit])) ran.2.1 ran.2.2 =
      (((cursor.run (next ran.1) ran.2.1 ran.2.2).1, edits ++ [edit] ++ made),
        (cursor.run (next ran.1) ran.2.1 ran.2.2).2))
    (hmakes : cursor.Makes ran.2.1 ran.2.2 made (cursor.run (next ran.1) ran.2.1 ran.2.2).2.1
      (cursor.run (next ran.1) ran.2.1 ran.2.2).2.2) :
    cursor.run ((next ran.1).recorded (edits ++ [edit])) ran.2.1 ran.2.2 =
        (((cursor.run (edit.visit.bind next) dictionaries chunk).1, edits ++ edit :: made),
          (cursor.run (edit.visit.bind next) dictionaries chunk).2) ∧
      cursor.Makes dictionaries chunk (edit :: made)
        (cursor.run (edit.visit.bind next) dictionaries chunk).2.1
        (cursor.run (edit.visit.bind next) dictionaries chunk).2.2 := by
  rw [run_bind, hran, hrun, List.append_assoc]
  exact ⟨rfl, .cons (hran.trans (by rw [hanswer])) hmakes⟩

/-- Keeping a record does not show in the store, and what a visit does to the store is what the
    writes of its record do. -/
theorem run_recorded (cursor : Cursor) (visit : Visit α) (edits : List Edit)
    (dictionaries : Array Dictionary) (chunk : Chunk) :
    ∃ made,
      cursor.run (visit.recorded edits) dictionaries chunk =
        (((cursor.run visit dictionaries chunk).1, edits ++ made),
          (cursor.run visit dictionaries chunk).2) ∧
      cursor.Makes dictionaries chunk made (cursor.run visit dictionaries chunk).2.1
        (cursor.run visit dictionaries chunk).2.2 := by
  induction visit generalizing edits dictionaries chunk with
  | done a => exact ⟨[], by rw [List.append_nil]; rfl, .nil⟩
  | value next ih => exact ih ..
  | float64 next ih => exact ih ..
  | valueOf name next ih => exact ih ..
  | write v next ih =>
    obtain ⟨ran, hran⟩ : ∃ ran, cursor.run (.set v) dictionaries chunk = ran := ⟨_, rfl⟩
    obtain ⟨made, hrun, hmakes⟩ := ih ran.1 (edits ++ [⟨none, v, ran.1⟩]) ran.2.1 ran.2.2
    obtain ⟨hrun, hmakes⟩ := makes_bind ⟨none, v, ran.1⟩ hran rfl hrun hmakes
    refine ⟨_, Eq.trans ?_ hrun, hmakes⟩
    rw [← hran]
    rfl
  | writeOf name v next ih =>
    obtain ⟨ran, hran⟩ : ∃ ran, cursor.run (.setOf name v) dictionaries chunk = ran := ⟨_, rfl⟩
    obtain ⟨made, hrun, hmakes⟩ := ih ran.1 (edits ++ [⟨some name, v, ran.1⟩]) ran.2.1 ran.2.2
    obtain ⟨hrun, hmakes⟩ := makes_bind ⟨some name, v, ran.1⟩ hran rfl hrun hmakes
    refine ⟨_, Eq.trans ?_ hrun, hmakes⟩
    rw [← hran]
    rfl

end Cursor

/-! ## The record of a walk -/

namespace Table

open Transaction (Visitor recorded)

variable {config : Config} {table table' : Table} {cursor : Nat → Cursor} {α σ : Type}

/-- Contents in the form that all contents are kept in, the retired ones included. -/
structure Held (config : Config) (table : Table) : Prop where
  dictionaries_size : table.dictionaries.size = table.schema.columns.size
  chunk : ∀ (id : Nat) chunk, table.chunks[id]? = some chunk →
    chunk.WellFormed config.chunkSize table.schema table.dictionaries

theorem WellFormed.held (h : table.WellFormed config) : table.Held config :=
  ⟨h.dictionaries_size, fun id chunk hchunk => (h.chunk id chunk hchunk).wellFormed⟩

/-- Contents after writes to live rows. -/
structure Written (config : Config) (table table' : Table) : Prop where
  held : table'.Held config
  schema_eq : table'.schema = table.schema
  chunks_size : table'.chunks.size = table.chunks.size
  isLive_eq : table'.isLive config = table.isLive config

theorem Held.written (h : table.Held config) : Written config table table := ⟨h, rfl, rfl, rfl⟩

theorem Written.trans {table'' : Table} (h : Written config table table')
    (h' : Written config table' table'') : Written config table table'' :=
  ⟨h'.held, h'.schema_eq.trans h.schema_eq, h'.chunks_size.trans h.chunks_size,
    h'.isLive_eq.trans h.isLive_eq⟩

theorem Held.withChunk (h : table.Held config) {id : Nat} {chunk chunk' : Chunk}
    (hchunk : table.chunks[id]? = some chunk) {dictionaries : Array Dictionary}
    (hkept : Chunk.Kept config.chunkSize table.schema table.dictionaries chunk dictionaries
      chunk') : Written config table (table.withChunk id dictionaries chunk') where
  held :=
    { dictionaries_size := hkept.allExtend.size.trans h.dictionaries_size
      chunk := fun other found hfound => by
        rw [getElem?_withChunk hchunk] at hfound
        split_ifs at hfound with hid
        · cases hfound
          exact hkept.wellFormed
        · exact (h.chunk other found hfound).of_allExtend hkept.allExtend }
  schema_eq := rfl
  chunks_size := Array.size_setIfInBounds
  isLive_eq := isLive_withChunk hchunk hkept.fill dictionaries

/-- Cursors for the rows of contents, each under a schema that the contents extend and at a column
    of it. -/
structure Places (schema : Schema) (cursor : Nat → Cursor) : Prop where
  offset_eq : ∀ offset, (cursor offset).offset = offset
  extends_ : ∀ offset, (cursor offset).schema.Extends schema
  column : ∀ offset, (cursor offset).schema.columns[(cursor offset).slot]? =
    some (cursor offset).column

/-- Contents that come from others by writes made one after the other, each at its row. A write that
    fails is one that is refused and changes nothing. -/
inductive Composes (config : Config) (cursor : Nat → Cursor) :
    Table → List (Nat × Edit) → Table → Prop
  | nil {table : Table} : Composes config cursor table [] table
  | cons {table table₁ table₂ : Table} {row : Nat} {edit : Edit} {rest : List (Nat × Edit)}
    (hedit : table.visitAt config cursor row edit.visit = (some edit.answer, table₁))
    (hrefused : ∀ e, edit.answer = .error e → e.IsRefusal ∧ table₁ = table)
    (hrest : Composes config cursor table₁ rest table₂) :
    Composes config cursor table ((row, edit) :: rest) table₂

theorem Composes.append {table'' : Table} {edits others : List (Nat × Edit)}
    (h : Composes config cursor table edits table')
    (h' : Composes config cursor table' others table'') :
    Composes config cursor table (edits ++ others) table'' := by
  induction h with
  | nil => exact h'
  | cons hedit hrefused _ ih => exact .cons hedit hrefused (ih h')

/-- A single write at a live row. -/
theorem Held.edited (h : table.Held config) (hplaces : Places table.schema cursor)
    {id offset : Nat} {chunk : Chunk} (hchunk : table.chunks[id]? = some chunk)
    (hlive : chunk.fill.contains offset = true) {edit : Edit} {dictionaries : Array Dictionary}
    {chunk' : Chunk}
    (hedit : (cursor offset).run edit.visit table.dictionaries chunk =
      (edit.answer, dictionaries, chunk')) :
    Written config table (table.withChunk id dictionaries chunk') ∧
      (∀ e, edit.answer = .error e →
        e.IsRefusal ∧ table.withChunk id dictionaries chunk' = table) ∧
      chunk'.fill = chunk.fill := by
  have hsame := withChunk_self hchunk
  have hlive' : chunk.fill.contains (cursor offset).offset = true := by
    rwa [hplaces.offset_eq]
  rcases Cursor.run_edit (h.chunk id chunk hchunk) (hplaces.extends_ offset)
    h.dictionaries_size hlive' (hplaces.column offset) edit with
    ⟨refusal, hrefusal, hrun⟩ | ⟨ds₁, chunk₁, hrun, hkept⟩
  · obtain ⟨hanswer, rfl, rfl⟩ : edit.answer = .error refusal ∧ dictionaries = table.dictionaries ∧
        chunk' = chunk := by
      simpa [eq_comm] using hedit.symm.trans hrun
    refine ⟨hsame.symm ▸ h.written, fun e he => ⟨?_, hsame⟩, rfl⟩
    rw [hanswer] at he
    cases he
    exact hrefusal
  · obtain ⟨hanswer, rfl, rfl⟩ : edit.answer = .ok () ∧ dictionaries = ds₁ ∧ chunk' = chunk₁ := by
      simpa [eq_comm] using hedit.symm.trans hrun
    refine ⟨h.withChunk hchunk hkept, fun e he => ?_, hkept.fill⟩
    rw [hanswer] at he
    cases he

/-- Writes at a live row compose. -/
theorem Held.composes_of_makes (h : table.Held config) (hplaces : Places table.schema cursor)
    {id offset : Nat} {chunk : Chunk} (hchunk : table.chunks[id]? = some chunk)
    (hlt : offset < config.chunkSize) (hlive : chunk.fill.contains offset = true)
    {edits : List Edit} {dictionaries : Array Dictionary} {chunk' : Chunk}
    (hmakes : (cursor offset).Makes table.dictionaries chunk edits dictionaries chunk') :
    Written config table (table.withChunk id dictionaries chunk') ∧
      Composes config cursor table (edits.map fun edit => (id * config.chunkSize + offset, edit))
        (table.withChunk id dictionaries chunk') := by
  induction edits generalizing table chunk with
  | nil =>
    cases hmakes
    rw [withChunk_self hchunk]
    exact ⟨h.written, .nil⟩
  | cons edit rest ih =>
    cases hmakes with
    | @cons _ ds₁ _ _ chunk₁ _ _ _ hedit hrest =>
    have hvisit := visitAt_of_chunk hchunk hlt cursor edit.visit
    rw [hedit] at hvisit
    obtain ⟨hwritten, hrefused, hfill⟩ := h.edited hplaces hchunk hlive hedit
    have hchunk₁ : (table.withChunk id ds₁ chunk₁).chunks[id]? = some chunk₁ := by
      rw [getElem?_withChunk hchunk, if_pos rfl]
    obtain ⟨hwritten', hcomposes⟩ := ih hwritten.held (by rwa [hwritten.schema_eq]) hchunk₁
      (by rwa [hfill]) hrest
    rw [withChunk_withChunk] at hwritten' hcomposes
    exact ⟨hwritten.trans hwritten', .cons hvisit hrefused hcomposes⟩

/-- The edits of a record, each with its row. -/
def edits (log : List Call) : List (Nat × Edit) :=
  log.flatMap fun call => call.edits.map fun edit => (call.row, edit)

theorem edits_cons (call : Call) (log : List Call) :
    edits (call :: log) = edits [call] ++ edits log := by
  rw [edits, List.flatMap_cons, edits, List.flatMap_singleton]
  rfl

/-- A visit of a live row, and the same with a record of its writes. -/
theorem Held.visitAt_recorded (h : table.Held config) (hplaces : Places table.schema cursor)
    (hpos : 0 < config.chunkSize) {row : Nat} (hlive : table.isLive config row = true)
    (visitor : Visitor σ) (state : σ) (log : List Call) :
    ∃ state' call table', call.row = row ∧
      table.visitAt config cursor row (visitor state row) =
        (some (state', call.outcome), table') ∧
      table.visitAt config cursor row (recorded visitor (state, log) row) =
        (some ((state', log ++ [call]), call.outcome), table') ∧
      Written config table table' ∧ Composes config cursor table (edits [call]) table' := by
  obtain ⟨chunk, hchunk, hfill⟩ : ∃ chunk, table.chunks[row / config.chunkSize]? = some chunk ∧
      chunk.fill.contains (row % config.chunkSize) = true := by
    rw [isLive, Option.any_eq_true] at hlive
    exact hlive
  obtain ⟨made, hrecorded, hmakes⟩ := Cursor.run_recorded (cursor (row % config.chunkSize))
    (visitor state row) [] table.dictionaries chunk
  rw [visitAt, visitAt, hchunk]
  simp only [recorded, Cursor.run_bind, hrecorded]
  generalize (cursor (row % config.chunkSize)).run (visitor state row) table.dictionaries chunk =
    ran at hmakes
  obtain ⟨⟨state', outcome⟩, dictionaries, chunk'⟩ := ran
  obtain ⟨hwritten, hcomposes⟩ := h.composes_of_makes hplaces hchunk
    (Nat.mod_lt row hpos) hfill hmakes
  rw [Nat.div_add_mod'] at hcomposes
  refine ⟨state', ⟨row, made, outcome⟩, _, rfl, rfl, rfl, hwritten, ?_⟩
  rw [edits, List.flatMap_singleton]
  exact hcomposes

/-- A walk through live rows, and the same with a record. -/
theorem Held.walk_recorded (h : table.Held config) (hplaces : Places table.schema cursor)
    (hpos : 0 < config.chunkSize) (visitor : Visitor σ) {rows : List Nat}
    (hlive : ∀ row ∈ rows, table.isLive config row = true) (state : σ) (log : List Call) :
    ∃ state' ended made table',
      walk config cursor visitor rows state table = ((state', ended), table') ∧
      walk config cursor (recorded visitor) rows (state, log) table =
        (((state', log ++ made), ended), table') ∧
      Follows rows made (ended.map fun _ => ()) ∧ Written config table table' ∧
      Composes config cursor table (edits made) table' := by
  induction rows generalizing state log table with
  | nil =>
    refine ⟨state, .ok true, [], table, rfl, ?_, Or.inl ⟨rfl, by simp, rfl⟩, h.written, .nil⟩
    rw [List.append_nil]
    rfl
  | cons row rest ih =>
    rw [List.forall_mem_cons] at hlive
    obtain ⟨state₁, call, table₁, rfl, hvisit, hrecorded, hwritten, hcomposes⟩ :=
      h.visitAt_recorded hplaces hpos hlive.1 visitor state log
    rw [walk, walk, hvisit, hrecorded]
    have hstop : ∀ ended, call.outcome = ended → (ended = .ok false ∨ ∃ e, ended = .error e) →
        Follows (call.row :: rest) [call] (ended.map fun _ => ()) := by
      rintro _ houtcome (rfl | ⟨e, rfl⟩)
      · exact Or.inr ⟨[], call, rest, rfl, rfl, by simp, Or.inl ⟨houtcome, rfl⟩⟩
      · exact Or.inr ⟨[], call, rest, rfl, rfl, by simp, Or.inr ⟨e, houtcome, rfl⟩⟩
    cases houtcome : call.outcome with
    | error e =>
      exact ⟨state₁, .error e, [call], table₁, rfl, rfl, hstop _ houtcome (Or.inr ⟨e, rfl⟩),
        hwritten, hcomposes⟩
    | ok goOn =>
      cases goOn with
      | false =>
        exact ⟨state₁, .ok false, [call], table₁, rfl, rfl, hstop _ houtcome (Or.inl rfl),
          hwritten, hcomposes⟩
      | true =>
        have hlive₁ : ∀ row ∈ rest, table₁.isLive config row = true := by
          rw [hwritten.isLive_eq]
          exact hlive.2
        obtain ⟨state', ended, made, table', hwalk, hlogged, hfollows, hwritten', hcomposes'⟩ :=
          ih hwritten.held (by rwa [hwritten.schema_eq]) hlive₁ state₁ (log ++ [call])
        rw [List.append_assoc] at hlogged
        exact ⟨state', ended, call :: made, table', hwalk, hlogged, hfollows.cons houtcome,
          hwritten.trans hwritten', edits_cons call made ▸ hcomposes.append hcomposes'⟩

end Table

end ColumnStore
