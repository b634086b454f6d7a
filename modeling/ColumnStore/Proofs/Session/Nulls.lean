import ColumnStore.Proofs.Session.Insert
import ColumnStore.Proofs.Session.Passes
import ColumnStore.Proofs.Transaction.Edits

/-!
# No value and `null`

`null` stands for no value, and nothing that is written stores it: a new row has no value where its
record has `null` (`Table.Inserted.nullsFrom`), and a write of `null` takes the value out. So an
operation that is no load makes nowhere a `null` the value of a row (`Session.Holds.step_nulls`),
in the contents of any generation. A load takes the values of a snapshot as they come; in a column
of any values, `null` can be among them.

* `Reachable.kind_of_null`: in no other column can it be, whatever was loaded;
* `Reachable.null_means_absent_iff`: `null` means absent in all states of a run, for those that
  read values and for those that are asked about them, if and only if no load of the run brings it
  along as a value;
* `not_null_means_absent`: a snapshot that is accepted and does.
-/

namespace ColumnStore

/-- Two predicates that may differ at `null` only. -/
def Value.AgreeOffNull (f f' : Value → Bool) : Prop := ∀ v, v ≠ .null → f v = f' v

theorem Value.AgreeOffNull.any_eq {f f' : Value → Bool} (h : AgreeOffNull f f') {v : Option Value}
    (hv : v ≠ some .null) : v.any f = v.any f' := by
  cases v with
  | none => rfl
  | some v => exact h v fun hnull => hv (by rw [hnull])

theorem Value.present?_ne_null (v : Value) : v.present? ≠ some .null := by
  intro h
  cases (present?_eq_some_iff.mp h).2

/-- Of the cells that a dictionary knows, only those of columns of any values can store `null`. -/
theorem Column.kind_of_decode_eq_null {dictionary : Dictionary} {cell : Cell}
    (h : cell.Known dictionary) (hnull : decode dictionary cell = .null) : cell.kind = .any := by
  cases cell with
  | enum id =>
    obtain ⟨s, hs⟩ := Option.isSome_iff_exists.mp (Dictionary.get?_isSome_iff.mpr h)
    simp only [decode, hs] at hnull
    cases hnull
  | any v => rfl
  | _ => cases hnull

/-! ## Filters -/

theorem Segment.filterValue_congr {s : Segment} {dictionary : Dictionary} {f f' : Value → Bool}
    (h : ∀ offset cell, s.cell? offset = some cell →
      f (Column.decode dictionary cell) = f' (Column.decode dictionary cell)) :
    s.filterValue dictionary f = s.filterValue dictionary f' := by
  funext selection
  unfold filterValue
  congr 1
  funext offset
  cases hcell : s.cell? offset with
  | none => rfl
  | some cell => exact h offset cell hcell

theorem Transaction.narrow_congr {t : Transaction} {table : Table}
    {judge judge' : Chunk → Bitmap → Bitmap}
    (h : ∀ (id : Nat) chunk, table.chunks[id]? = some chunk → judge chunk = judge' chunk) :
    t.narrow table judge = t.narrow table judge' := by
  unfold narrow
  congr 2
  funext id bits
  cases hchunk : table.chunks[id]? with
  | none => rfl
  | some chunk => exact congrFun (h id chunk hchunk) bits

/-! ## Tables -/

namespace Table

variable {config : Config} {table table' : Table}

/-- No row has `null` as a value, live or not. -/
def NullFree (config : Config) (table : Table) : Prop :=
  ∀ slot row, table.cellValue? config slot row ≠ some .null

/-- Where a row has `null` as a value now, it had it before. -/
def NullsFrom (config : Config) (table table' : Table) : Prop :=
  ∀ slot row, table'.cellValue? config slot row = some .null →
    table.cellValue? config slot row = some .null

theorem NullsFrom.of_eq (h : ∀ slot row, table'.cellValue? config slot row =
    table.cellValue? config slot row) : NullsFrom config table table' :=
  fun slot row hnull => (h slot row).symm.trans hnull

theorem NullsFrom.refl (config : Config) (table : Table) : NullsFrom config table table :=
  fun _ _ => id

theorem NullsFrom.nullFree (h : NullsFrom config table table') (hfree : table.NullFree config) :
    table'.NullFree config :=
  fun slot row hnull => hfree slot row (h slot row hnull)

theorem stored_ne_null (slot : Nat) (fields : List (Nat × Column × Value)) :
    stored slot fields ≠ some .null := by
  induction fields with
  | nil => nofun
  | cons field rest ih =>
    intro h
    rw [stored, Option.or_eq_some_iff] at h
    rcases h with hrest | ⟨-, hfield⟩
    · exact ih hrest
    · split_ifs at hfield
      exact Value.present?_ne_null _ hfield

/-- A new row has no `null` but what was left in its place. -/
theorem Inserted.nullsFrom {fields : List (Nat × Column × Value)}
    (h : Inserted config fields table table') : NullsFrom config table table' := by
  intro slot row hnull
  rw [h.cellValue?] at hnull
  split_ifs at hnull
  · rw [Option.or_eq_some_iff] at hnull
    exact hnull.elim (fun hstored => absurd hstored (stored_ne_null slot fields)) And.right
  · exact hnull

theorem Removed.nullsFrom {gone : Nat → Bool} (h : Removed config gone table table') :
    NullsFrom config table table' := by
  intro slot row hnull
  rw [h.cellValue?] at hnull
  split_ifs at hnull
  exact hnull

theorem Composes.nullsFrom {cursor : Nat → Cursor} {edits : List (Nat × Edit)}
    (h : Composes config cursor table edits table') (hheld : table.Held config)
    (hplaces : Places table.schema cursor)
    (hlive : ∀ entry ∈ edits, table.isLive config entry.1 = true) :
    NullsFrom config table table' := by
  intro slot row hnull
  rcases h.cellValue?_cases hheld hplaces hlive hnull with hold | ⟨entry, -, hentry⟩
  · exact hold
  · exact absurd hentry (Value.present?_ne_null _)

theorem createColumn_nullsFrom (config : Config) (name : String) (kind : Kind)
    (table : Table) : NullsFrom config table (createColumn name kind table).2 := by
  cases htaken : table.schema.isTaken name with
  | true =>
    rw [createColumn_of_taken htaken]
    exact NullsFrom.refl config table
  | false =>
    rw [createColumn_of_free htaken]
    exact NullsFrom.of_eq (cellValue?_withColumn table _)

theorem WellFormed.createIndex_nullsFrom (h : table.WellFormed config) (name source : String)
    (predicate : Value → Bool) :
    NullsFrom config table (Table.createIndex name source predicate table).2 := by
  cases hreg : registerIndex table.schema name source predicate with
  | error e =>
    rw [createIndex_of_error hreg]
    exact NullsFrom.refl config table
  | ok result =>
    obtain ⟨schema, slot, index⟩ := result
    rw [createIndex_of_ok hreg]
    exact NullsFrom.of_eq (h.cellValue?_withIndex (registers_of_ok h.schema hreg))

theorem WellFormed.insert_nullsFrom (h : table.WellFormed config) (record : Record) :
    NullsFrom config table (Table.insert config record table).2 := by
  cases hfind : (fields table.schema record).find? illTyped with
  | some field =>
    obtain ⟨slot, column, value⟩ := field
    rw [insert_of_illTyped hfind]
    exact NullsFrom.refl config table
  | none =>
    obtain ⟨table', hinsert, -, hinserted⟩ := h.insert hfind
    rw [hinsert]
    exact hinserted.nullsFrom

theorem WellFormed.deleteAt_nullsFrom (h : table.WellFormed config) (row : Nat) :
    NullsFrom config table (Table.deleteAt config row table).2 := by
  rcases Nat.lt_or_ge row table.nextRow with hlt | hle
  · cases hlive : table.isLive config row with
    | false =>
      rw [h.deleteAt_of_not_live hlt hlive]
      exact NullsFrom.refl config table
    | true =>
      obtain ⟨table', hdelete, -, hremoved, -⟩ := h.deleteAt_of_live hlive
      rw [hdelete]
      exact hremoved.nullsFrom
  · rw [h.deleteAt_of_le hle]
    exact NullsFrom.refl config table

/-- Nothing that an operation but a load does to contents makes `null` the value of a row. -/
theorem Changes.nullsFrom (h : Changes config table table') (hheld : table.Held config) :
    NullsFrom config table table' := by
  cases h with
  | none => exact NullsFrom.refl config table
  | createColumn _ name kind => exact createColumn_nullsFrom config name kind table
  | createIndex h name source predicate => exact h.createIndex_nullsFrom name source predicate
  | insert h record => exact h.insert_nullsFrom record
  | deleteAt h row => exact h.deleteAt_nullsFrom row
  | pass hplaces hlive _ hcomposes => exact hcomposes.nullsFrom hheld hplaces hlive
  | removed _ hremoved => exact hremoved.nullsFrom

/-- A value of a row is that of a cell in its chunk. -/
theorem Held.cellValue?_of_chunk (h : table.Held config) {id : Nat} {chunk : Chunk}
    (hchunk : table.chunks[id]? = some chunk) {slot offset : Nat} {cell : Cell}
    (hcell : chunk.cell? slot offset = some cell) :
    table.cellValue? config slot (id * config.chunkSize + offset) =
      some (Column.decode (table.dictionary slot) cell) := by
  rw [cellValue?, cell?_of_chunk hchunk ((h.chunk id chunk hchunk).lt_of_cell? hcell), hcell,
    Option.map_some]

/-- A filter over contents without `null` is not asked about it. -/
theorem Held.filterColumn_congr (h : table.Held config) (hfree : table.NullFree config)
    {f f' : Value → Bool} (hagree : Value.AgreeOffNull f f') {id : Nat} {chunk : Chunk}
    (hchunk : table.chunks[id]? = some chunk) (slot : Nat) :
    (chunk.filterColumn slot fun s => s.filterValue (table.dictionary slot) f) =
      chunk.filterColumn slot fun s => s.filterValue (table.dictionary slot) f' := by
  funext bits
  unfold Chunk.filterColumn
  cases hsegment : chunk.columns[slot]? with
  | none => rfl
  | some segment =>
    refine congrFun (Segment.filterValue_congr fun offset cell hcell => ?_) bits
    have hc : chunk.cell? slot offset = some cell := by
      rw [Chunk.cell?, hsegment, Option.bind_some, hcell]
    have hvalue := h.cellValue?_of_chunk hchunk hc
    exact hagree _ fun hnull => hfree slot _ (hvalue.trans (congrArg some hnull))

/-- Only in columns of any values can rows have `null` as a value. -/
theorem Held.kind_of_null (h : table.Held config) {slot row : Nat}
    (hnull : table.cellValue? config slot row = some .null) :
    ∃ column, table.schema.columns[slot]? = some column ∧ column.kind = .any := by
  obtain ⟨cell, hcell, hvalue⟩ := Option.map_eq_some_iff.mp hnull
  obtain ⟨chunk, hchunk, hc⟩ := Option.bind_eq_some_iff.mp hcell
  obtain ⟨column, hcolumn, hkind⟩ := (h.chunk _ chunk hchunk).kind_of_cell? hc
  exact ⟨column, hcolumn,
    hkind.symm.trans (Column.kind_of_decode_eq_null (h.known hcell) hvalue)⟩

end Table

/-! ## Sessions -/

namespace Session

open Table (NullsFrom)
open Value (AgreeOffNull)

variable {s : Session}

/-- No row of the contents of any generation has `null` as a value. -/
def NullFree (s : Session) : Prop :=
  ∀ generation ≤ s.collection.generation,
    (s.collection.tableOf generation).NullFree s.collection.config

/-- `null` means absent: no row has it as a value, it is neither fetched nor read, and what a
    predicate says of it makes no difference, to an index or to a filter. -/
structure NullMeansAbsent (s : Session) : Prop where
  nullFree : s.NullFree
  fetch : ∀ row fields, s.collection.fetch row = some fields → ∀ name, (name, .null) ∉ fields
  valueAt : ∀ name row, s.collection.valueAt name row ≠ .ok (some .null)
  index : ∀ (slot : Nat) index predicate,
    s.collection.table.schema.indexes[slot]? = some index → index.predicate = some predicate →
    ∀ predicate', AgreeOffNull predicate predicate' → ∀ row,
      s.collection.table.marks s.collection.config slot row =
        (s.collection.table.cellValue? s.collection.config index.sourceSlot row).any predicate'
  filter : ∀ id name f f', AgreeOffNull f f' →
    s.step (.filter id (.whereValue name f)) = s.step (.filter id (.whereValue name f'))

theorem NullFree.present (h : s.NullFree) : s.collection.table.NullFree s.collection.config := by
  have := h s.collection.generation le_rfl
  rwa [Collection.tableOf_generation] at this

/-- A collection without contents has no `null`. -/
theorem nullFree_start (config : Config) : (start (.build config)).NullFree :=
  fun _ _ _ _ => nofun

/-- Filters of transactions on contents without `null` are never asked about it. -/
theorem NullFree.whereValue_eq (h : s.NullFree) (hholds : s.Holds) (hwf : s.WellFormed)
    {t : Transaction} (ht : t ∈ s.transactions) (name : String) {f f' : Value → Bool}
    (hagree : AgreeOffNull f f') :
    t.whereValue s.collection name f = t.whereValue s.collection name f' := by
  have hgen := hwf.generation_le t ht
  have hfree : (t.table s.collection).NullFree s.collection.config := h t.generation hgen
  have hheld : (t.table s.collection).Held s.collection.config := hholds.held t.generation hgen
  cases hcolumn : t.column name with
  | error e =>
    simp only [Transaction.whereValue, hcolumn]
    show (Except.error e : Except Error Transaction) = .error e
    rfl
  | ok found =>
    have hnarrow := Transaction.narrow_congr (t := t) fun id chunk hchunk =>
      hheld.filterColumn_congr hfree hagree hchunk found.1
    simp only [Transaction.whereValue, hcolumn]
    exact congrArg Except.ok hnarrow

theorem NullFree.nullMeansAbsent (h : s.NullFree) (hs : Reachable s) : s.NullMeansAbsent where
  nullFree := h
  fetch row fields hfields name hmem := by
    have hfetch : s.collection.table.fetch s.collection.config row = some fields := hfields
    rw [hs.wellFormed.table.fetch_eq] at hfetch
    split_ifs at hfetch
    cases hfetch
    obtain ⟨⟨column, slot⟩, -, hfield⟩ := List.mem_filterMap.mp hmem
    obtain ⟨v, hv, heq⟩ := Option.map_eq_some_iff.mp hfield
    cases heq
    exact h.present slot row hv
  valueAt name row hvalue := by
    have hread : s.collection.table.valueAt s.collection.config name row =
        .ok (some .null) := hvalue
    rw [hs.wellFormed.table.valueAt_eq] at hread
    cases hcolumn : s.collection.table.schema.column? name with
    | none =>
      rw [hcolumn] at hread
      cases hread
    | some found =>
      simp only [hcolumn] at hread
      split_ifs at hread
      rw [Except.ok.injEq, Table.read?] at hread
      split_ifs at hread
      exact h.present _ row hread
  index slot index predicate hindex hpredicate predicate' hagree row := by
    rw [hs.wellFormed.table.marks_eq hindex hpredicate]
    exact hagree.any_eq (h.present _ row)
  filter id name f f' hagree := by
    cases ht : s.transactions[id]? with
    | none => rw [step_filter_of_missing ht, step_filter_of_missing ht]
    | some t =>
      have hsame : Transaction.refine s.collection t (.whereValue name f) =
          Transaction.refine s.collection t (.whereValue name f') := congrArg (·.toOption.getD t)
        (h.whereValue_eq hs.holds hs.wellFormed (Array.mem_of_getElem? ht) name hagree)
      rw [step_filter ht, step_filter ht, hsame]
      rfl

/-- An operation that is no load makes nowhere a `null` the value of a row. -/
theorem Holds.step_nulls (hholds : s.Holds) (h : s.WellFormed) {op : Op} (hop : op.isLoad = false)
    {generation : Nat} (hgen : generation ≤ s.collection.generation) :
    NullsFrom s.collection.config (s.collection.tableOf generation)
      ((s.step op).2.collection.tableOf generation) := by
  obtain ⟨changed, hchanged, table, hset, hchanges⟩ := hholds.step_setTable h hop
  rw [hset, Collection.tableOf_setTable hchanged hgen]
  split_ifs with heq
  · exact heq ▸ hchanges.nullsFrom (hholds.held changed hchanged)
  · exact NullsFrom.refl _ _

/-- A load that is accepted and brings contents in which `null` is the value of a row, in a column
    of any values. -/
inductive BringsNull (s : Session) : Op → Prop
  | load {source : Source} (haccepted : (s.step (.load source)).1 = .ok ()) {slot row : Nat}
    {column : Column}
    (hcolumn : (s.step (.load source)).2.collection.table.schema.columns[slot]? = some column)
    (hkind : column.kind = .any)
    (hnull : (s.step (.load source)).2.collection.table.cellValue? s.collection.config slot row =
      some .null) : BringsNull s (.load source)

/-- Loaded contents come to those there were. -/
theorem NullFree.replaceTable_iff (h : s.NullFree) (table : Table) :
    ({ s with collection := s.collection.replaceTable table } : Session).NullFree ↔
      table.NullFree s.collection.config := by
  refine ⟨NullFree.present, fun hfree generation hgen => ?_⟩
  have hle : generation ≤ s.collection.generation + 1 := hgen.trans_eq (Array.size_push ..)
  show ((s.collection.replaceTable table).tableOf generation).NullFree s.collection.config
  rw [Collection.tableOf_replaceTable hle]
  split_ifs with hold
  · exact h generation hold
  · exact hfree

/-- After an operation there is no `null`, if there was none, except that a load brings it. -/
theorem NullFree.step_iff (h : s.NullFree) (hs : Reachable s) (op : Op) :
    (s.step op).2.NullFree ↔ ¬s.BringsNull op := by
  cases hop : op.isLoad with
  | false =>
    have hsteps := hs.wellFormed.step_steps hop
    have hnot : ¬s.BringsNull op := by
      rintro ⟨⟩
      cases hop
    refine iff_of_true (fun generation hgen => ?_) hnot
    rw [hsteps.generation] at hgen
    rw [hsteps.config]
    exact (hs.holds.step_nulls hs.wellFormed hop hgen).nullFree (h generation hgen)
  | true =>
    cases op with
    | load source =>
      rcases s.collection.load_outcome source with ⟨e, hload⟩ | ⟨table, -, hload⟩
      · have hstep : s.step (.load source) = (.error e, s) := by rw [Session.step, hload]
        refine iff_of_true (by rwa [hstep]) ?_
        rintro ⟨haccepted⟩
        rw [hstep] at haccepted
        cases haccepted
      · have hstep : s.step (.load source) =
            (.ok (), { s with collection := s.collection.replaceTable table }) := by
          rw [Session.step, hload]
        have hheld : table.Held s.collection.config := by
          have := (hs.step (.load source)).wellFormed.table.held
          rwa [hstep] at this
        rw [hstep, h.replaceTable_iff table]
        constructor
        · rintro hfree ⟨-, -, -, hnull⟩
          rw [hstep] at hnull
          exact hfree _ _ hnull
        · intro hnot slot row hnull
          obtain ⟨column, hcolumn, hkind⟩ := hheld.kind_of_null hnull
          have hbrings : s.BringsNull (.load source) :=
            .load (by rw [hstep]) (by rw [hstep]; exact hcolumn) hkind (by rw [hstep]; exact hnull)
          exact hnot hbrings
    | _ => cases hop

/-- All states of a run are free of `null` exactly if no load of it brings one. -/
theorem NullFree.run_iff (h : s.NullFree) (hs : Reachable s) (ops : List Op) :
    (∀ before, before <+: ops → (s.run before).NullFree) ↔
      ∀ before op after, ops = before ++ op :: after → ¬(s.run before).BringsNull op := by
  induction ops generalizing s with
  | nil => simp [List.prefix_nil, Session.run, h]
  | cons op rest ih =>
    rw [forall_prefix_cons, forall_split_cons]
    simp only [run_cons]
    constructor
    · rintro ⟨-, hrest⟩
      have hstep : (s.step op).2.NullFree := hrest [] List.nil_prefix
      exact ⟨(h.step_iff hs op).mp hstep, (ih hstep (hs.step op)).mp hrest⟩
    · rintro ⟨hop, hrest⟩
      have hstep := (h.step_iff hs op).mpr hop
      exact ⟨h, (ih hstep (hs.step op)).mpr hrest⟩

end Session

/-- Only in columns of any values can `null` be, in the contents of every generation. -/
theorem Reachable.kind_of_null {s : Session} (h : Reachable s) {generation : Nat}
    (hgen : generation ≤ s.collection.generation) {slot row : Nat}
    (hnull : (s.collection.tableOf generation).cellValue? s.collection.config slot row =
      some .null) :
    ∃ column, (s.collection.tableOf generation).schema.columns[slot]? = some column ∧
      column.kind = .any :=
  (h.holds.held generation hgen).kind_of_null hnull

/-- In a run that starts without `null`, `null` means absent in every state, unless an accepted load
    brings it as a value of a column of any values, and then it does not. -/
theorem Reachable.null_means_absent_iff {s : Session} (h : Reachable s) (hfree : s.NullFree)
    (ops : List Op) :
    (∀ before, before <+: ops → (s.run before).NullMeansAbsent) ↔
      ∀ before op after, ops = before ++ op :: after → ¬(s.run before).BringsNull op := by
  rw [← hfree.run_iff h ops]
  exact forall₂_congr fun before _ =>
    ⟨Session.NullMeansAbsent.nullFree, fun hbefore => hbefore.nullMeansAbsent (h.run before)⟩

theorem columns_load_flags : ((Session.start (.new 2)).step
    (.load ⟨Session.flags.collection.snapshot, none⟩)).2.collection.table.schema.columns =
      #[⟨"flag", .bool⟩] := by
  cbv

/-- Flags are loaded and a row without one is inserted: none is read as `null`. -/
theorem null_means_absent_flags : ((Session.start (.new 2)).run
    [.load ⟨Session.flags.collection.snapshot, none⟩,
      .insert [("flag", .null)]]).NullMeansAbsent := by
  have hiff := (Reachable.new 2).null_means_absent_iff (Session.nullFree_start _)
    [.load ⟨Session.flags.collection.snapshot, none⟩, .insert [("flag", .null)]]
  refine hiff.mpr ?_ _ (List.prefix_refl _)
  rw [Session.forall_split_cons, Session.forall_split_cons]
  refine ⟨?_, nofun, by simp⟩
  rintro ⟨-, hcolumn, hkind, -⟩
  -- the only column that is loaded is one of truth values
  have hmem := Array.mem_of_getElem? hcolumn
  rw [Session.run, List.foldl_nil, columns_load_flags, List.mem_toArray,
    List.mem_singleton] at hmem
  rw [hmem] at hkind
  cases hkind

/-! ## What a snapshot can bring -/

/-- The snapshot of one live row, in which a column of any values has `null` as its value: after
    the magic, the version and the sizes come the column with its name, kind and segment, the
    segment with the value and its length, then no index, the row watermark, the number of live
    rows, and their bitmap. -/
def Snapshot.nullValue : Bytes :=
  [0x4b, 0x4c, 0x53, 0x4e, 1, 0, 64, 0, 0, 0, 1, 0, 0, 0,
    1, 0, 0, 0, 1, 0, 0, 0, 0x78, 3,
    3, 64, 0, 0, 0, 1, 0, 0, 0, 1, 0, 0, 0, 0, 0, 0, 0, 4, 0, 0, 0, 0, 0, 0, 0,
    0, 0, 0, 0,
    1, 0, 0, 0, 0, 0, 0, 0, 1, 0, 0, 0, 0, 0, 0, 0, 1, 0, 0, 0, 1, 0, 0, 0, 0, 0, 0, 0]

/-- A collection that was loaded with it. -/
def Session.nullValue : Session :=
  (start (.build ⟨0, 64, none⟩)).run [.load ⟨Snapshot.nullValue, none⟩]

section Evaluated

-- every reader of the snapshot goes on inside the one before
set_option maxRecDepth 2000

theorem fetch_nullValue : Session.nullValue.collection.fetch 0 = some [("x", .null)] := by
  cbv

theorem valueAt_nullValue : Session.nullValue.collection.valueAt "x" 0 = .ok (some .null) := by
  cbv

theorem selected_nullValue : (Session.nullValue.collection.createIndex "nulls" "x"
    Value.isNull).2.selected "nulls" = .ok [0] := by
  cbv

end Evaluated

/-- The snapshot is accepted; the row is fetched and read with `null`, and a predicate that accepts
    nothing else is asked about it. -/
theorem not_null_means_absent :
    Session.nullValue.collection.generation = 1 ∧
      Session.nullValue.collection.fetch 0 = some [("x", .null)] ∧
      Session.nullValue.collection.valueAt "x" 0 = .ok (some .null) ∧
      (Session.nullValue.collection.createIndex "nulls" "x" Value.isNull).2.selected "nulls" =
        .ok [0] ∧
      ¬Session.nullValue.NullMeansAbsent := by
  refine ⟨by decide +kernel, fetch_nullValue, valueAt_nullValue, selected_nullValue, fun h => ?_⟩
  exact h.fetch 0 _ fetch_nullValue "x" (by simp)

end ColumnStore
