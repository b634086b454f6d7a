import ColumnStore.Proofs.Session.Tombstones
import ColumnStore.Proofs.Sheet.Rows
import ColumnStore.Proofs.Transaction.Edits

/-!
# Indexes without a predicate

An index that a load brings along without a predicate cannot be asked about a row. It keeps the rows
it came with, but for those that are deleted and those whose source is written
(`Session.Overwrites`): an insertion in the row's place that gives the source a value, or an
accepted write of a pass, be it of `null` or of the value that was there. Nothing else takes a row
out, and nothing brings one in.

* `Session.WellFormed.marks_step`: what one operation does to the bit of a row;
* `Session.WellFormed.marks_run`: what a run does, by induction on its operations;
* `Reachable.detached_index_marks_iff`: the same for the runs that follow a load.
-/

namespace ColumnStore

/-! ## Insertions -/

/-- A record leaves a name without a value if every field of the name is `null`. -/
theorem Record.last?_eq_none_iff {name : String} {record : Record} :
    record.last? name = none ↔ ∀ v, (name, v) ∈ record → v = .null := by
  induction record with
  | nil => simp [last?]
  | cons field rest ih =>
    obtain ⟨other, value⟩ := field
    have hnull : value.present? = none ↔ value = .null := by
      cases value <;> simp [Value.present?]
    rw [last?, Option.or_eq_none_iff, ih]
    by_cases hname : other = name
    · subst hname
      simp only [if_true, hnull, List.mem_cons, Prod.mk.injEq, true_and]
      exact ⟨fun h v hv => hv.elim (fun heq => heq.trans h.2) (h.1 v),
        fun h => ⟨fun v hv => h v (Or.inr hv), h value (Or.inl rfl)⟩⟩
    · simp [hname, Ne.symm hname]

/-- The source of an index is a column of its name in its slot. -/
theorem Schema.WellFormed.column?_source {schema : Schema} (h : schema.WellFormed) {slot : Nat}
    {index : Index} (hindex : schema.indexes[slot]? = some index) :
    ∃ column, schema.column? index.source = some (index.sourceSlot, column) := by
  obtain ⟨column, hcolumn, hname⟩ := h.source index (Array.mem_of_getElem? hindex)
  exact ⟨column, h.column?_eq_some_iff.mpr ⟨hcolumn, hname⟩⟩

/-- An index that grows and has no predicate then is the one it was. -/
theorem Index.Grows.eq_of_detached {old new : Index} (h : old.Grows new)
    (hdetached : new.predicate = none) : new = old := by
  rcases h with rfl | ⟨-, predicate, rfl⟩
  · rfl
  · cases hdetached

namespace Table

variable {config : Config} {table : Table} {slot : Nat} {index : Index}

/-- An insertion takes the row it fills out of a detached index if it gives the source a value. -/
theorem WellFormed.marks_insert (h : table.WellFormed config)
    (hindex : table.schema.indexes[slot]? = some index) (hdetached : index.predicate = none)
    (record : Record) (row : Nat) :
    (Table.insert config record table).2.marks config slot row = true ↔
      table.marks config slot row = true ∧
        ¬((Table.insert config record table).1 = .ok row ∧
          ∃ v, (index.source, v) ∈ record ∧ v ≠ .null) := by
  cases hfind : (fields table.schema record).find? illTyped with
  | some field =>
    obtain ⟨other, column, value⟩ := field
    simp [insert_of_illTyped hfind]
  | none =>
    obtain ⟨table', hinsert, -, hins⟩ := h.insert hfind
    obtain ⟨column, hcolumn⟩ := h.schema.column?_source hindex
    rw [hinsert]
    by_cases hrow : row = table.nextRow
    · have hnone : (record.last? index.source).isNone = true ↔
          ¬∃ v, (index.source, v) ∈ record ∧ v ≠ .null := by
        rw [Option.isNone_iff_eq_none, Record.last?_eq_none_iff]
        simp only [not_exists, not_and, not_not]
      rw [hrow, hins.marks_detached slot index hindex hdetached, stored_fields hcolumn,
        Bool.and_eq_true, hnone]
      simp
    · rw [hins.marks slot row hrow]
      simp [Ne.symm hrow]

end Table

/-! ## Passes -/

namespace Transaction

variable {c : Collection} {t : Transaction} {slot : Nat} {column : Column} {name : String}

/-- A pass on the present contents resolves every name by their schema. -/
theorem target?_passCursor (hschema : c.table.schema.WellFormed)
    (hgen : t.generation = c.generation) (hext : t.schema.Extends c.table.schema)
    (hcolumn : t.schema.column? name = some (slot, column)) (edit : Edit) (offset : Nat) :
    (t.passCursor c slot column offset).target? edit =
      c.table.schema.column? (edit.column.getD name) := by
  obtain ⟨written, value, answer⟩ := edit
  cases written with
  | none => exact (hext.column? hschema hcolumn).symm
  | some other =>
    show (t.passSchema c).column? other = _
    rw [passSchema, if_pos hgen]
    rfl

/-- A write of such a pass is to the source of an index if it names the source. -/
theorem sets_passCursor_iff (hschema : c.table.schema.WellFormed)
    (hgen : t.generation = c.generation) (hext : t.schema.Extends c.table.schema)
    (hcolumn : t.schema.column? name = some (slot, column)) {i : Nat} {index : Index}
    (hindex : c.table.schema.indexes[i]? = some index) (edit : Edit) (offset : Nat) :
    (t.passCursor c slot column offset).Sets index.sourceSlot edit ↔
      edit.answer = .ok () ∧ edit.column.getD name = index.source := by
  obtain ⟨source, hsource⟩ := hschema.column?_source hindex
  rw [Cursor.Sets, target?_passCursor hschema hgen hext hcolumn]
  refine and_congr_right fun _ => ⟨fun ⟨found, hfound⟩ => ?_, fun heq => ⟨source, heq ▸ hsource⟩⟩
  obtain ⟨hget, hname⟩ := Schema.exists_of_column? hfound
  obtain ⟨hget', hname'⟩ := Schema.exists_of_column? hsource
  rw [hget', Option.some.injEq] at hget
  rw [← hname, ← hname', hget]

/-- A pass over retired contents leaves the present ones alone. -/
theorem table_pass_of_lt {σ : Type} (hlt : t.generation < c.generation) (name : String)
    (visitor : Visitor σ) (state : σ) : (t.pass c name visitor state).2.2.table = c.table := by
  unfold pass
  cases t.column name with
  | error e => rfl
  | ok found => exact (c.changeTable_of_lt hlt _).2.1

end Transaction

/-! ## Operations -/

namespace Session

open Transaction (recorded)

variable {s : Session} {slot row : Nat} {index : Index}

/-- An operation that writes the column of a name for a row: an insertion that fills the row with a
    record that has a value for the name, or a pass of a transaction on the present contents that
    makes an accepted write to the column at the row. -/
inductive Overwrites (s : Session) (source : String) (row : Nat) : Op → Prop
  | insert {record : Record} {v : Value} (h : (s.step (.insert record)).1 = Except.ok row)
    (hfield : (source, v) ∈ record) (hvalue : v ≠ .null) : Overwrites s source row (.insert record)
  | pass {id : Nat} {t : Transaction} (ht : s.transactions[id]? = some t)
    (hgen : t.generation = s.collection.generation) {σ : Type} {name : String}
    {visitor : Transaction.Visitor σ} {state state' : σ} {log : List Call}
    {ended : Except Error Unit}
    (hrun : (s.step (.pass id name (recorded visitor) (state, []))).1 =
      some ((state', log), ended))
    {edit : Edit} (hedit : (row, edit) ∈ Table.edits log) (hanswer : edit.answer = .ok ())
    (hcolumn : edit.column.getD name = source) :
    Overwrites s source row (.pass id name visitor state)

/-- Whether a pass writes a column for a row is read in the record it leaves. -/
theorem overwrites_pass_iff {source : String} {id : Nat} {t : Transaction}
    (ht : s.transactions[id]? = some t) {σ : Type} {name : String}
    {visitor : Transaction.Visitor σ} {state state' : σ} {log : List Call}
    {ended : Except Error Unit}
    (hrun : (s.step (.pass id name (recorded visitor) (state, []))).1 =
      some ((state', log), ended)) :
    s.Overwrites source row (.pass id name visitor state) ↔
      t.generation = s.collection.generation ∧
        ∃ edit, (row, edit) ∈ Table.edits log ∧ edit.answer = .ok () ∧
          edit.column.getD name = source := by
  constructor
  · intro hover
    cases hover with
    | pass hfound hgen hrun' hedit hanswer hcolumn =>
      rw [ht] at hfound
      cases hfound
      rw [hrun] at hrun'
      cases hrun'
      exact ⟨hgen, _, hedit, hanswer, hcolumn⟩
  · rintro ⟨hgen, edit, hedit, hanswer, hcolumn⟩
    exact .pass ht hgen hrun hedit hanswer hcolumn

/-- A pass on the present contents takes a row out of a detached index by writing its source. -/
theorem WellFormed.marks_pass_of_current (h : s.WellFormed)
    (hindex : s.collection.table.schema.indexes[slot]? = some index)
    (hdetached : index.predicate = none) {id : Nat} {t : Transaction}
    (ht : s.transactions[id]? = some t) (hgen : t.generation = s.collection.generation)
    {name : String} {passSlot : Nat} {column : Column}
    (hcolumn : t.schema.column? name = some (passSlot, column)) {σ : Type}
    (visitor : Transaction.Visitor σ) (state : σ) :
    (s.step (.pass id name visitor state)).2.collection.table.marks s.collection.config slot row =
        true ↔
      s.collection.table.marks s.collection.config slot row = true ∧
        ¬s.Overwrites index.source row (.pass id name visitor state) := by
  have hopen := h.current t (Array.mem_of_getElem? ht) hgen
  have htable := Transaction.table_of_current hgen
  have hwithin : t.Within s.collection.config (t.table s.collection) := htable ▸ hopen.within
  obtain ⟨state', ended, log, table', hpass, hrecorded, hfollows, -, hcomposes⟩ :=
    Transaction.pass_recorded (htable ▸ h.table.held) hwithin h.table.chunkSize_pos hcolumn
      visitor state
  have hplaces := Transaction.places_passCursor hwithin hcolumn
  have hlive := Transaction.isLive_of_mem_edits hfollows
  rw [htable] at hcomposes hplaces hlive
  have hafter : (s.step (.pass id name visitor state)).2.collection.table = table' := by
    simp only [Session.step, ht, hpass]
    rw [hgen, Collection.setTable_of_le le_rfl]
  have hrun : (s.step (.pass id name (recorded visitor) (state, []))).1 =
      some ((state', log), ended) := by
    simp only [Session.step, ht, hrecorded]
    rfl
  have hknown : ∀ offset,
      (t.passCursor s.collection passSlot column offset).schema.indexes[slot]? = some index := by
    intro offset
    show (t.passSchema s.collection).indexes[slot]? = some index
    rw [Transaction.passSchema, if_pos hgen, hindex]
  rw [hafter, hcomposes.marks_detached h.table.held hplaces hlive hknown hdetached,
    overwrites_pass_iff ht hrun]
  simp only [Transaction.sets_passCursor_iff h.table.schema hgen hopen.extends_ hcolumn hindex,
    hgen, true_and, not_exists, not_and]

theorem WellFormed.marks_pass (h : s.WellFormed)
    (hindex : s.collection.table.schema.indexes[slot]? = some index)
    (hdetached : index.predicate = none) {σ : Type} (id : Nat) (name : String)
    (visitor : Transaction.Visitor σ) (state : σ) :
    (s.step (.pass id name visitor state)).2.collection.table.marks s.collection.config slot row =
        true ↔
      s.collection.table.marks s.collection.config slot row = true ∧
        ¬s.Overwrites index.source row (.pass id name visitor state) := by
  -- a pass that comes to no row of the present contents leaves them alone
  have hidle (htable : (s.step (.pass id name visitor state)).2.collection.table =
        s.collection.table)
      (hnot : ¬s.Overwrites index.source row (.pass id name visitor state)) :
      (s.step (.pass id name visitor state)).2.collection.table.marks s.collection.config slot
          row = true ↔
        s.collection.table.marks s.collection.config slot row = true ∧
          ¬s.Overwrites index.source row (.pass id name visitor state) := by
    rw [htable]
    simp only [hnot, not_false_eq_true, and_true]
  cases ht : s.transactions[id]? with
  | none =>
    refine hidle (by rw [Session.step, ht]) fun hover => ?_
    cases hover with
    | pass hfound =>
      rw [ht] at hfound
      cases hfound
  | some t =>
    by_cases hgen : t.generation = s.collection.generation
    · cases hcolumn : t.schema.column? name with
      | none =>
        have hpass {τ : Type} (visitor : Transaction.Visitor τ) (state : τ) :
            t.pass s.collection name visitor state =
              (state, .error (.unknownSelector name), s.collection) := by
          rw [Transaction.pass, Transaction.column, hcolumn]
        have hrun : (s.step (.pass id name (recorded visitor) (state, []))).1 =
            some ((state, []), .error (.unknownSelector name)) := by
          simp only [Session.step, ht, hpass]
          rfl
        refine hidle (by simp only [Session.step, ht, hpass]) fun hover => ?_
        obtain ⟨-, edit, hedit, -⟩ := (overwrites_pass_iff ht hrun).mp hover
        cases hedit
      | some found => exact h.marks_pass_of_current hindex hdetached ht hgen hcolumn visitor state
    · have hlt := lt_of_le_of_ne (h.generation_le t (Array.mem_of_getElem? ht)) hgen
      refine hidle ?_ fun hover => ?_
      · simp only [Session.step, ht]
        exact Transaction.table_pass_of_lt hlt name visitor state
      · cases hover with
        | pass hfound hcurrent =>
          rw [ht] at hfound
          cases hfound
          exact hgen hcurrent

/-- A deletion takes the rows it deletes out of every index. -/
theorem WellFormed.marks_deleteAt (h : s.WellFormed) (other : Nat) :
    (s.step (.deleteAt other)).2.collection.table.marks s.collection.config slot row = true ↔
      s.collection.table.marks s.collection.config slot row = true ∧
        ¬s.Deletes row (.deleteAt other) := by
  have hdeletes : s.Deletes row (.deleteAt other) ↔ other = row ∧
      (Table.deleteAt s.collection.config other s.collection.table).1 = .ok true := by
    constructor
    · intro hdelete
      cases hdelete with
      | deleteAt hanswer => exact ⟨rfl, hanswer⟩
    · rintro ⟨rfl, hanswer⟩
      exact .deleteAt hanswer
  rw [hdeletes]
  show (Table.deleteAt s.collection.config other s.collection.table).2.marks _ _ _ = true ↔ _
  rcases Nat.lt_or_ge other s.collection.table.nextRow with hlt | hle
  · cases hlive : s.collection.table.isLive s.collection.config other with
    | false =>
      rw [h.table.deleteAt_of_not_live hlt hlive]
      simp
    | true =>
      obtain ⟨table', hdelete, -, hremoved, -⟩ := h.table.deleteAt_of_live hlive
      rw [hdelete, hremoved.marks]
      simp only [Bool.and_eq_true, Bool.not_eq_true', decide_eq_false_iff_not, and_true,
        @eq_comm _ row other]
  · rw [h.table.deleteAt_of_le hle]
    simp

theorem WellFormed.marks_deleteAll (h : s.WellFormed) (id : Nat) :
    (s.step (.deleteAll id)).2.collection.table.marks s.collection.config slot row = true ↔
      s.collection.table.marks s.collection.config slot row = true ∧
        ¬s.Deletes row (.deleteAll id) := by
  have hdeletes : s.Deletes row (.deleteAll id) ↔ ∃ t, s.transactions[id]? = some t ∧
      t.generation = s.collection.generation ∧ row ∈ t.rows s.collection := by
    constructor
    · intro hdelete
      cases hdelete with
      | deleteAll ht hgen hrow => exact ⟨_, ht, hgen, hrow⟩
    · rintro ⟨t, ht, hgen, hrow⟩
      exact .deleteAll ht hgen hrow
  rw [hdeletes]
  cases ht : s.transactions[id]? with
  | none =>
    simp only [Session.step, ht]
    simp
  | some t =>
    have hmem := Array.mem_of_getElem? ht
    rcases Nat.lt_or_eq_of_le (h.generation_le t hmem) with hlt | hgen
    · have htable : (t.deleteAll s.collection).2.2.table = s.collection.table := by
        unfold Transaction.deleteAll
        exact (s.collection.changeTable_of_lt hlt _).2.1
      simp only [Session.step, ht, htable]
      simp [hlt.ne]
    · have hopen := h.current t hmem hgen
      obtain ⟨-, hremoved, -⟩ := h.table.deleteFrom t.selection.toList 0
      simp only [Session.step, ht, Transaction.deleteAll_of_current hgen]
      rw [hremoved.marks, Bool.and_eq_true]
      have hselected : row ∈ t.rows s.collection ↔
          Selection.selects s.collection.config.chunkSize t.selection.toList 0 row = true := by
        rw [Transaction.rows_eq, Selection.mem_rowsFrom hopen.bounded]
      refine and_congr_right fun hmark => ?_
      simp only [Option.some.injEq, exists_eq_left', hgen, true_and, hselected]
      cases hselects : Selection.selects s.collection.config.chunkSize t.selection.toList 0 row with
      | false => simp
      | true =>
        -- a selected row that is gone has no bit left
        rcases (hopen.settled row hselects).cases with hlive | hvacant
        · simp [hlive]
        · rw [hvacant.marks] at hmark
          cases hmark

/-- What an operation does to the bit of a row in an index that is detached before and after it. -/
theorem WellFormed.marks_step (h : s.WellFormed)
    (hindex : s.collection.table.schema.indexes[slot]? = some index)
    (hdetached : index.predicate = none) {op : Op} (hop : op.isLoad = false)
    (hafter : (s.step op).2.collection.table.schema.indexes[slot]? = some index) :
    (s.step op).2.collection.table.marks s.collection.config slot row = true ↔
      s.collection.table.marks s.collection.config slot row = true ∧
        ¬s.Deletes row op ∧ ¬s.Overwrites index.source row op := by
  have hidle (hmarks : (s.step op).2.collection.table.marks s.collection.config slot row =
        s.collection.table.marks s.collection.config slot row)
      (hdelete : ¬s.Deletes row op) (hover : ¬s.Overwrites index.source row op) :
      (s.step op).2.collection.table.marks s.collection.config slot row = true ↔
        s.collection.table.marks s.collection.config slot row = true ∧
          ¬s.Deletes row op ∧ ¬s.Overwrites index.source row op := by
    rw [hmarks]
    simp only [hdelete, hover, not_false_eq_true, and_self, and_true]
  cases op with
  | load source => cases hop
  | createColumn name kind =>
    refine hidle ?_ nofun nofun
    show (Table.createColumn name kind s.collection.table).2.marks _ _ _ = _
    cases htaken : s.collection.table.schema.isTaken name with
    | true => rw [Table.createColumn_of_taken htaken]
    | false =>
      rw [Table.createColumn_of_free htaken]
      rfl
  | createIndex name source predicate =>
    refine hidle ?_ nofun nofun
    show (Table.createIndex name source predicate s.collection.table).2.marks _ _ _ = _
    have hkept : (Table.createIndex name source predicate
        s.collection.table).2.schema.indexes[slot]? = some index := hafter
    cases hreg : Table.registerIndex s.collection.table.schema name source predicate with
    | error e => rw [Table.createIndex_of_error hreg]
    | ok result =>
      obtain ⟨schema', slot', index'⟩ := result
      have hregisters := Table.registers_of_ok h.table.schema hreg
      rw [Table.createIndex_of_ok hreg] at hkept ⊢
      have hne : slot ≠ slot' := by
        rintro rfl
        have hsame : some index' = some index := hregisters.registered.symm.trans hkept
        have hattached := hregisters.predicate_eq
        rw [Option.some.inj hsame, hdetached] at hattached
        cases hattached
      exact h.table.marks_withIndex hregisters hne row
  | insert record =>
    have hinsert := h.table.marks_insert hindex hdetached record row
    have hover : s.Overwrites index.source row (.insert record) ↔
        (Table.insert s.collection.config record s.collection.table).1 = .ok row ∧
          ∃ v, (index.source, v) ∈ record ∧ v ≠ .null := by
      constructor
      · intro hover
        cases hover with
        | insert hanswer hfield hvalue => exact ⟨hanswer, _, hfield, hvalue⟩
      · rintro ⟨hanswer, v, hfield, hvalue⟩
        exact .insert hanswer hfield hvalue
    have hdelete : ¬s.Deletes row (.insert record) := nofun
    rw [hover]
    simp only [hdelete, not_false_eq_true, true_and]
    exact hinsert
  | deleteAt other =>
    have hover : ¬s.Overwrites index.source row (.deleteAt other) := nofun
    rw [h.marks_deleteAt other]
    simp only [hover, not_false_eq_true, and_true]
  | begin => exact hidle rfl nofun nofun
  | filter id filter =>
    refine hidle ?_ nofun nofun
    cases ht : s.transactions[id]? with
    | none => rw [step_filter_of_missing ht]
    | some t => rw [step_filter ht]
  | pass id name visitor state =>
    have hdelete : ¬s.Deletes row (.pass id name visitor state) := nofun
    rw [h.marks_pass hindex hdetached id name visitor state]
    simp only [hdelete, not_false_eq_true, true_and]
  | deleteAll id =>
    have hover : ¬s.Overwrites index.source row (.deleteAll id) := nofun
    rw [h.marks_deleteAll id]
    simp only [hover, not_false_eq_true, and_true]

/-! ## Runs -/

/-- Operations that are no loads keep columns and indexes in their slots. -/
theorem WellFormed.run_extends (h : s.WellFormed) {ops : List Op}
    (hops : ∀ op ∈ ops, op.isLoad = false) :
    s.collection.table.schema.Extends (s.run ops).collection.table.schema := by
  induction ops generalizing s with
  | nil => exact Schema.Extends.refl _
  | cons op rest ih =>
    rw [List.forall_mem_cons] at hops
    exact (h.step_steps hops.1).table.advances.extends_.trans (ih (h.step op) hops.2)

/-- The bit of a row in an index that is detached at the end of a run. -/
theorem WellFormed.marks_run (h : s.WellFormed)
    (hindex : s.collection.table.schema.indexes[slot]? = some index)
    (hdetached : index.predicate = none) {ops : List Op} (hops : ∀ op ∈ ops, op.isLoad = false)
    (hend : (s.run ops).collection.table.schema.indexes[slot]? = some index) :
    (s.run ops).collection.table.marks s.collection.config slot row = true ↔
      s.collection.table.marks s.collection.config slot row = true ∧
        ∀ before op after, ops = before ++ op :: after →
          ¬(s.run before).Deletes row op ∧ ¬(s.run before).Overwrites index.source row op := by
  induction ops generalizing s with
  | nil => simp [Session.run]
  | cons op rest ih =>
    rw [List.forall_mem_cons] at hops
    have hsteps := h.step_steps hops.1
    have hwf := h.step op
    -- it is detached in between, since an index that gets a predicate keeps it
    have hbetween : (s.step op).2.collection.table.schema.indexes[slot]? = some index := by
      obtain ⟨index₁, hindex₁, hgrows⟩ := hsteps.table.advances.extends_.indexes slot index hindex
      obtain ⟨index₂, hindex₂, hgrows₂⟩ := (hwf.run_extends hops.2).indexes slot index₁ hindex₁
      have hsame : some index₂ = some index := hindex₂.symm.trans hend
      rw [hindex₁, ← hgrows₂.eq_of_detached (by rw [Option.some.inj hsame, hdetached]), hsame]
    have hrest := ih hwf hbetween hops.2 hend
    rw [hsteps.config] at hrest
    rw [run_cons, hrest, h.marks_step hindex hdetached hops.1 hbetween, forall_split_cons,
      and_assoc]
    rfl

end Session

/-- A load that is accepted brings an index along without a predicate, and nothing that follows
    attaches one or is a load. Then at the end a row is in the index exactly if it was when the load
    was done, no operation since has deleted it, and none has written the index's source for it. -/
theorem Reachable.detached_index_marks_iff {s loaded : Session} (h : Reachable s) {source : Source}
    (hload : s.step (.load source) = (.ok (), loaded)) {slot : Nat} {index : Index}
    (hindex : loaded.collection.table.schema.indexes[slot]? = some index)
    (hdetached : index.predicate = none) {ops : List Op} (hops : ∀ op ∈ ops, op.isLoad = false)
    (hend : (loaded.run ops).collection.table.schema.indexes[slot]? = some index) (row : Nat) :
    (loaded.run ops).collection.table.marks loaded.collection.config slot row = true ↔
      loaded.collection.table.marks loaded.collection.config slot row = true ∧
        ∀ before op after, ops = before ++ op :: after →
          ¬(loaded.run before).Deletes row op ∧
            ¬(loaded.run before).Overwrites index.source row op := by
  have hreachable := h.step (.load source)
  rw [hload] at hreachable
  exact hreachable.wellFormed.marks_run hindex hdetached hops hend

/-- The flags, saved and loaded by a collection that has not registered their index. -/
def Session.reloaded : Session :=
  ((start (.new 2)).step (.load ⟨Session.flags.collection.snapshot, none⟩)).2

/-- Sets every flag, set or not. -/
def Transaction.setAll : Transaction.Visitor Unit := fun _ _ =>
  .write (.bool true) fun _ => .done ((), .ok true)

theorem load_reloaded :
    (Session.start (.new 2)).step (.load ⟨Session.flags.collection.snapshot, none⟩) =
      (.ok (), Session.reloaded) :=
  Prod.ext (by cbv) rfl

theorem index_reloaded : Session.reloaded.collection.table.schema.indexes[0]? =
    some ⟨"set", "flag", 0, none⟩ := by
  cbv

theorem index_setAll_reloaded : (Session.reloaded.run
    [.begin, .pass 0 "flag" Transaction.setAll ()]).collection.table.schema.indexes[0]? =
      some ⟨"set", "flag", 0, none⟩ := by
  cbv

theorem recorded_setAll_reloaded : ((Session.reloaded.step .begin).2.step
    (.pass 0 "flag" (Transaction.recorded Transaction.setAll) ((), []))).1 =
      some (((), [⟨0, [⟨none, .bool true, .ok ()⟩], .ok true⟩,
        ⟨1, [⟨none, .bool true, .ok ()⟩], .ok true⟩]), .ok ()) := by
  cbv

/-- The first row is in the index that was loaded. A pass writes the flag that the row has already,
    and the row leaves the index. -/
theorem detached_index_marks_iff_reloaded :
    Session.reloaded.collection.table.marks Session.reloaded.collection.config 0 0 = true ∧
      (Session.reloaded.run [.begin, .pass 0 "flag" Transaction.setAll ()]).collection.table.marks
        Session.reloaded.collection.config 0 0 = false := by
  have hops : ∀ op ∈ [Op.begin, .pass 0 "flag" Transaction.setAll ()], op.isLoad = false := by
    simp [Op.isLoad]
  have hiff := (Reachable.new 2).detached_index_marks_iff load_reloaded index_reloaded rfl hops
    index_setAll_reloaded 0
  have hover : (Session.reloaded.run [.begin]).Overwrites "flag" 0
      (.pass 0 "flag" Transaction.setAll ()) :=
    .pass rfl rfl recorded_setAll_reloaded List.mem_cons_self rfl rfl
  refine ⟨by decide +kernel, Bool.eq_false_iff.mpr fun hmark => ?_⟩
  exact ((hiff.mp hmark).2 [.begin] _ [] rfl).2 hover

end ColumnStore
