import ColumnStore.Proofs.Session.Passes

/-!
# Rows that are gone

A row that was deleted is one that was given out and holds nothing (`Session.Gone`): deletion takes
it out of its chunk's bitmap, out of every segment and out of every index. No operation but a load
brings anything of it back (`Session.Gone.step`), since all that the operations write is at live
rows and at new ones.

`Session.Tombstone` is what such a row is to the operations, among them those of transactions that
had selected it before. `Reachable.run_tombstone`: a deleted row is that from then on, until a load.
-/

namespace ColumnStore

/-! ## Filters -/

namespace Collection

variable {c : Collection} {row : Nat}

/-- A row that holds nothing reads as nothing. -/
theorem current_of_vacant (h : c.table.WellFormed c.config) (hrow : row < c.table.nextRow)
    (hvacant : c.table.Vacant c.config row) (name : String) : c.current name row = none := by
  cases hcolumn : c.table.schema.column? name with
  | none =>
    unfold current valueAt
    rw [h.valueAt_eq, hcolumn]
    rfl
  | some found =>
    rw [Transaction.current_of_settled h ⟨hrow, Or.inr hvacant⟩ hcolumn, Table.cellValue?,
      hvacant.cell?]
    rfl

/-- No selector keeps such a row: the bit of a detached index is gone too. -/
theorem keeps_of_vacant (h : c.table.WellFormed c.config) (hrow : row < c.table.nextRow)
    (hvacant : c.table.Vacant c.config row) (name : String) : c.keeps name row = false := by
  have hcurrent := current_of_vacant h hrow hvacant
  unfold keeps
  cases c.table.schema.column? name with
  | some found =>
    simp only [hcurrent]
    split_ifs <;> rfl
  | none =>
    cases c.table.schema.index? name with
    | none => rfl
    | some found =>
      obtain ⟨slot, index⟩ := found
      cases hpredicate : index.predicate with
      | none => simp only [hpredicate, hvacant.marks]
      | some predicate =>
        simp only [hpredicate, hcurrent]
        rfl

/-- It passes the empty list of names only. -/
theorem satisfies_of_vacant (h : c.table.WellFormed c.config) (hrow : row < c.table.nextRow)
    (hvacant : c.table.Vacant c.config row) {filter : Filter} (hfilter : filter ≠ .select []) :
    c.satisfies filter row = false := by
  have hcurrent := current_of_vacant h hrow hvacant
  cases filter with
  | select names =>
    cases names with
    | nil => exact absurd rfl hfilter
    | cons name rest => rw [satisfies, List.all_cons, keeps_of_vacant h hrow hvacant, Bool.false_and]
  | whereFloat name f => rw [satisfies, hcurrent, Option.any_none]
  | whereString name f => rw [satisfies, hcurrent, Option.any_none]
  | whereValue name f => rw [satisfies, hcurrent, Option.any_none]

end Collection

/-! ## Gone rows in a session -/

namespace Session

variable {s : Session} {row : Nat}

/-- A row that was given out and holds nothing. -/
structure Gone (s : Session) (row : Nat) : Prop where
  lt_nextRow : row < s.collection.table.nextRow
  vacant : s.collection.table.Vacant s.collection.config row

/-- An operation but a load leaves a row gone. -/
theorem Gone.step (h : s.Gone row) (hwf : s.WellFormed) {op : Op} (hop : op.isLoad = false) :
    (s.step op).2.Gone row := by
  have hsteps := hwf.step_steps hop
  refine ⟨h.lt_nextRow.trans_le hsteps.table.advances.nextRow_le, ?_⟩
  rw [hsteps.config]
  exact hsteps.table.advances.vacant row h.lt_nextRow h.vacant

theorem Gone.run (h : s.Gone row) (hwf : s.WellFormed) {ops : List Op}
    (hops : ∀ op ∈ ops, op.isLoad = false) : (s.run ops).Gone row := by
  induction ops generalizing s with
  | nil => exact h
  | cons op rest ih =>
    rw [List.forall_mem_cons] at hops
    exact ih (h.step hwf hops.1) (hwf.step op) hops.2

/-- An operation that deletes a row: the deletion of the row, which answers that it was live, or the
    deletion of everything that a transaction on the present contents selects, the row included. -/
inductive Deletes (s : Session) (row : Nat) : Op → Prop
  | deleteAt (h : (s.step (.deleteAt row)).1 = Except.ok true) : Deletes s row (.deleteAt row)
  | deleteAll {id : Nat} {t : Transaction} (ht : s.transactions[id]? = some t)
    (hgen : t.generation = s.collection.generation) (hrow : row ∈ t.rows s.collection) :
    Deletes s row (.deleteAll id)

theorem Deletes.isLoad {op : Op} (h : s.Deletes row op) : op.isLoad = false := by
  cases h <;> rfl

/-- A deleted row is gone. -/
theorem Deletes.gone {op : Op} (h : s.Deletes row op) (hwf : s.WellFormed) :
    (s.step op).2.Gone row := by
  cases h with
  | deleteAt hanswer =>
    have htrue : (Table.deleteAt s.collection.config row s.collection.table).1 = .ok true := hanswer
    have hrow : row < s.collection.table.nextRow := by
      by_contra hle
      rw [hwf.table.deleteAt_of_le (Nat.le_of_not_lt hle)] at htrue
      cases htrue
    cases hlive : s.collection.table.isLive s.collection.config row with
    | false =>
      rw [hwf.table.deleteAt_of_not_live hrow hlive] at htrue
      cases htrue
    | true =>
      obtain ⟨table', hdelete, -, hremoved, -⟩ := hwf.table.deleteAt_of_live hlive
      have hcollection : (s.step (.deleteAt row)).2.collection.table =
          (Table.deleteAt s.collection.config row s.collection.table).2 := rfl
      refine ⟨?_, ?_⟩
      · rw [hcollection, hdelete]
        exact hrow.trans_eq hremoved.nextRow_eq.symm
      · rw [hcollection, hdelete]
        exact hremoved.vacant (Or.inr (decide_eq_true rfl))
  | @deleteAll id t ht hgen hmem =>
    have hopen := hwf.current t (Array.mem_of_getElem? ht) hgen
    rw [Transaction.rows_eq, Selection.mem_rowsFrom hopen.bounded] at hmem
    have hsettled := hopen.settled row hmem
    obtain ⟨-, hremoved, -⟩ := hwf.table.deleteFrom t.selection.toList 0
    have hgone : s.collection.table.Vacant s.collection.config row ∨
        (Selection.selects s.collection.config.chunkSize t.selection.toList 0 row &&
          s.collection.table.isLive s.collection.config row) = true :=
      hsettled.cases.symm.imp_right fun hlive => by rw [hmem, hlive]; rfl
    simp only [Session.step, ht, Transaction.deleteAll_of_current hgen]
    exact ⟨hsettled.lt_nextRow.trans_eq hremoved.nextRow_eq.symm, hremoved.vacant hgone⟩

/-! ## What a gone row is to the operations -/

/-- A row that is not given out again, cannot be fetched, and is not deleted again; that no new query
    selects, whatever it is filtered by. To a transaction on the present contents, which may have
    selected the row when it was live: its passes do not come to the row, the next filter but the
    empty list of names that succeeds drops it, and a deletion of everything does not count it. -/
structure Tombstone (s : Session) (row : Nat) : Prop where
  insert : ∀ record, (s.step (.insert record)).1 ≠ Except.ok row
  fetch : s.collection.fetch row = none
  deleteAt : (s.step (.deleteAt row)).1 = Except.ok false
  query : ∀ filters : List Filter,
    let s' := (s.step .begin).2.run (filters.map (.filter s.transactions.size))
    ∃ t, s'.transactions[s.transactions.size]? = some t ∧ row ∉ t.rows s'.collection
  pass : ∀ id t, s.transactions[id]? = some t → t.generation = s.collection.generation →
    ∀ (σ : Type) name (visitor : Transaction.Visitor σ) state, ∃ state' log ended,
      (s.step (.pass id name (Transaction.recorded visitor) (state, []))).1 =
        some ((state', log), ended) ∧ ∀ call ∈ log, call.row ≠ row
  filter : ∀ id t, s.transactions[id]? = some t → t.generation = s.collection.generation →
    ∀ filter, filter ≠ .select [] → (s.step (.filter id filter)).1 = some (Except.ok ()) →
      ∃ t', (s.step (.filter id filter)).2.transactions[id]? = some t' ∧
        row ∉ t'.rows (s.step (.filter id filter)).2.collection
  deleteAll : ∀ id t, s.transactions[id]? = some t → t.generation = s.collection.generation →
    (s.step (.deleteAll id)).1 = some ((t.rows s.collection).countP fun other =>
      decide (other ≠ row) && (s.collection.fetch other).isSome)

/-- A new query selects live rows only. -/
theorem Gone.query (h : s.Gone row) (hwf : s.WellFormed) (filters : List Filter) :
    let s' := (s.step .begin).2.run (filters.map (.filter s.transactions.size))
    ∃ t, s'.transactions[s.transactions.size]? = some t ∧ row ∉ t.rows s'.collection := by
  have hops : ∀ op ∈ filters.map (Op.filter s.transactions.size), op.isLoad = false := by
    intro op hmem
    obtain ⟨filter, -, rfl⟩ := List.mem_map.mp hmem
    rfl
  obtain ⟨t, ht, -, hrows⟩ := (hwf.step .begin).rows_run hops
    (Array.getElem?_push_size : (s.step .begin).2.transactions[s.transactions.size]? = _) rfl
  refine ⟨t, ht, fun hmem => ?_⟩
  rw [hrows, List.mem_filter] at hmem
  have hstart : row ∈ s.collection.table.liveRows s.collection.config := by
    rw [← Transaction.rows_start hwf.table]
    exact hmem.1
  rw [Table.liveRows, List.mem_filter, h.vacant.isLive] at hstart
  cases hstart.2

/-- A pass comes to live rows only. -/
theorem Gone.pass (h : s.Gone row) (hwf : s.WellFormed) {id : Nat} {t : Transaction}
    (ht : s.transactions[id]? = some t) (hgen : t.generation = s.collection.generation) {σ : Type}
    (name : String) (visitor : Transaction.Visitor σ) (state : σ) :
    ∃ state' log ended, (s.step (.pass id name (Transaction.recorded visitor) (state, []))).1 =
      some ((state', log), ended) ∧ ∀ call ∈ log, call.row ≠ row := by
  have htable := Transaction.table_of_current hgen
  cases hcolumn : t.schema.column? name with
  | none =>
    refine ⟨state, [], .error (.unknownSelector name), ?_, fun call hcall => nomatch hcall⟩
    simp only [Session.step, ht, Transaction.pass, Transaction.column, hcolumn]
    rfl
  | some found =>
    obtain ⟨slot, column⟩ := found
    have hopen := hwf.current t (Array.mem_of_getElem? ht) hgen
    obtain ⟨state', ended, log, table, -, hrecorded, hfollows, -⟩ :=
      Transaction.pass_recorded (htable ▸ hwf.table.held) (htable ▸ hopen.within)
        hwf.table.chunkSize_pos hcolumn visitor state
    refine ⟨state', log, ended, ?_, fun call hcall heq => ?_⟩
    · simp only [Session.step, ht, hrecorded]
      rfl
    · have hdue := hfollows.mem hcall
      rw [Transaction.due, List.mem_filter, htable, heq, h.vacant.isLive] at hdue
      cases hdue.2

/-- A filter that succeeds drops the row. -/
theorem Gone.filter (h : s.Gone row) (hwf : s.WellFormed) {id : Nat} {t : Transaction}
    (ht : s.transactions[id]? = some t) (hgen : t.generation = s.collection.generation)
    {filter : Filter} (hfilter : filter ≠ .select [])
    (hok : (s.step (.filter id filter)).1 = some (Except.ok ())) :
    ∃ t', (s.step (.filter id filter)).2.transactions[id]? = some t' ∧
      row ∉ t'.rows (s.step (.filter id filter)).2.collection := by
  have hload : (Op.filter id filter).isLoad = false := rfl
  obtain ⟨t', ht', -, hrows⟩ := hwf.rows_step hload ht hgen
  refine ⟨t', ht', fun hmem => ?_⟩
  have hsatisfies := Collection.satisfies_of_vacant hwf.table h.lt_nextRow h.vacant hfilter
  rw [hrows, List.mem_filter, judges, hok, bne_self_eq_false, Bool.false_or] at hmem
  simp only [hsatisfies] at hmem
  cases hmem.2

/-- A deletion of everything counts live rows only. -/
theorem Gone.deleteAll (h : s.Gone row) (hwf : s.WellFormed) {id : Nat} {t : Transaction}
    (ht : s.transactions[id]? = some t) (hgen : t.generation = s.collection.generation) :
    (s.step (.deleteAll id)).1 = some ((t.rows s.collection).countP fun other =>
      decide (other ≠ row) && (s.collection.fetch other).isSome) := by
  have hopen := hwf.current t (Array.mem_of_getElem? ht) hgen
  have hcount := hwf.table.countP_deleted hopen.bounded
    fun other hother => (hopen.settled other hother).lt_nextRow
  simp only [Session.step, ht, Transaction.deleteAll_of_current hgen, hcount]
  rw [Transaction.rows_eq]
  refine congrArg some (List.countP_congr fun other _ => ?_)
  rw [Collection.isSome_fetch hwf.table]
  by_cases heq : other = row
  · rw [heq, h.vacant.isLive, Bool.and_false]
  · rw [decide_eq_true heq, Bool.true_and]

theorem Gone.tombstone (h : s.Gone row) (hwf : s.WellFormed) : s.Tombstone row where
  insert record hinsert := by
    have heq := hwf.eq_nextRow_of_insert hinsert
    have := h.lt_nextRow
    omega
  fetch := by
    rw [Collection.fetch, hwf.table.fetch_eq, h.vacant.isLive]
    rfl
  deleteAt := by
    show (Table.deleteAt s.collection.config row s.collection.table).1 = _
    rw [hwf.table.deleteAt_of_not_live h.lt_nextRow h.vacant.isLive]
  query := h.query hwf
  pass _ _ ht hgen _ name visitor state := h.pass hwf ht hgen name visitor state
  filter _ _ ht hgen _ hfilter hok := h.filter hwf ht hgen hfilter hok
  deleteAll _ _ ht hgen := h.deleteAll hwf ht hgen

end Session

/-- A row that was deleted is a tombstone after anything that is done then but loads. -/
theorem Reachable.run_tombstone {s : Session} (h : Reachable s) {row : Nat} {op : Op}
    (hop : s.Deletes row op) {ops : List Op} (hops : ∀ op ∈ ops, op.isLoad = false) :
    ((s.step op).2.run ops).Tombstone row :=
  ((hop.gone h.wellFormed).run (h.step op).wellFormed hops).tombstone
    ((h.step op).run ops).wellFormed

/-- Of two rows that a transaction selects, the first is deleted by its number or with everything.
    Then a row is inserted, and another index is created. -/
theorem run_tombstone_flags :
    let s := (Session.flags.step .begin).2
    let ops := [.insert [("flag", .bool true)], .createIndex "again" "flag" Value.isTrue]
    ((s.step (.deleteAt 0)).2.run ops).Tombstone 0 ∧
      ((s.step (.deleteAll 0)).2.run ops).Tombstone 0 := by
  have hops : ∀ op ∈ [Op.insert [("flag", .bool true)], .createIndex "again" "flag" Value.isTrue],
      op.isLoad = false := by
    simp [Op.isLoad]
  have hrow : 0 ∈ (Transaction.start Session.flags.collection).rows Session.flags.collection := by
    decide +kernel
  have hdelete : ((Session.flags.step .begin).2.step (.deleteAt 0)).1 = Except.ok true := by
    cbv
  exact ⟨(reachable_flags.step .begin).run_tombstone (.deleteAt hdelete) hops,
    (reachable_flags.step .begin).run_tombstone (.deleteAll rfl rfl hrow) hops⟩

end ColumnStore
