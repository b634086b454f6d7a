import ColumnStore.Proofs.Session.Queries
import ColumnStore.Proofs.Sheet.Rows

/-!
# Sessions as notebooks

`Session.notebook` reads a session as a sheet with its queries. As long as nothing was loaded
(`Session.Plain`) every operation on the session is that operation on the notebook, answer and
outcome (`Plain.step_notebook`, and along a run `Plain.run_notebook`).

* `run_answers`: from an empty collection with any usable configuration, after any operations but
  loads, the next operation and every reading answer what the notebook answers.
-/

namespace ColumnStore

open Selection (selects rowsFrom)

/-! ## Queries -/

/-- The query that a transaction is. -/
def Transaction.query (t : Transaction) (c : Collection) : Sheet.Query :=
  ⟨t.schema.columns.toList, t.schema.indexes.toList.map Index.name, t.rows c⟩

namespace Collection

/-- The sheet of the present contents. -/
def sheet (c : Collection) : Sheet := c.table.sheet c.config

variable {c : Collection}

/-- What is read of a row, by its row in the sheet. -/
theorem current_sheet (h : c.table.WellFormed c.config) (name : String) (row : Nat) :
    c.current name row = (c.sheet.row? row).getD Row.blank name := by
  have hrow : c.sheet.row? row = _ := h.row?_sheet row
  rw [current, valueAt, h.valueAt_eq, hrow]
  cases hcolumn : c.table.schema.column? name with
  | none =>
    cases c.table.isLive c.config row with
    | false => rfl
    | true =>
      show none = c.table.rowAt c.config row name
      rw [Table.rowAt, hcolumn, Option.bind_none]
  | some found =>
    obtain ⟨slot, column⟩ := found
    simp only [Table.read?]
    cases hlive : c.table.isLive c.config row with
    | false => by_cases hlt : row < c.table.nextRow <;> simp only [hlt, if_true, if_false] <;> rfl
    | true =>
      rw [if_pos (h.lt_nextRow hlive)]
      show c.table.cellValue? c.config slot row = c.table.rowAt c.config row name
      rw [Table.rowAt, hcolumn, Option.bind_some]

theorem find?_rules (c : Collection) (name : String) :
    c.sheet.rules.find? (fun rule => rule.name == name) =
      (c.table.schema.index? name).map fun found =>
        ⟨found.2.name, found.2.source, found.2.predicate.getD fun _ => false⟩ := by
  rw [sheet, Table.sheet, List.find?_map]
  have hfind := c.table.schema.find?_indexes name
  rw [show (fun rule : Sheet.Rule => rule.name == name) ∘ (fun index : Index =>
      (⟨index.name, index.source, index.predicate.getD fun _ => false⟩ : Sheet.Rule)) =
        fun index => index.name == name from rfl, hfind, Option.map_map]
  rfl

theorem keeps_sheet (h : c.table.Plain c.config) (name : String) (row : Nat) :
    c.keeps name row = c.sheet.keeps name ((c.sheet.row? row).getD Row.blank) := by
  have hcolumnNamed : columnNamed c.sheet.columns name = _ :=
    Table.columnNamed_sheet c.config c.table name
  rw [keeps, Sheet.keeps, hcolumnNamed, find?_rules]
  cases hcolumn : c.table.schema.column? name with
  | some found => simp only [Option.map_some, current_sheet h.wellFormed]
  | none =>
    cases hindex : c.table.schema.index? name with
    | none => rfl
    | some found =>
      obtain ⟨slot, index⟩ := found
      have hmem := (h.wellFormed.schema.index?_eq_some_iff.mp hindex).1
      obtain ⟨predicate, hpredicate⟩ :=
        Option.isSome_iff_exists.mp (h.attached index (Array.mem_of_getElem? hmem))
      simp only [Option.map_none, Option.map_some, hpredicate, Option.getD_some,
        current_sheet h.wellFormed]

/-- A row satisfies a filter if its row in the sheet does. -/
theorem satisfies_sheet (h : c.table.Plain c.config) (filter : Filter) (row : Nat) :
    c.satisfies filter row =
      c.sheet.satisfies filter ((c.sheet.row? row).getD Row.blank) := by
  cases filter with
  | select names => simp only [satisfies, Sheet.satisfies, keeps_sheet h]
  | whereFloat column f => rw [satisfies, Sheet.satisfies, current_sheet h.wellFormed]
  | whereString column f => rw [satisfies, Sheet.satisfies, current_sheet h.wellFormed]
  | whereValue column f => rw [satisfies, Sheet.satisfies, current_sheet h.wellFormed]

end Collection

namespace Transaction

variable {c : Collection} {t : Transaction}

/-- A new transaction is a new query. -/
theorem query_start (h : c.table.WellFormed c.config) : (start c).query c = c.sheet.query := by
  have hrules := Table.rules_sheet c.config c.table
  have hrows : (start c).rows c =
      (List.range (c.table.rows c.config).length).filter fun row => (c.sheet.row? row).isSome := by
    rw [rows_start h, Table.length_rows, Table.liveRows]
    refine List.filter_congr fun row _ => ?_
    rw [Collection.sheet, h.row?_sheet]
    cases c.table.isLive c.config row <;> rfl
  rw [query, Sheet.query, hrows, Collection.sheet, hrules]
  rfl

/-- A filter on a transaction narrows its query. -/
theorem apply_query (h : c.table.Plain c.config) (ht : t.Open c.config c.table)
    (htable : t.table c = c.table) (filter : Filter) :
    (filter.apply t c).map (fun t' => t'.query c) = c.sheet.narrow (t.query c) filter := by
  rw [Sheet.narrow]
  cases hfault : filter.fault? (t.query c).columns (t.query c).rules with
  | some e =>
    rw [apply_of_fault hfault c]
    rfl
  | none =>
    obtain ⟨judge, happly, -⟩ := apply_of_fine h.wellFormed ht htable hfault
    obtain ⟨-, hrows⟩ := ht.apply h.wellFormed htable happly
    rw [happly]
    simp only [Except.map, query, hrows]
    congr 1
    rw [show c.satisfies filter = _ from funext (Collection.satisfies_sheet h filter)]
    rfl

end Transaction

/-! ## Steps -/

namespace Session

/-- A session in which nothing was loaded. -/
structure Plain (s : Session) : Prop where
  wellFormed : s.WellFormed
  table : s.collection.table.Plain s.collection.config
  current : ∀ t ∈ s.transactions, t.generation = s.collection.generation

/-- The notebook that a session shows. -/
def notebook (s : Session) : Notebook :=
  ⟨s.collection.sheet, s.transactions.map fun t => t.query s.collection⟩

variable {s : Session}

theorem getElem?_notebook (s : Session) (id : Nat) :
    s.notebook.queries[id]? = s.transactions[id]?.map fun t => t.query s.collection :=
  Array.getElem?_map

theorem Plain.opened (h : s.Plain) {id : Nat} {t : Transaction}
    (ht : s.transactions[id]? = some t) :
    t.Open s.collection.config s.collection.table ∧ t.generation = s.collection.generation :=
  have hgen := h.current t (Array.mem_of_getElem? ht)
  ⟨h.wellFormed.current t (Array.mem_of_getElem? ht) hgen, hgen⟩

/-- A step of a session is that step of its notebook. -/
def Refines (s : Session) (op : Op) : Prop :=
  (s.step op).1 = (s.notebook.step op).1 ∧
    (s.step op).2.notebook = (s.notebook.step op).2 ∧ (s.step op).2.Plain

theorem Plain.refines_filter (h : s.Plain) (id : Nat) (filter : Filter) :
    s.Refines (.filter id filter) := by
  have hwf := h.wellFormed.step (.filter id filter)
  unfold Refines
  rw [Session.step, Notebook.step, getElem?_notebook] at *
  cases ht : s.transactions[id]? with
  | none => exact ⟨rfl, rfl, h⟩
  | some t =>
    obtain ⟨hopen, hgen⟩ := h.opened ht
    have hquery := Transaction.apply_query h.table hopen (Transaction.table_of_current hgen) filter
    have hnarrow : s.notebook.sheet.narrow (t.query s.collection) filter = _ := hquery.symm
    simp only [ht, Option.map_some, hnarrow] at hwf ⊢
    cases happly : filter.apply t s.collection with
    | error e => exact ⟨rfl, rfl, h⟩
    | ok t' =>
      rw [happly] at hwf
      refine ⟨rfl, ?_, hwf, h.table, fun t₁ ht₁ => ?_⟩
      · simp only [notebook, Array.map_setIfInBounds]
        rfl
      · obtain ⟨judge, hjudge⟩ := Transaction.narrow_of_apply happly
        rcases Array.mem_or_eq_of_mem_setIfInBounds ht₁ with hold | rfl
        · exact h.current t₁ hold
        · rw [hjudge]
          exact hgen

/-- A pass by a transaction is the pass by its query. -/
theorem Plain.refines_pass (h : s.Plain) {σ : Type} (id : Nat) (name : String)
    (visitor : Transaction.Visitor σ) (state : σ) : s.Refines (.pass id name visitor state) := by
  have hwf := h.wellFormed.step (.pass id name visitor state)
  unfold Refines
  rw [Session.step, Notebook.step, getElem?_notebook] at *
  cases ht : s.transactions[id]? with
  | none => exact ⟨rfl, rfl, h⟩
  | some t =>
    obtain ⟨hopen, hgen⟩ := h.opened ht
    simp only [ht, Option.map_some, Sheet.pass] at hwf ⊢
    rcases Transaction.column_eq t name with
      ⟨hnamed, hcolumn⟩ | ⟨slot, column, hnamed, -, hcolumn⟩
    · have hquery : columnNamed (t.query s.collection).columns name = none := hnamed
      simp only [hquery, Transaction.pass, hcolumn]
      exact ⟨rfl, trivial, h⟩
    · have hquery : columnNamed (t.query s.collection).columns name = some column := hnamed
      obtain ⟨dictionaries, chunks, hpass, hwf', hrows, hvisited⟩ :=
        hopen.pass h.wellFormed.table hgen hcolumn visitor state
      rw [hpass] at hwf ⊢
      simp only [hquery]
      refine ⟨rfl, ?_, hwf, ⟨hwf', h.table.attached, hvisited.tidy h.table.tidy⟩, h.current⟩
      unfold notebook Collection.sheet Table.sheet
      rw [hrows]
      rfl

/-- Deleting what a transaction selects is deleting what its query selects. -/
theorem Plain.refines_deleteAll (h : s.Plain) (id : Nat) : s.Refines (.deleteAll id) := by
  have hwf := h.wellFormed.step (.deleteAll id)
  unfold Refines
  rw [Session.step, Notebook.step, getElem?_notebook] at *
  cases ht : s.transactions[id]? with
  | none => exact ⟨rfl, rfl, h⟩
  | some t =>
    obtain ⟨hopen, hgen⟩ := h.opened ht
    obtain ⟨hremoved, hsheet, hplain⟩ := h.table.deleteFrom_sheet hopen.bounded
      fun row hrow => (hopen.settled row hrow).lt_nextRow
    simp only [ht, Option.map_some] at hwf ⊢
    rw [Transaction.deleteAll_of_current hgen] at hwf ⊢
    refine ⟨congrArg some hremoved, ?_, hwf, hplain, fun t₁ ht₁ => ?_⟩
    · have hempty : ∀ c : Collection,
          ({ t with selection := t.selection.map Bitmap.reset } : Transaction).query c =
            { t.query s.collection with selected := [] } := by
        intro c
        unfold Transaction.query
        rw [Transaction.rows_eq, Array.toList_map, Transaction.rowsFrom_reset]
      simp only [notebook, Array.map_setIfInBounds, hempty]
      exact congrArg (fun sheet : Sheet => (⟨sheet, _⟩ : Notebook)) hsheet
    · rcases Array.mem_or_eq_of_mem_setIfInBounds ht₁ with hold | rfl
      · exact h.current t₁ hold
      · exact hgen

/-- Every operation but a load is that operation on the notebook. -/
theorem Plain.refines (h : s.Plain) {op : Op} (hop : op.isLoad = false) : s.Refines op := by
  have hwf := h.wellFormed.step op
  have hsame {table : Table} {sheet : Sheet} (hsheet : table.sheet s.collection.config = sheet) :
      (⟨{ s.collection with table }, s.transactions⟩ : Session).notebook =
        ⟨sheet, s.notebook.queries⟩ := by
    rw [← hsheet]
    rfl
  cases op with
  | load source => cases hop
  | createColumn name kind =>
    obtain ⟨hanswer, hsheet, hplain⟩ := h.table.createColumn_sheet name kind
    exact ⟨hanswer, hsame hsheet, hwf, hplain, h.current⟩
  | createIndex name source predicate =>
    obtain ⟨hanswer, hsheet, hplain⟩ := h.table.createIndex_sheet name source predicate
    exact ⟨hanswer, hsame hsheet, hwf, hplain, h.current⟩
  | insert record =>
    obtain ⟨hanswer, hsheet, hplain⟩ := h.table.insert_sheet record
    exact ⟨hanswer, hsame hsheet, hwf, hplain, h.current⟩
  | deleteAt row =>
    obtain ⟨hanswer, hsheet, hplain⟩ := h.table.deleteAt_sheet row
    exact ⟨hanswer, hsame hsheet, hwf, hplain, h.current⟩
  | begin =>
    refine ⟨rfl, ?_, hwf, h.table, fun t ht => ?_⟩
    · rw [Session.step, Notebook.step, notebook, Array.map_push,
        Transaction.query_start h.wellFormed.table]
      rfl
    · rcases Array.mem_push.mp ht with hold | rfl
      · exact h.current t hold
      · rfl
  | filter id filter => exact h.refines_filter id filter
  | pass id name visitor state => exact h.refines_pass id name visitor state
  | deleteAll id => exact h.refines_deleteAll id

/-- A run of a session is that run of its notebook. -/
theorem Plain.run (h : s.Plain) {ops : List Op} (hops : ∀ op ∈ ops, op.isLoad = false) :
    (s.run ops).notebook = s.notebook.run ops ∧ (s.run ops).Plain := by
  induction ops generalizing s with
  | nil => exact ⟨rfl, h⟩
  | cons op rest ih =>
    rw [List.forall_mem_cons] at hops
    obtain ⟨-, hnotebook, hplain⟩ := h.refines hops.1
    obtain ⟨hrun, hend⟩ := ih hplain hops.2
    refine ⟨?_, hend⟩
    rw [run_cons, hrun, hnotebook]
    rfl

theorem notebook_start (config : Config) :
    (start (.build config)).notebook = Notebook.empty := by
  simp [notebook, start, Notebook.empty, Collection.sheet, Collection.build, Table.sheet,
    Table.rows, Table.empty, Schema.empty]

theorem plain_start {config : Config} (h : config.fault? = none) :
    (start (.build config)).Plain where
  wellFormed := wellFormed_start h
  table := ⟨Table.wellFormed_empty h, by simp [start, Collection.build, Table.empty, Schema.empty],
    Table.tidy_empty config⟩
  current := by simp [start]

end Session

/-- Without loads, a collection answers as a naive sheet does: the next operation, whether it fails
    and with what, every value, every record and the count. -/
theorem run_answers {config : Config} {c : Collection} (h : Collection.withConfig config = .ok c)
    {ops : List Op} (hops : ∀ op ∈ ops, op.isLoad = false) :
    (∀ op : Op, op.isLoad = false →
      (((Session.start c).run ops).step op).1 = ((Notebook.empty.run ops).step op).1) ∧
    (∀ row, ((Session.start c).run ops).collection.fetch row =
      (Notebook.empty.run ops).sheet.fetch row) ∧
    (∀ column row, ((Session.start c).run ops).collection.valueAt column row =
      (Notebook.empty.run ops).sheet.valueAt column row) ∧
    ((Session.start c).run ops).collection.count = (Notebook.empty.run ops).sheet.count := by
  have hstart : (Session.start c).Plain ∧ (Session.start c).notebook = Notebook.empty := by
    unfold Collection.withConfig at h
    cases hfault : config.fault? with
    | some fault => simp [hfault] at h
    | none =>
      simp only [hfault, Except.ok.injEq] at h
      subst h
      exact ⟨Session.plain_start hfault, Session.notebook_start config⟩
  obtain ⟨hrun, hplain⟩ := hstart.1.run hops
  rw [hstart.2] at hrun
  have hsheet : (Notebook.empty.run ops).sheet =
      ((Session.start c).run ops).collection.sheet := by
    rw [← hrun]
    rfl
  have hwf := hplain.wellFormed.table
  refine ⟨fun op hop => ?_, fun row => ?_, fun column row => ?_, ?_⟩
  · rw [← hrun]
    exact (hplain.refines hop).1
  · rw [hsheet]
    exact hwf.fetch_sheet row
  · rw [hsheet]
    exact hwf.valueAt_sheet column row
  · rw [hsheet]
    exact hwf.count_sheet

/-- A record keeps the fields that name a column, and a row that was deleted is not given out
    again. -/
theorem run_answers_flags :
    ∃ c, Collection.withConfig ⟨0, 64, none⟩ = .ok c ∧
      ((Session.start c).run [.createColumn "flag" .bool, .insert [("flag", .bool true)],
        .deleteAt 0, .insert [("flag", .bool false), ("size", .bool true)]]).collection.fetch 1 =
          some [("flag", .bool false)] := by
  have hops : ∀ op ∈ [Op.createColumn "flag" .bool, .insert [("flag", .bool true)],
      .deleteAt 0, .insert [("flag", .bool false), ("size", .bool true)]], op.isLoad = false := by
    simp [Op.isLoad]
  have hconfig : Collection.withConfig ⟨0, 64, none⟩ = .ok (.build ⟨0, 64, none⟩) := by
    rfl
  obtain ⟨-, hfetch, -⟩ := run_answers hconfig hops
  refine ⟨_, hconfig, (hfetch 1).trans ?_⟩
  cbv

end ColumnStore
