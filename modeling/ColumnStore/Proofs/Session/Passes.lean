import ColumnStore.Proofs.Session.Filters
import ColumnStore.Proofs.Session.Generations
import ColumnStore.Proofs.Transaction.Record

/-!
# Passes of a session

What a pass does, whether or not the contents it works on were retired. Retired contents do not keep
the whole invariant of a table: a pass over them works under the schema of its transaction and does
not keep up the indexes created since. What they do keep is `Table.Held`, and a transaction lies
within its contents, retired or not (`Transaction.Within`). Together this is `Session.Holds`.

* `Session.Holds.step_becomes`, `Session.Holds.step_setTable`: an operation but a load changes the
  contents of one generation, in one of the ways of `Session.Becomes` and so of `Table.Changes`;
* `Session.Holds.step`, `Reachable.holds`: every operation keeps the contents of all generations in
  form;
* `Transaction.pass_eq_walk`: a pass is the walk through the rows that are due when it starts, the
  selected ones that are live;
* `Reachable.pass_follows`: which rows a pass calls its visitor at, how it ends and what it leaves.
-/

namespace ColumnStore

/-! ## Contents -/

namespace Table

variable {config : Config} {table table' : Table}

/-- Contents after an operation on them. -/
structure Keeps (config : Config) (older newer : Table) : Prop where
  held : newer.Held config
  extends_ : older.schema.Extends newer.schema
  chunks_size : older.chunks.size ≤ newer.chunks.size

theorem Held.keeps (h : table.Held config) : Keeps config table table :=
  ⟨h, Schema.Extends.refl _, le_rfl⟩

theorem Written.keeps (h : Written config table table') : Keeps config table table' where
  held := h.held
  extends_ := by
    rw [h.schema_eq]
    exact Schema.Extends.refl _
  chunks_size := h.chunks_size.ge

theorem Steps.keeps (h : Steps config table table') : Keeps config table table' :=
  ⟨h.wellFormed.held, h.advances.extends_, h.advances.chunks_size⟩

theorem Removed.keeps {gone : Nat → Bool} (h : Removed config gone table table')
    (hheld : table'.Held config) : Keeps config table table' :=
  ⟨hheld, h.advances.extends_, h.advances.chunks_size⟩

/-- Taking out the rows of a selection. -/
theorem Held.deleted (h : table.Held config) (selection : List Bitmap) (id : Nat) :
    (table.deleted selection id).Held config ∧
      ∃ gone, Removed config gone table (table.deleted selection id) := by
  induction selection generalizing table id with
  | nil => exact ⟨h, fun _ => false, Removed.refl (fun _ => rfl) table⟩
  | cons bits rest ih =>
    cases hempty : bits.isEmpty with
    | true =>
      rw [(deleted_cons_of_isEmpty hempty table rest id).1]
      exact ih h (id + 1)
    | false =>
      rcases Nat.lt_or_ge id table.chunks.size with hid | hid
      · rw [(deleted_cons_of_lt hid hempty rest).1]
        have hchunk := h.chunk id _ (Array.getElem?_eq_getElem hid)
        obtain ⟨hwf, hdel, -⟩ := hchunk.deleteSelected bits
        have hheld : (table.withoutRows id hid (table.chunks[id].deleteSelected bits).1
            (table.chunks[id].deleteSelected bits).2).Held config := by
          refine ⟨h.dictionaries_size, fun other chunk hother => ?_⟩
          rw [withoutRows, Array.getElem?_set] at hother
          split_ifs at hother with heq
          · cases hother
            exact hwf
          · exact h.chunk other chunk hother
        obtain ⟨hrest, gone, hremoved⟩ := ih hheld (id + 1)
        exact ⟨hrest, _, (removed_withoutRows hid hdel _).trans hremoved⟩
      · rw [(deleted_cons_of_le hid bits rest).1]
        exact ih h (id + 1)

/-- What an operation but a load does to contents: it leaves them, does to them what is done to the
    present contents of a collection, writes at live rows in a pass, or takes rows out. -/
inductive Changes (config : Config) (table : Table) : Table → Prop
  | none : Changes config table table
  | createColumn (h : table.WellFormed config) (name : String) (kind : Kind) :
    Changes config table (Table.createColumn name kind table).2
  | createIndex (h : table.WellFormed config) (name source : String) (predicate : Value → Bool) :
    Changes config table (Table.createIndex name source predicate table).2
  | insert (h : table.WellFormed config) (record : Record) :
    Changes config table (Table.insert config record table).2
  | deleteAt (h : table.WellFormed config) (row : Nat) :
    Changes config table (Table.deleteAt config row table).2
  | pass {cursor : Nat → Cursor} {edits : List (Nat × Edit)} {table' : Table}
    (hplaces : Places table.schema cursor)
    (hlive : ∀ entry ∈ edits, table.isLive config entry.1 = true)
    (hwritten : Written config table table')
    (hcomposes : Composes config cursor table edits table') : Changes config table table'
  | removed {gone : Nat → Bool} {table' : Table} (hheld : table'.Held config)
    (hremoved : Removed config gone table table') : Changes config table table'

theorem Changes.keeps (h : Changes config table table') (hheld : table.Held config) :
    Keeps config table table' := by
  cases h with
  | none => exact hheld.keeps
  | createColumn h name kind => exact (h.createColumn_steps name kind).keeps
  | createIndex h name source predicate => exact (h.createIndex_steps name source predicate).keeps
  | insert h record => exact (h.insert_steps record).keeps
  | deleteAt h row => exact (h.deleteAt_steps row).keeps
  | pass _ _ hwritten _ => exact hwritten.keeps
  | removed hheld' hremoved => exact hremoved.keeps hheld'

end Table

/-! ## Transactions within their contents -/

namespace Transaction

open Table (Held Keeps Places Written)

variable {config : Config} {table table' : Table} {c : Collection} {t : Transaction} {σ : Type}

/-- A transaction whose columns and whose selected offsets are among those of contents. -/
structure Within (config : Config) (table : Table) (t : Transaction) : Prop where
  extends_ : t.schema.Extends table.schema
  size_le : t.selection.size ≤ table.chunks.size
  bounded : Selection.Bounded config.chunkSize t.selection.toList

theorem Open.within (h : t.Open config table) : t.Within config table :=
  ⟨h.extends_, h.size_le, h.bounded⟩

theorem Within.keeps (h : t.Within config table) (hkeeps : Keeps config table table') :
    t.Within config table' :=
  ⟨h.extends_.trans hkeeps.extends_, h.size_le.trans hkeeps.chunks_size, h.bounded⟩

theorem Within.reset (h : t.Within config table) :
    ({ t with selection := t.selection.map Bitmap.reset } : Transaction).Within config table :=
  ⟨h.extends_, (Array.size_map ..).le.trans h.size_le, t.bounded_reset config.chunkSize⟩

theorem Masks.subset {judge : Chunk → Bitmap → Bitmap} (h : Masks judge) (chunk : Chunk)
    (bits : Bitmap) (offset : Nat) (hoffset : (judge chunk bits).contains offset = true) :
    bits.contains offset = true := by
  obtain ⟨keep, hkeep⟩ := h chunk
  rw [(hkeep bits).2, Bool.and_eq_true] at hoffset
  exact hoffset.1

theorem Within.refine (h : t.Within config (t.table c)) (filter : Filter) :
    (refine c t filter).Within config (t.table c) := by
  cases hfault : t.fault? filter with
  | some e =>
    rw [refine_of_fault hfault]
    exact h
  | none =>
    obtain ⟨judge, hmasks, hrefine⟩ := refine_of_fine hfault c
    rw [show Transaction.refine c t filter = _ from hrefine t.selection]
    exact ⟨h.extends_, Array.size_mapIdx.le.trans h.size_le,
      bounded_narrow h.bounded h.size_le hmasks.subset⟩

/-! ## Passes over contents of any generation -/

/-- The selected rows that are live. -/
def due (t : Transaction) (c : Collection) : List Nat :=
  (t.rows c).filter ((t.table c).isLive c.config)

/-- A pass writes at live rows only. -/
theorem isLive_of_mem_edits {log : List Call} {ended : Except Error Unit}
    (h : Follows (t.due c) log ended) :
    ∀ entry ∈ Table.edits log, (t.table c).isLive c.config entry.1 = true := by
  intro entry hentry
  obtain ⟨call, hcall, hmade⟩ := List.mem_flatMap.mp hentry
  obtain ⟨edit, -, rfl⟩ := List.mem_map.mp hmade
  exact (List.mem_filter.mp (h.mem hcall)).2

/-- The place of a row of a pass. -/
def passCursor (t : Transaction) (c : Collection) (slot : Nat) (column : Column) (offset : Nat) :
    Cursor :=
  ⟨t.passSchema c, slot, column, offset⟩

/-- A pass is the walk through the rows that are due when it starts; it changes nothing but the
    contents that its transaction works on. -/
theorem pass_eq_walk (h : t.Within c.config (t.table c)) {name : String} {slot : Nat}
    {column : Column} (hcolumn : t.column name = .ok (slot, column)) (visitor : Visitor σ)
    (state : σ) :
    t.pass c name visitor state =
      let (ended, table) :=
        Table.walk c.config (t.passCursor c slot column) visitor (t.due c) state (t.table c)
      (ended.1, ended.2.map fun _ => (), c.setTable t.generation table) := by
  have hsize : 0 + t.selection.toList.length ≤ (t.table c).chunks.size := by
    rw [Nat.zero_add, Array.length_toList]
    exact h.size_le
  obtain ⟨ended, ds, chunks, hvisit, hwalk⟩ :=
    Table.visitChunks_eq_walk visitor (t.passCursor c slot column) h.bounded hsize state
  have hdue : t.due c = (Selection.rowsFrom c.config.chunkSize t.selection.toList 0).filter
      ((t.table c).isLive c.config) := by
    rw [due, rows_eq]
  have hpass : visitChunks visitor (fun offset => ⟨t.passSchema c, slot, column, offset⟩)
      c.chunkSize t.selection.toList 0 state (c.tableOf t.generation).dictionaries
      (c.tableOf t.generation).chunks = (ended, ds, chunks) := hvisit
  unfold pass
  simp only [hcolumn, Collection.changeTable_eq, hpass]
  rw [hdue, hwalk]
  rfl

theorem places_passCursor (h : t.Within c.config (t.table c)) {name : String} {slot : Nat}
    {column : Column} (hcolumn : t.schema.column? name = some (slot, column)) :
    Places (t.table c).schema (t.passCursor c slot column) := by
  have hfound := (Schema.exists_of_column? hcolumn).1
  have hschema : (t.passSchema c).Extends (t.table c).schema ∧
      t.schema.Extends (t.passSchema c) := by
    unfold passSchema
    split_ifs with hgen
    · rw [table_of_current hgen] at h ⊢
      exact ⟨Schema.Extends.refl _, h.extends_⟩
    · exact ⟨h.extends_, Schema.Extends.refl _⟩
  exact ⟨fun _ => rfl, fun _ => hschema.1, fun _ => hschema.2.columns slot column hfound⟩

/-- A pass with a record does to the session what it does without, and leaves the record of a walk
    through the rows that are due. -/
theorem pass_recorded (hheld : (t.table c).Held c.config) (h : t.Within c.config (t.table c))
    (hpos : 0 < c.config.chunkSize) {name : String} {slot : Nat} {column : Column}
    (hcolumn : t.schema.column? name = some (slot, column)) (visitor : Visitor σ) (state : σ) :
    ∃ state' ended log table',
      t.pass c name visitor state = (state', ended, c.setTable t.generation table') ∧
      t.pass c name (recorded visitor) (state, []) =
        ((state', log), ended, c.setTable t.generation table') ∧
      Follows (t.due c) log ended ∧ Written c.config (t.table c) table' ∧
      Table.Composes c.config (t.passCursor c slot column) (t.table c) (Table.edits log)
        table' := by
  have hname : t.column name = .ok (slot, column) := by
    rw [Transaction.column, hcolumn]
  have hlive : ∀ row ∈ t.due c, (t.table c).isLive c.config row = true :=
    fun row hrow => (List.mem_filter.mp hrow).2
  obtain ⟨state', ended, log, table', hwalk, hlogged, hfollows, hwritten, hcomposes⟩ :=
    hheld.walk_recorded (places_passCursor h hcolumn) hpos visitor hlive state []
  refine ⟨state', ended.map fun _ => (), log, table', ?_, ?_, hfollows, hwritten, hcomposes⟩
  · rw [pass_eq_walk h hname, hwalk]
  · rw [pass_eq_walk h hname, hlogged]
    rfl

end Transaction

/-! ## Sessions -/

namespace Session

open Table (Changes Keeps)

variable {s : Session}

/-- The contents of every generation are held in form, and every transaction lies within its own. -/
structure Holds (s : Session) : Prop where
  held : ∀ generation ≤ s.collection.generation,
    (s.collection.tableOf generation).Held s.collection.config
  within : ∀ t ∈ s.transactions, t.Within s.collection.config (t.table s.collection)

/-- A session without retired contents. -/
theorem WellFormed.holds (h : s.WellFormed) (hgen : s.collection.generation = 0) : s.Holds where
  held generation _ := by
    rw [Collection.tableOf_of_le (hgen.trans_le (Nat.zero_le generation))]
    exact h.table.held
  within t ht := by
    have hcurrent : t.generation = s.collection.generation := by
      have := h.generation_le t ht
      omega
    rw [Transaction.table_of_current hcurrent]
    exact (h.current t ht hcurrent).within

/-- What an operation but a load makes of the contents of a generation. The operations of the
    collection work on the present ones, a pass or a deletion on those of its transaction. -/
inductive Becomes (s : Session) : Nat → Table → Prop
  | same : Becomes s s.collection.generation s.collection.table
  | createColumn (name : String) (kind : Kind) :
    Becomes s s.collection.generation (Table.createColumn name kind s.collection.table).2
  | createIndex (name source : String) (predicate : Value → Bool) :
    Becomes s s.collection.generation
      (Table.createIndex name source predicate s.collection.table).2
  | insert (record : Record) :
    Becomes s s.collection.generation
      (Table.insert s.collection.config record s.collection.table).2
  | deleteAt (row : Nat) :
    Becomes s s.collection.generation (Table.deleteAt s.collection.config row s.collection.table).2
  | pass {t : Transaction} (ht : t ∈ s.transactions) {name : String} {slot : Nat} {column : Column}
    (hcolumn : t.schema.column? name = some (slot, column)) {σ : Type}
    (visitor : Transaction.Visitor σ) (state : σ) :
    Becomes s t.generation (Table.walk s.collection.config (t.passCursor s.collection slot column)
      visitor (t.due s.collection) state (t.table s.collection)).2
  | deleted {t : Transaction} (ht : t ∈ s.transactions) :
    Becomes s t.generation ((t.table s.collection).deleted t.selection.toList 0)

theorem Becomes.generation_le {generation : Nat} {table : Table}
    (hbecomes : s.Becomes generation table) (h : s.WellFormed) :
    generation ≤ s.collection.generation := by
  cases hbecomes with
  | pass ht => exact h.generation_le _ ht
  | deleted ht => exact h.generation_le _ ht
  | _ => exact le_rfl

/-- An operation but a load changes the contents of one generation. -/
theorem Holds.step_becomes (hholds : s.Holds) {op : Op} (hop : op.isLoad = false) :
    ∃ generation table, (s.step op).2.collection = s.collection.setTable generation table ∧
      s.Becomes generation table := by
  -- all but the passes and deletions of transactions work on the present contents
  have hcurrent : ∀ table, (s.step op).2.collection = { s.collection with table } →
      s.Becomes s.collection.generation table →
      ∃ generation table, (s.step op).2.collection = s.collection.setTable generation table ∧
        s.Becomes generation table := by
    intro table hsame hbecomes
    refine ⟨s.collection.generation, table, ?_, hbecomes⟩
    rw [Collection.setTable_of_le le_rfl]
    exact hsame
  cases op with
  | load source => cases hop
  | createColumn name kind => exact hcurrent _ rfl (.createColumn name kind)
  | createIndex name source predicate => exact hcurrent _ rfl (.createIndex name source predicate)
  | insert record => exact hcurrent _ rfl (.insert record)
  | deleteAt row => exact hcurrent _ rfl (.deleteAt row)
  | begin => exact hcurrent _ rfl .same
  | filter id filter =>
    refine hcurrent s.collection.table ?_ .same
    cases ht : s.transactions[id]? with
    | none => rw [step_filter_of_missing ht]
    | some t => rw [step_filter ht]
  | pass id name visitor state =>
    cases ht : s.transactions[id]? with
    | none => exact hcurrent s.collection.table (by rw [step, ht]) .same
    | some t =>
      have hmem := Array.mem_of_getElem? ht
      cases hcolumn : t.schema.column? name with
      | none =>
        refine hcurrent s.collection.table ?_ .same
        simp only [step, ht, Transaction.pass, Transaction.column, hcolumn]
      | some found =>
        have hname : t.column name = .ok found := by
          rw [Transaction.column, hcolumn]
        refine ⟨t.generation, _, ?_, .pass hmem hcolumn visitor state⟩
        simp only [step, ht, Transaction.pass_eq_walk (hholds.within t hmem) hname]
  | deleteAll id =>
    cases ht : s.transactions[id]? with
    | none => exact hcurrent s.collection.table (by rw [step, ht]) .same
    | some t =>
      refine ⟨t.generation, _, ?_, .deleted (Array.mem_of_getElem? ht)⟩
      simp only [step, ht, Transaction.deleteAll, Collection.changeTable_eq]
      rfl

/-- What an operation makes of contents that are held in form. -/
theorem Becomes.changes {generation : Nat} {table : Table} (hbecomes : s.Becomes generation table)
    (hholds : s.Holds) (h : s.WellFormed) :
    Changes s.collection.config (s.collection.tableOf generation) table := by
  cases hbecomes with
  | @pass t ht name slot column hcolumn σ visitor state =>
    have hplaces := Transaction.places_passCursor (hholds.within t ht) hcolumn
    have hlive : ∀ row ∈ t.due s.collection,
        (t.table s.collection).isLive s.collection.config row = true :=
      fun row hrow => (List.mem_filter.mp hrow).2
    have hheld : (t.table s.collection).Held s.collection.config :=
      hholds.held _ (h.generation_le t ht)
    obtain ⟨state', ended, log, table', hwalk, -, hfollows, hwritten, hcomposes⟩ :=
      hheld.walk_recorded hplaces h.table.chunkSize_pos visitor hlive state []
    rw [hwalk]
    exact .pass hplaces (Transaction.isLive_of_mem_edits hfollows) hwritten hcomposes
  | deleted ht =>
    obtain ⟨hheld, gone, hremoved⟩ :=
      (hholds.held _ (h.generation_le _ ht)).deleted (Array.toList _) 0
    exact .removed hheld hremoved
  | same =>
    rw [Collection.tableOf_generation]
    exact .none
  | createColumn name kind =>
    rw [Collection.tableOf_generation]
    exact .createColumn h.table name kind
  | createIndex name source predicate =>
    rw [Collection.tableOf_generation]
    exact .createIndex h.table name source predicate
  | insert record =>
    rw [Collection.tableOf_generation]
    exact .insert h.table record
  | deleteAt row =>
    rw [Collection.tableOf_generation]
    exact .deleteAt h.table row

/-- An operation but a load changes the contents of one generation, in one of the ways of
    `Table.Changes`. -/
theorem Holds.step_setTable (hholds : s.Holds) (h : s.WellFormed) {op : Op}
    (hop : op.isLoad = false) :
    ∃ generation ≤ s.collection.generation, ∃ table,
      (s.step op).2.collection = s.collection.setTable generation table ∧
      Changes s.collection.config (s.collection.tableOf generation) table := by
  obtain ⟨generation, table, hset, hbecomes⟩ := hholds.step_becomes hop
  exact ⟨generation, hbecomes.generation_le h, table, hset, hbecomes.changes hholds h⟩

/-- A transaction stays within the contents as the operation finds them. -/
theorem Holds.within_step (hholds : s.Holds) (op : Op) {id : Nat} {t : Transaction}
    (ht : s.transactions[id]? = some t) :
    ∃ t', (s.step op).2.transactions[id]? = some t' ∧ t'.generation = t.generation ∧
      t'.Within s.collection.config (t.table s.collection) := by
  have hwithin := hholds.within t (Array.mem_of_getElem? ht)
  cases hnarrows : op.narrows id with
  | false => exact ⟨t, (getElem?_step_of_not_narrows hnarrows ht).1, rfl, hwithin⟩
  | true =>
    cases op with
    | filter i filter =>
      obtain rfl : i = id := beq_iff_eq.mp hnarrows
      obtain ⟨selection, hsame⟩ := Transaction.exists_selection_refine s.collection t filter
      refine ⟨_, ?_, ?_, hwithin.refine filter⟩
      · rw [step_filter ht]
        exact getElem?_setIfInBounds_self ht _
      · rw [hsame]
    | deleteAll i =>
      obtain rfl : i = id := beq_iff_eq.mp hnarrows
      refine ⟨{ t with selection := t.selection.map Bitmap.reset }, ?_, rfl, hwithin.reset⟩
      simp only [step, ht]
      exact getElem?_setIfInBounds_self ht _
    | _ => cases hnarrows

/-- The transactions after an operation, by the contents before it. -/
theorem Holds.within_of_mem_step (hholds : s.Holds) (h : s.WellFormed) (op : Op) :
    ∀ t' ∈ (s.step op).2.transactions, t'.generation ≤ s.collection.generation ∧
      t'.Within s.collection.config (t'.table s.collection) := by
  intro t' ht'
  obtain ⟨id, hid⟩ := Array.mem_iff_getElem?.mp ht'
  rcases Nat.lt_or_ge id s.transactions.size with hlt | hle
  · have ht := Array.getElem?_eq_getElem hlt
    have hmem := Array.mem_of_getElem? ht
    obtain ⟨t₁, ht₁, hgen, hwithin⟩ := hholds.within_step op ht
    obtain rfl : t₁ = t' := Option.some.inj (ht₁.symm.trans hid)
    refine ⟨hgen.trans_le (h.generation_le _ hmem), ?_⟩
    rw [Transaction.table, hgen]
    exact hwithin
  · obtain ⟨rfl, -, -⟩ := s.getElem?_step_of_le op hle hid
    refine ⟨le_rfl, ?_⟩
    rw [Transaction.table_of_current rfl]
    exact (Transaction.open_start h.table).within

/-- Every operation keeps the contents of all generations in form. -/
theorem Holds.step (hholds : s.Holds) (h : s.WellFormed) (op : Op) : (s.step op).2.Holds := by
  have hmem := hholds.within_of_mem_step h op
  cases hop : op.isLoad with
  | false =>
    have hsteps := h.step_steps hop
    obtain ⟨generation, hgen, table, hset, hchanges⟩ := hholds.step_setTable h hop
    have hkeeps := hchanges.keeps (hholds.held generation hgen)
    have hkeeps' : ∀ other ≤ s.collection.generation, Keeps s.collection.config
        (s.collection.tableOf other) ((s.step op).2.collection.tableOf other) := by
      intro other hother
      rw [hset, Collection.tableOf_setTable hgen hother]
      split_ifs with heq
      · exact heq ▸ hkeeps
      · exact (hholds.held other hother).keeps
    refine ⟨fun other hother => ?_, fun t' ht' => ?_⟩
    · rw [hsteps.config]
      exact (hkeeps' other (hother.trans_eq hsteps.generation)).held
    · rw [hsteps.config]
      exact (hmem t' ht').2.keeps (hkeeps' _ (hmem t' ht').1)
  | true =>
    cases op with
    | load source =>
      have hwf := (h.load source).table
      rw [Session.step] at hwf hmem ⊢
      rcases s.collection.load_outcome source with ⟨e, hload⟩ | ⟨table, -, hload⟩
      · rw [hload]
        exact hholds
      · rw [hload] at hwf hmem ⊢
        have htable := fun other (hother : other ≤ s.collection.generation + 1) =>
          Collection.tableOf_replaceTable hother table
        refine ⟨fun other hother => ?_, fun t' ht' => ?_⟩
        · show ((s.collection.replaceTable table).tableOf other).Held s.collection.config
          rw [htable other (hother.trans_eq (Array.size_push ..))]
          split_ifs with hle
          · exact hholds.held other hle
          · exact hwf.held
        · obtain ⟨hle, hwithin⟩ := hmem t' ht'
          show t'.Within _ ((s.collection.replaceTable table).tableOf t'.generation)
          rw [htable _ (hle.trans (Nat.le_succ _)), if_pos hle]
          exact hwithin
    | _ => cases hop

end Session

/-- In every session the contents of all generations are in form. -/
theorem Reachable.holds {s : Session} (h : Reachable s) : s.Holds := by
  induction h with
  | new capacity => exact (Reachable.new capacity).wellFormed.holds rfl
  | @withConfig config c hc =>
    refine (Reachable.withConfig hc).wellFormed.holds ?_
    obtain ⟨-, rfl⟩ := Collection.build_of_withConfig hc
    rfl
  | step h op ih => exact ih.step h.wellFormed op

/-- A pass over a column that its transaction knows. The rows due are the selected ones that are
    live when it starts, ascending. The pass calls its visitor at each of them in this order, once,
    to the end or up to the first call that stops or fails, and ends accordingly. It leaves what the
    writes of these calls make of the contents one after the other; one that fails, for the type of
    its value or an unknown column, changes nothing. Other contents, and every selection, stay. -/
theorem Reachable.pass_follows {s : Session} (h : Reachable s) {id : Nat} {t : Transaction}
    (ht : s.transactions[id]? = some t) {name : String} {slot : Nat} {column : Column}
    (hcolumn : t.schema.column? name = some (slot, column)) {σ : Type}
    (visitor : Transaction.Visitor σ) (state : σ) :
    (t.due s.collection).Pairwise (· < ·) ∧
    (∀ row, row ∈ t.due s.collection ↔ row ∈ t.rows s.collection ∧
      (t.table s.collection).isLive s.collection.config row = true) ∧
    ∃ state' ended log table,
      s.step (.pass id name visitor state) = (some (state', ended),
        { s with collection := s.collection.setTable t.generation table }) ∧
      s.step (.pass id name (Transaction.recorded visitor) (state, [])) =
        (some ((state', log), ended),
          { s with collection := s.collection.setTable t.generation table }) ∧
      Follows (t.due s.collection) log ended ∧
      Table.Composes s.collection.config (t.passCursor s.collection slot column)
        (t.table s.collection) (Table.edits log) table := by
  have hmem := Array.mem_of_getElem? ht
  have hwithin := h.holds.within t hmem
  have hheld := h.holds.held _ (h.wellFormed.generation_le t hmem)
  obtain ⟨state', ended, log, table, hpass, hrecorded, hfollows, -, hcomposes⟩ :=
    Transaction.pass_recorded hheld hwithin h.wellFormed.table.chunkSize_pos hcolumn visitor state
  refine ⟨?_, fun row => List.mem_filter, state', ended, log, table, ?_, ?_, hfollows, hcomposes⟩
  · rw [Transaction.due, Transaction.rows_eq]
    exact (Selection.rowsFrom_pairwise hwithin.bounded 0).filter _
  · simp only [Session.step, ht, hpass]
    rfl
  · simp only [Session.step, ht, hrecorded]
    rfl

/-- Turns a flag over, after an attempt to put a text in its place. -/
def Transaction.turnOver : Transaction.Visitor Unit := fun _ _ =>
  .value fun v => .write (.string "") fun _ => .write (.bool !v.any Value.isTrue) fun _ =>
    .done ((), .ok true)

/-- A pass that turns the flags of two rows over, those that are indexed among them. -/
theorem pass_follows_flags :
    ∃ ended log table,
      ((Session.flags.step .begin).2.step (.pass 0 "flag" Transaction.turnOver ())).1 =
        some ((), ended) ∧
      Follows [0, 1] log ended ∧
      Table.Composes Session.flags.collection.config
        ((Transaction.start Session.flags.collection).passCursor Session.flags.collection 0
          ⟨"flag", .bool⟩) Session.flags.collection.table (Table.edits log) table := by
  have hcolumn : (Transaction.start Session.flags.collection).schema.column? "flag" =
      some (0, ⟨"flag", .bool⟩) := by
    decide +kernel
  have hdue : (Transaction.start Session.flags.collection).due Session.flags.collection =
      [0, 1] := by
    decide +kernel
  have hopened : (Session.flags.step .begin).2.transactions[0]? =
      some (.start Session.flags.collection) := rfl
  obtain ⟨-, -, state', ended, log, table, hstep, -, hfollows, hcomposes⟩ :=
    (reachable_flags.step .begin).pass_follows hopened hcolumn Transaction.turnOver ()
  exact ⟨ended, log, table, congrArg Prod.fst hstep, hdue ▸ hfollows, hcomposes⟩

end ColumnStore
