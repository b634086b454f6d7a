import ColumnStore.Proofs.Snapshot.Load
import ColumnStore.Proofs.Table.Define
import ColumnStore.Proofs.Table.Insert
import ColumnStore.Proofs.Transaction.Filter
import ColumnStore.Proofs.Transaction.Pass

/-!
# Sessions

A session is a collection with the transactions opened on it. Operations on the collection, filters,
passes and deletions of any of its transactions, and loads of any bytes follow one another in any
order (`Op`, `Session.step`). `Reachable` sessions start from an empty collection with a usable
configuration.

`Session.WellFormed` holds of every reachable session (`Reachable.wellFormed`): the table is
well-formed, and a transaction whose contents were not retired is open on it. A step that is not a
load advances the table (`Session.WellFormed.step_steps`).
-/

namespace ColumnStore

/-! ## Operations -/

/-- An operation on a collection or on one of its transactions, which are numbered in the order of
    their opening. -/
inductive Op : Type 1 where
  | createColumn (name : String) (kind : Kind)
  | createIndex (name source : String) (predicate : Value → Bool)
  | insert (record : Record)
  | deleteAt (row : Nat)
  | load (source : Source)
  | begin
  | filter (id : Nat) (filter : Filter)
  | pass {σ : Type} (id : Nat) (column : String) (visitor : Transaction.Visitor σ) (state : σ)
  | deleteAll (id : Nat)

namespace Op

/-- What an operation answers; none if there is no such transaction. -/
def Answer : Op → Type
  | createColumn .. => Except Error Unit
  | createIndex .. => Except Error Unit
  | insert _ => Except Error Nat
  | deleteAt _ => Except Error Bool
  | load _ => Except Error Unit
  | begin => Unit
  | filter .. => Option (Except Error Unit)
  | @pass σ .. => Option (σ × Except Error Unit)
  | deleteAll _ => Option Nat

/-- Whether the operation is a load. -/
def isLoad : Op → Bool
  | load _ => true
  | _ => false

end Op

/-- A collection and the transactions opened on it. -/
structure Session where
  collection : Collection
  transactions : Array Transaction

namespace Session

/-- A collection without transactions. -/
def start (c : Collection) : Session := ⟨c, #[]⟩

/-- Carries out an operation. -/
def step (s : Session) : (op : Op) → op.Answer × Session
  | .createColumn name kind =>
    let (answer, c) := s.collection.createColumn name kind
    (answer, { s with collection := c })
  | .createIndex name source predicate =>
    let (answer, c) := s.collection.createIndex name source predicate
    (answer, { s with collection := c })
  | .insert record =>
    let (answer, c) := s.collection.insert record
    (answer, { s with collection := c })
  | .deleteAt row =>
    let (answer, c) := s.collection.deleteAt row
    (answer, { s with collection := c })
  | .load source =>
    let (answer, c) := s.collection.load source
    (answer, { s with collection := c })
  | .begin => ((), { s with transactions := s.transactions.push (.start s.collection) })
  | .filter id filter =>
    match s.transactions[id]? with
    | none => (none, s)
    | some t =>
      match filter.apply t s.collection with
      | .error e => (some (.error e), s)
      | .ok t => (some (.ok ()), { s with transactions := s.transactions.setIfInBounds id t })
  | .pass id column visitor state =>
    match s.transactions[id]? with
    | none => (none, s)
    | some t =>
      let (state, ended, c) := t.pass s.collection column visitor state
      (some (state, ended), { s with collection := c })
  | .deleteAll id =>
    match s.transactions[id]? with
    | none => (none, s)
    | some t =>
      let (removed, t, c) := t.deleteAll s.collection
      (some removed, ⟨c, s.transactions.setIfInBounds id t⟩)

/-- Carries out operations in order. -/
def run (s : Session) (ops : List Op) : Session := ops.foldl (fun s op => (s.step op).2) s

end Session

/-- The sessions that come about. -/
inductive Reachable : Session → Prop where
  | new (capacity : Nat) : Reachable (.start (.new capacity))
  | withConfig {config : Config} {c : Collection} (h : Collection.withConfig config = .ok c) :
    Reachable (.start c)
  | step {s : Session} (h : Reachable s) (op : Op) : Reachable (s.step op).2

theorem Reachable.run {s : Session} (h : Reachable s) (ops : List Op) : Reachable (s.run ops) := by
  induction ops generalizing s with
  | nil => exact h
  | cons op rest ih => exact ih (h.step op)

/-! ## What an operation does to a table -/

namespace Table

variable {config : Config} {table : Table}

/-- A step between well-formed tables that hold the same contents. -/
structure Steps (config : Config) (table table' : Table) : Prop where
  wellFormed : table'.WellFormed config
  advances : Advances config table table'
  tidy : table.Tidy config → table'.Tidy config

theorem WellFormed.steps_refl (h : table.WellFormed config) : Steps config table table :=
  ⟨h, Advances.refl config table, id⟩

theorem WellFormed.createColumn_steps (h : table.WellFormed config) (name : String) (kind : Kind) :
    Steps config table (Table.createColumn name kind table).2 := by
  cases htaken : table.schema.isTaken name with
  | true =>
    rw [createColumn_of_taken htaken]
    exact h.steps_refl
  | false =>
    rw [createColumn_of_free htaken]
    refine ⟨h.createColumn htaken, advances_withColumn table _, fun htidy row hrow => ?_⟩
    have hv := htidy row hrow
    exact ⟨hv.isLive, hv.cell?, hv.marks⟩

theorem WellFormed.createIndex_steps (h : table.WellFormed config) (name source : String)
    (predicate : Value → Bool) :
    Steps config table (Table.createIndex name source predicate table).2 := by
  cases hreg : registerIndex table.schema name source predicate with
  | error e =>
    rw [createIndex_of_error hreg]
    exact h.steps_refl
  | ok result =>
    obtain ⟨schema', slot, index⟩ := result
    have hregisters := registers_of_ok h.schema hreg
    rw [createIndex_of_ok hreg]
    refine ⟨h.createIndex hregisters, h.advances_withIndex hregisters, fun htidy row hrow => ?_⟩
    rw [h.isLive_withIndex hregisters] at hrow
    exact h.vacant_withIndex hregisters (htidy row hrow)

theorem WellFormed.insert_steps (h : table.WellFormed config) (record : Record) :
    Steps config table (Table.insert config record table).2 := by
  cases hfind : (fields table.schema record).find? illTyped with
  | some field =>
    obtain ⟨slot, column, value⟩ := field
    rw [insert_of_illTyped hfind]
    exact h.steps_refl
  | none =>
    obtain ⟨table', hinsert, hwf, hins⟩ := h.insert hfind
    rw [hinsert]
    exact ⟨hwf, hins.advances, hins.tidy⟩

theorem WellFormed.deleteAt_steps (h : table.WellFormed config) (row : Nat) :
    Steps config table (Table.deleteAt config row table).2 := by
  rcases Nat.lt_or_ge row table.nextRow with hrow | hrow
  · cases hlive : table.isLive config row with
    | true =>
      obtain ⟨table', hdelete, hwf, hrem, -⟩ := h.deleteAt_of_live hlive
      rw [hdelete]
      exact ⟨hwf, hrem.advances, hrem.tidy⟩
    | false =>
      rw [h.deleteAt_of_not_live hrow hlive]
      exact h.steps_refl
  · rw [h.deleteAt_of_le hrow]
    exact h.steps_refl

end Table

/-! ## Contents of a generation -/

namespace Collection

variable {α : Type}

/-- Retired contents can be changed without touching the present ones. -/
theorem changeTable_of_lt (c : Collection) {generation : Nat} (h : generation < c.retired.size)
    (f : Table → α × Table) :
    (c.changeTable generation f).2.config = c.config ∧
      (c.changeTable generation f).2.table = c.table ∧
      (c.changeTable generation f).2.generation = c.generation := by
  unfold changeTable
  rw [dif_pos h]
  exact ⟨rfl, rfl, Array.size_set h⟩

theorem changeTable_generation (c : Collection) (f : Table → α × Table) :
    c.changeTable c.generation f = ((f c.table).1, { c with table := (f c.table).2 }) := by
  unfold changeTable generation
  rw [dif_neg (Nat.lt_irrefl _)]

theorem tableOf_generation (c : Collection) : c.tableOf c.generation = c.table := by
  rw [tableOf, generation, Array.getElem?_eq_none le_rfl, Option.getD_none]

/-- A load changes nothing, or it retires the present contents for those it reads. -/
theorem load_outcome (c : Collection) (source : Source) :
    (∃ e, c.load source = (.error e, c)) ∨
      ∃ table, Snapshot.decode c.chunkSize c.table.schema source.bytes = .ok table ∧
        c.load source = (.ok (), c.replaceTable table) := by
  unfold load loadBytes
  cases source.failure with
  | some text => exact Or.inl ⟨_, rfl⟩
  | none =>
    cases Snapshot.decode c.chunkSize c.table.schema source.bytes with
    | error cause => exact Or.inl ⟨_, rfl⟩
    | ok table => exact Or.inr ⟨table, rfl, rfl⟩

/-- A load that fails changes nothing. -/
theorem load_of_error {c : Collection} {source : Source} {e : Error}
    (h : (c.load source).1 = .error e) : (c.load source).2 = c := by
  rcases c.load_outcome source with ⟨e', hload⟩ | ⟨table, -, hload⟩
  · rw [hload]
  · rw [hload] at h
    cases h

/-- The live rows are those that can be fetched. -/
theorem isSome_fetch {c : Collection} (h : c.table.WellFormed c.config) (row : Nat) :
    (c.fetch row).isSome = c.table.isLive c.config row := by
  rw [fetch, h.fetch_eq]
  cases c.table.isLive c.config row <;> rfl

end Collection

namespace Transaction

open Selection (rowsFrom mem_rowsFrom)

variable {c : Collection} {t : Transaction} {σ : Type}

theorem table_of_current (h : t.generation = c.generation) : t.table c = c.table := by
  rw [Transaction.table, h, Collection.tableOf_generation]

/-- A pass by a transaction that is open is the pass over the rows. -/
theorem Open.pass (ht : t.Open c.config c.table) (h : c.table.WellFormed c.config)
    (hgen : t.generation = c.generation) {name : String} {slot : Nat} {column : Column}
    (hcolumn : t.column name = .ok (slot, column)) (visitor : Visitor σ) (state : σ) :
    ∃ dictionaries chunks,
      t.pass c name visitor state =
        ((visitRows visitor c.table.schema.columns.toList column (t.rows c) state
            (c.table.rows c.config)).1.1,
          (visitRows visitor c.table.schema.columns.toList column (t.rows c) state
            (c.table.rows c.config)).1.2.map fun _ => (),
          { c with table := { c.table with dictionaries, chunks } }) ∧
      ({ c.table with dictionaries, chunks } : Table).WellFormed c.config ∧
      ({ c.table with dictionaries, chunks } : Table).rows c.config =
        (visitRows visitor c.table.schema.columns.toList column (t.rows c) state
          (c.table.rows c.config)).2 ∧
      Table.Visited c.config c.table { c.table with dictionaries, chunks } := by
  have hfound : c.table.schema.columns[slot]? = some column := by
    unfold Transaction.column at hcolumn
    cases hc : t.schema.column? name with
    | none => simp [hc] at hcolumn
    | some found =>
      simp only [hc, Except.ok.injEq] at hcolumn
      subst hcolumn
      exact ht.extends_.columns slot column (Schema.exists_of_column? hc).1
  have hsize : 0 + t.selection.toList.length ≤ c.table.chunks.size := by
    rw [Nat.zero_add, Array.length_toList]
    exact ht.size_le
  obtain ⟨dictionaries, chunks, hvisit, hwf, hrows, hvisited⟩ :=
    h.visitChunks hfound visitor ht.bounded hsize state
  refine ⟨dictionaries, chunks, ?_, hwf, hrows, hvisited⟩
  unfold Transaction.pass passSchema
  simp only [hcolumn, hgen, if_true, Collection.changeTable_generation]
  rw [show c.chunkSize = c.config.chunkSize from rfl, hvisit]
  rfl

/-- Deleting what an open transaction selects. -/
theorem deleteAll_of_current (hgen : t.generation = c.generation) :
    t.deleteAll c = ((deleteFrom t.selection.toList 0 c.table.chunks).1,
      { t with selection := t.selection.map Bitmap.reset },
      { c with table := c.table.deleted t.selection.toList 0 }) := by
  unfold deleteAll
  rw [hgen, Collection.changeTable_generation]
  rfl

theorem rowsFrom_reset (chunkSize : Nat) (bitmaps : List Bitmap) (id : Nat) :
    rowsFrom chunkSize (bitmaps.map Bitmap.reset) id = [] := by
  induction bitmaps generalizing id with
  | nil => rfl
  | cons bits rest ih =>
    have hnil : bits.reset.toList = [] := by
      rw [List.eq_nil_iff_forall_not_mem]
      intro offset hmem
      rw [Bitmap.mem_toList, Bitmap.contains_reset] at hmem
      cases hmem
    rw [List.map_cons, Selection.rowsFrom_cons, hnil, ih]
    rfl

theorem bounded_reset (t : Transaction) (chunkSize : Nat) :
    Selection.Bounded chunkSize (t.selection.map Bitmap.reset).toList := by
  rw [Array.toList_map]
  intro bits hbits offset hoffset
  obtain ⟨old, -, rfl⟩ := List.mem_map.mp hbits
  rw [Bitmap.contains_reset] at hoffset
  cases hoffset

/-- A transaction that was emptied is open still, and selects nothing. -/
theorem Open.reset {config : Config} {table : Table} (h : t.Open config table) :
    ({ t with selection := t.selection.map Bitmap.reset } : Transaction).Open config table := by
  have hbounded := t.bounded_reset config.chunkSize
  refine ⟨h.schema, h.extends_, (Nat.le_of_eq (Array.size_map ..)).trans h.size_le, hbounded,
    fun row hrow => ?_⟩
  rw [← mem_rowsFrom hbounded, Array.toList_map, rowsFrom_reset] at hrow
  cases hrow

end Transaction

/-! ## The invariant of sessions -/

namespace Session

/-- The invariant of a session. -/
structure WellFormed (s : Session) : Prop where
  table : s.collection.table.WellFormed s.collection.config
  generation_le : ∀ t ∈ s.transactions, t.generation ≤ s.collection.generation
  current : ∀ t ∈ s.transactions, t.generation = s.collection.generation →
    t.Open s.collection.config s.collection.table

/-- A step that keeps the contents. -/
structure Steps (s s' : Session) : Prop where
  config : s'.collection.config = s.collection.config
  generation : s'.collection.generation = s.collection.generation
  table : Table.Steps s.collection.config s.collection.table s'.collection.table

variable {s : Session}

theorem wellFormed_start {config : Config} (h : config.fault? = none) :
    (start (Collection.build config)).WellFormed :=
  ⟨Table.wellFormed_empty h, by simp [start], by simp [start]⟩

/-- Transactions stay open while the contents stay. -/
theorem WellFormed.of_steps (h : s.WellFormed) {s' : Session} (hsteps : s.Steps s')
    (htransactions : ∀ t ∈ s'.transactions, t ∈ s.transactions ∨
      t.generation ≤ s.collection.generation ∧ (t.generation = s.collection.generation →
        t.Open s.collection.config s'.collection.table)) : s'.WellFormed where
  table := by
    rw [hsteps.config]
    exact hsteps.table.wellFormed
  generation_le t ht := by
    rw [hsteps.generation]
    exact (htransactions t ht).elim (h.generation_le t) And.left
  current t ht hgen := by
    rw [hsteps.generation] at hgen
    rw [hsteps.config]
    rcases htransactions t ht with hold | ⟨-, hopen⟩
    · exact (h.current t hold hgen).advance hsteps.table.advances
    · exact hopen hgen

/-- Changing retired contents keeps the present ones. -/
theorem WellFormed.changeTable_steps {α : Type} (h : s.WellFormed) {generation : Nat}
    (hlt : generation < s.collection.generation) (f : Table → α × Table)
    (transactions : Array Transaction) :
    s.Steps ⟨(s.collection.changeTable generation f).2, transactions⟩ := by
  obtain ⟨hconfig, htable, hgeneration⟩ := s.collection.changeTable_of_lt hlt f
  refine ⟨hconfig, hgeneration, ?_⟩
  show Table.Steps _ _ (s.collection.changeTable generation f).2.table
  rw [htable]
  exact h.table.steps_refl

/-- A pass of a transaction writes to its own contents; if these were retired, the present ones are
    not touched. -/
theorem WellFormed.pass_steps (h : s.WellFormed) {t : Transaction} (ht : t ∈ s.transactions)
    {σ : Type} (column : String) (visitor : Transaction.Visitor σ) (state : σ) :
    s.Steps { s with collection := (t.pass s.collection column visitor state).2.2 } := by
  cases hcolumn : t.column column with
  | error e =>
    simp only [Transaction.pass, hcolumn]
    exact ⟨rfl, rfl, h.table.steps_refl⟩
  | ok found =>
    obtain ⟨slot, found⟩ := found
    rcases Nat.lt_or_eq_of_le (h.generation_le t ht) with hlt | hgen
    · unfold Transaction.pass
      simp only [hcolumn]
      exact h.changeTable_steps hlt _ _
    · obtain ⟨dictionaries, chunks, hpass, hwf, -, hvisited⟩ :=
        (h.current t ht hgen).pass h.table hgen hcolumn visitor state
      rw [hpass]
      exact ⟨rfl, rfl, hwf, hvisited.advances, hvisited.tidy⟩

/-- A transaction deletes from its own contents. -/
theorem WellFormed.deleteAll_steps (h : s.WellFormed) {t : Transaction} (ht : t ∈ s.transactions)
    (transactions : Array Transaction) :
    s.Steps ⟨(t.deleteAll s.collection).2.2, transactions⟩ := by
  rcases Nat.lt_or_eq_of_le (h.generation_le t ht) with hlt | hgen
  · unfold Transaction.deleteAll
    exact h.changeTable_steps hlt _ _
  · obtain ⟨hwf, hrem, -⟩ := h.table.deleteFrom t.selection.toList 0
    rw [Transaction.deleteAll_of_current hgen]
    exact ⟨rfl, rfl, hwf, hrem.advances, hrem.tidy⟩

/-- Every operation but a load keeps the contents: the table steps, whether or not the operation
    succeeds. -/
theorem WellFormed.step_steps (h : s.WellFormed) {op : Op} (hop : op.isLoad = false) :
    s.Steps (s.step op).2 := by
  have hsame : s.Steps s := ⟨rfl, rfl, h.table.steps_refl⟩
  cases op with
  | load source => cases hop
  | createColumn name kind => exact ⟨rfl, rfl, h.table.createColumn_steps name kind⟩
  | createIndex name source predicate =>
    exact ⟨rfl, rfl, h.table.createIndex_steps name source predicate⟩
  | insert record => exact ⟨rfl, rfl, h.table.insert_steps record⟩
  | deleteAt row => exact ⟨rfl, rfl, h.table.deleteAt_steps row⟩
  | begin => exact ⟨rfl, rfl, h.table.steps_refl⟩
  | filter id filter =>
    rw [step]
    cases s.transactions[id]? with
    | none => exact hsame
    | some t =>
      simp only
      cases filter.apply t s.collection with
      | error e => exact hsame
      | ok t' => exact ⟨rfl, rfl, h.table.steps_refl⟩
  | pass id column visitor state =>
    rw [step]
    cases ht : s.transactions[id]? with
    | none => exact hsame
    | some t => exact h.pass_steps (Array.mem_of_getElem? ht) column visitor state
  | deleteAll id =>
    rw [step]
    cases ht : s.transactions[id]? with
    | none => exact hsame
    | some t => exact h.deleteAll_steps (Array.mem_of_getElem? ht) _

/-- The transactions after an operation that is not a load. -/
theorem WellFormed.transactions_step (h : s.WellFormed) {op : Op} (hop : op.isLoad = false) :
    ∀ t ∈ (s.step op).2.transactions, t ∈ s.transactions ∨
      t.generation ≤ s.collection.generation ∧ (t.generation = s.collection.generation →
        t.Open s.collection.config (s.step op).2.collection.table) := by
  intro t' ht'
  have hsteps := h.step_steps hop
  cases op with
  | load source => cases hop
  | begin =>
    rcases Array.mem_push.mp ht' with hold | rfl
    · exact Or.inl hold
    · exact Or.inr ⟨le_rfl, fun _ => Transaction.open_start h.table⟩
  | filter id filter =>
    rw [step] at ht' hsteps ⊢
    cases ht : s.transactions[id]? with
    | none => exact Or.inl (by simpa [ht] using ht')
    | some t =>
      have hmem := Array.mem_of_getElem? ht
      simp only [ht] at ht' hsteps ⊢
      cases happly : filter.apply t s.collection with
      | error e => exact Or.inl (by simpa [happly] using ht')
      | ok t₁ =>
        simp only [happly] at ht' hsteps ⊢
        rcases Array.mem_or_eq_of_mem_setIfInBounds ht' with hold | rfl
        · exact Or.inl hold
        · obtain ⟨judge, hnarrow⟩ := Transaction.narrow_of_apply happly
          have hgen₁ : t'.generation = t.generation := by rw [hnarrow]; rfl
          refine Or.inr ⟨hgen₁ ▸ h.generation_le t hmem, fun hgen => ?_⟩
          rw [hgen₁] at hgen
          exact ((h.current t hmem hgen).apply h.table (Transaction.table_of_current hgen) happly).1
  | deleteAll id =>
    rw [step] at ht' hsteps ⊢
    cases ht : s.transactions[id]? with
    | none => exact Or.inl (by simpa [ht] using ht')
    | some t =>
      have hmem := Array.mem_of_getElem? ht
      simp only [ht] at ht' hsteps ⊢
      rcases Array.mem_or_eq_of_mem_setIfInBounds ht' with hold | rfl
      · exact Or.inl hold
      · refine Or.inr ⟨h.generation_le t hmem, fun hgen => ?_⟩
        exact (h.current t hmem hgen).reset.advance hsteps.table.advances
  | pass id column visitor state =>
    rw [step] at ht'
    cases ht : s.transactions[id]? with
    | none => exact Or.inl (by simpa [ht] using ht')
    | some t => exact Or.inl (by simpa [ht] using ht')
  | createColumn name kind => exact Or.inl ht'
  | createIndex name source predicate => exact Or.inl ht'
  | insert record => exact Or.inl ht'
  | deleteAt row => exact Or.inl ht'

/-- A load starts a new generation, or changes nothing. -/
theorem WellFormed.load (h : s.WellFormed) (source : Source) :
    (s.step (.load source)).2.WellFormed := by
  rw [step]
  rcases s.collection.load_outcome source with ⟨e, hload⟩ | ⟨table, hdecode, hload⟩
  · rw [hload]
    exact h
  · have hgen : (s.collection.replaceTable table).generation = s.collection.generation + 1 :=
      Array.size_push ..
    rw [hload]
    refine ⟨Snapshot.wellFormed_of_decode h.table.usable hdecode, fun t ht => ?_,
      fun t ht hcurrent => ?_⟩
    · have := h.generation_le t ht
      show t.generation ≤ (s.collection.replaceTable table).generation
      omega
    · have := h.generation_le t ht
      rw [show t.generation = (s.collection.replaceTable table).generation from hcurrent] at this
      omega

/-- Every operation keeps the invariant. -/
theorem WellFormed.step (h : s.WellFormed) (op : Op) : (s.step op).2.WellFormed := by
  cases hop : op.isLoad with
  | false => exact h.of_steps (h.step_steps hop) (h.transactions_step hop)
  | true =>
    cases op with
    | load source => exact h.load source
    | _ => cases hop

end Session

/-- A collection is built with any configuration that is usable, and no other. -/
theorem Collection.build_of_withConfig {config : Config} {c : Collection}
    (h : withConfig config = .ok c) : config.fault? = none ∧ c = build config := by
  unfold withConfig at h
  cases hfault : config.fault? with
  | some fault => simp [hfault] at h
  | none =>
    simp only [hfault, Except.ok.injEq] at h
    exact ⟨rfl, h.symm⟩

theorem Config.fault?_withCapacity (capacity : Nat) :
    (Config.withCapacity capacity).fault? = none := by
  have hpower : Config.isPowerOfTwo 16384 = true := by decide
  simp [Config.fault?, Config.withCapacity, Config.minChunkSize, Config.maxChunkSize, hpower]

/-- The invariant holds of every session that comes about. -/
theorem Reachable.wellFormed {s : Session} (h : Reachable s) : s.WellFormed := by
  induction h with
  | new capacity => exact Session.wellFormed_start (Config.fault?_withCapacity capacity)
  | @withConfig config c hc =>
    obtain ⟨hfault, rfl⟩ := Collection.build_of_withConfig hc
    exact Session.wellFormed_start hfault
  | step h op ih => exact ih.step op

/-! ## A small session -/

/-- Whether a value is the truth value `true`. -/
def Value.isTrue (v : Value) : Bool := v.asBool? == some true

/-- Two rows with a flag; the index of the set flags was created between them. -/
def Session.flags : Session :=
  (start (.new 2)).run [.createColumn "flag" .bool, .insert [("flag", .bool true)],
    .createIndex "set" "flag" Value.isTrue, .insert [("flag", .bool false)]]

theorem reachable_flags : Reachable Session.flags := (Reachable.new 2).run _

end ColumnStore
