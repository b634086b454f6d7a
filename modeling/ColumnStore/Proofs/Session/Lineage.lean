import ColumnStore.Proofs.Session.Passes
import ColumnStore.Proofs.Table.Lineage

/-!
# The schemas of a session over time

In a session a chunk is written under the schema of the collection or, in retired contents, under
that of a transaction. Both belong to the chain of schemas that the contents had (`Session.Uses`).

A log goes along with every session from its start (`SyncLogOf`), in which the schemas are written
down that the chunks of every generation are made under and synced with. However operations follow
one another, it is the history of the chunks, and the contents of every generation descend from
their chain.

* `Session.Holds.step_continues`: what one operation writes, and what it writes down;
* `Session.Descends.step`, `SyncLogOf.descends`: so it is in every session.
-/

namespace ColumnStore

/-! ## Operations -/

/-- For the contents of every generation what is written down of their chunks. -/
abbrev SyncLog := Nat → Syncs

namespace SyncLog

/-- Nothing is written down. -/
def empty : SyncLog := fun _ _ => []

/-- Writes down what is done to the contents of a generation. -/
def change (generation : Nat) (f : Syncs → Syncs) (log : SyncLog) : SyncLog :=
  Function.update log generation (f (log generation))

/-- The log after an operation of its session. The writes of a pass are those of its record. The
    chunks of contents that are read were made under the schema that was read with them. -/
def step (log : SyncLog) (s : Session) : Op → SyncLog
  | .createIndex name source predicate =>
    log.change s.collection.generation fun syncs =>
      syncs.createIndex name source predicate s.collection.table
  | .insert record =>
    log.change s.collection.generation fun syncs =>
      syncs.insert s.collection.config record s.collection.table
  | .load source =>
    match s.collection.load source with
    | (.ok (), c) => log.change c.generation fun _ _ => [c.table.schema]
    | (.error _, _) => log
  | .pass id name visitor state =>
    match s.transactions[id]? with
    | some t =>
      let ((_, calls), _) := t.pass s.collection name (Transaction.recorded visitor) (state, [])
      log.change t.generation fun syncs =>
        syncs.pass s.collection.chunkSize (t.passSchema s.collection) (Table.edits calls)
    | none => log
  | .createColumn .. => log
  | .deleteAt _ => log
  | .begin => log
  | .filter .. => log
  | .deleteAll _ => log

/-- The log after a run of its session. -/
def run (log : SyncLog) : Session → List Op → SyncLog
  | _, [] => log
  | s, op :: rest => (log.step s op).run (s.step op).2 rest

end SyncLog

namespace Session

open Table (Continues)

variable {s : Session} {log : SyncLog} {bytes : Bytes}

/-- The schemas in use in a generation: that of its contents and those of the transactions opened on
    them. -/
def Uses (s : Session) (generation : Nat) (schema : Schema) : Prop :=
  schema = (s.collection.tableOf generation).schema ∨
    ∃ t ∈ s.transactions, t.generation = generation ∧ t.schema = schema

/-- The contents of every generation descend, as it is written down, from a chain of schemas to
    which those in use belong. -/
structure Descends (s : Session) (log : SyncLog) : Prop where
  exists_past : ∀ generation ≤ s.collection.generation, ∃ past,
    (s.collection.tableOf generation).Descends s.collection.config past (log generation) ∧
      ∀ schema, s.Uses generation schema →
        schema ∈ (s.collection.tableOf generation).schema :: past

theorem uses_passSchema {t : Transaction} (ht : t ∈ s.transactions) :
    s.Uses t.generation (t.passSchema s.collection) := by
  unfold Transaction.passSchema
  split_ifs with hgen
  · rw [hgen]
    exact .inl (by rw [Collection.tableOf_generation])
  · exact .inr ⟨t, ht, rfl, rfl⟩

/-- What a pass writes, it writes under the schema that it works under. -/
theorem Holds.pass_continues (hholds : s.Holds) (h : s.WellFormed) {id : Nat} {t : Transaction}
    (ht : s.transactions[id]? = some t) (log : SyncLog) (name : String) {σ : Type}
    (visitor : Transaction.Visitor σ) (state : σ) :
    ∃ table syncs,
      (s.step (.pass id name visitor state)).2.collection =
        s.collection.setTable t.generation table ∧
      log.step s (.pass id name visitor state) = Function.update log t.generation syncs ∧
      Continues s.collection.config [t.passSchema s.collection] (t.table s.collection)
        (log t.generation) table syncs := by
  have hmem := Array.mem_of_getElem? ht
  cases hcolumn : t.schema.column? name with
  | none =>
    refine ⟨t.table s.collection, log t.generation, ?_, ?_, .refl ..⟩
    · rw [Transaction.table, Collection.setTable_tableOf]
      simp only [Session.step, ht, Transaction.pass, Transaction.column, hcolumn]
    · simp only [SyncLog.step, ht, Transaction.pass, Transaction.column, hcolumn]
      rfl
  | some found =>
    obtain ⟨slot, column⟩ := found
    obtain ⟨state', ended, calls, table, hpass, hrecorded, -, -, hcomposes⟩ :=
      Transaction.pass_recorded (hholds.held _ (h.generation_le t hmem)) (hholds.within t hmem)
        h.table.chunkSize_pos hcolumn visitor state
    refine ⟨table, _, ?_, ?_, hcomposes.continues fun _ => rfl⟩
    · simp only [Session.step, ht, hpass]
    · simp only [SyncLog.step, ht, hrecorded]
      rfl

/-- An operation but a load works on the contents of one generation. What it writes, it writes under
    schemas in use and writes down. -/
theorem Holds.step_continues (hholds : s.Holds) (h : s.WellFormed) (log : SyncLog) {op : Op}
    (hop : op.isLoad = false) :
    ∃ generation ≤ s.collection.generation, ∃ table syncs known,
      (s.step op).2.collection = s.collection.setTable generation table ∧
      log.step s op = Function.update log generation syncs ∧
      (∀ schema ∈ known, s.Uses generation schema) ∧
      Continues s.collection.config known (s.collection.tableOf generation) (log generation) table
        syncs := by
  -- all but the passes and deletions of transactions work on the present contents
  have hcurrent : ∀ table syncs, (s.step op).2.collection = { s.collection with table } →
      log.step s op = Function.update log s.collection.generation syncs →
      Continues s.collection.config [] s.collection.table (log s.collection.generation) table
        syncs →
      ∃ generation ≤ s.collection.generation, ∃ table syncs known,
        (s.step op).2.collection = s.collection.setTable generation table ∧
        log.step s op = Function.update log generation syncs ∧
        (∀ schema ∈ known, s.Uses generation schema) ∧
        Continues s.collection.config known (s.collection.tableOf generation) (log generation)
          table syncs := by
    intro table syncs hset hlog hcontinues
    refine ⟨s.collection.generation, le_rfl, table, syncs, [], ?_, hlog, by simp, ?_⟩
    · rw [Collection.setTable_of_le le_rfl]
      exact hset
    · rwa [Collection.tableOf_generation]
  -- and all but insertions, new indexes and passes write nothing down
  have hunchanged : ∀ {generation : Nat}, log.step s op = log →
      log.step s op = Function.update log generation (log generation) := fun hlog =>
    hlog.trans (Function.update_eq_self ..).symm
  cases op with
  | load source => cases hop
  | createColumn name kind =>
    exact hcurrent _ _ rfl (hunchanged rfl) (Table.createColumn_continues ..)
  | createIndex name source predicate =>
    exact hcurrent _ _ rfl rfl (h.table.createIndex_continues _ name source predicate)
  | insert record => exact hcurrent _ _ rfl rfl (h.table.insert_continues _ record)
  | deleteAt row => exact hcurrent _ _ rfl (hunchanged rfl) (Table.deleteAt_continues ..)
  | begin => exact hcurrent _ _ rfl (hunchanged rfl) (.refl ..)
  | filter id filter =>
    refine hcurrent s.collection.table _ ?_ (hunchanged rfl) (.refl ..)
    cases ht : s.transactions[id]? with
    | none => rw [step_filter_of_missing ht]
    | some t => rw [step_filter ht]
  | pass id name visitor state =>
    cases ht : s.transactions[id]? with
    | none =>
      refine hcurrent s.collection.table _ (by rw [Session.step, ht]) (hunchanged ?_) (.refl ..)
      rw [SyncLog.step, ht]
    | some t =>
      have hmem := Array.mem_of_getElem? ht
      obtain ⟨table, syncs, hset, hlog, hcontinues⟩ := hholds.pass_continues h ht log name visitor
        state
      refine ⟨t.generation, h.generation_le t hmem, table, syncs, _, hset, hlog,
        fun schema hschema => ?_, hcontinues⟩
      obtain rfl := List.mem_singleton.mp hschema
      exact uses_passSchema hmem
  | deleteAll id =>
    cases ht : s.transactions[id]? with
    | none =>
      exact hcurrent s.collection.table _ (by rw [Session.step, ht]) (hunchanged rfl) (.refl ..)
    | some t =>
      refine ⟨t.generation, h.generation_le t (Array.mem_of_getElem? ht),
        (t.table s.collection).deleted t.selection.toList 0, _, [], ?_, hunchanged rfl, by simp,
        Table.deleted_continues ..⟩
      simp only [Session.step, ht, Transaction.deleteAll, Collection.changeTable_eq]
      rfl

/-- A transaction keeps its schema, and a new one takes that of the collection. -/
theorem uses_of_mem_step (op : Op) {t' : Transaction} (ht' : t' ∈ (s.step op).2.transactions) :
    s.Uses t'.generation t'.schema := by
  obtain ⟨id, hid⟩ := Array.mem_iff_getElem?.mp ht'
  rcases Nat.lt_or_ge id s.transactions.size with hlt | hle
  · have ht := Array.getElem?_eq_getElem hlt
    obtain ⟨t₁, ht₁, hviews⟩ := s.views_step op ht
    obtain rfl : t₁ = t' := Option.some.inj (ht₁.symm.trans hid)
    exact .inr ⟨_, Array.mem_of_getElem? ht, hviews.generation.symm, hviews.schema.symm⟩
  · obtain ⟨rfl, -, -⟩ := s.getElem?_step_of_le op hle hid
    exact .inl (congrArg Table.schema s.collection.tableOf_generation.symm)

theorem descends_start (config : Config) (log : SyncLog) :
    (start (Collection.build config)).Descends log where
  exists_past generation hle := by
    refine ⟨[], ?_, ?_⟩
    · rw [Collection.tableOf_of_le (Nat.zero_le generation)]
      exact Table.descends_empty config _
    · rintro schema (rfl | ⟨t, ht, -⟩)
      · exact List.mem_cons_self
      · simp [start] at ht

/-- Contents that are read begin a chain of their own and leave the others. -/
theorem Descends.replaceTable (hd : s.Descends log) (h : s.WellFormed) {table : Table}
    (hdecode : Snapshot.decode s.collection.chunkSize s.collection.table.schema bytes = .ok table) :
    Descends ⟨s.collection.replaceTable table, s.transactions⟩
      (log.change (s.collection.replaceTable table).generation fun _ _ => [table.schema]) := by
  have hgen : (s.collection.replaceTable table).generation = s.collection.generation + 1 :=
    Array.size_push ..
  refine ⟨fun generation hle => ?_⟩
  have hle : generation ≤ s.collection.generation + 1 := hle.trans_eq hgen
  have htable := Collection.tableOf_replaceTable hle table
  rw [SyncLog.change, hgen]
  split_ifs at htable with hold
  · obtain ⟨past, hdescends, hpast⟩ := hd.exists_past generation hold
    rw [Function.update_of_ne (by omega), htable]
    refine ⟨past, hdescends, fun schema hschema => ?_⟩
    exact hpast schema (hschema.imp_left fun heq => heq.trans (congrArg Table.schema htable))
  · obtain rfl : generation = s.collection.generation + 1 := by omega
    rw [Function.update_self, htable]
    refine ⟨[], Snapshot.descends_of_decode hdecode, ?_⟩
    rintro schema (rfl | ⟨t, ht, hgen', -⟩)
    · rw [htable]
      exact List.mem_cons_self
    · -- a transaction is not of a generation that only begins
      have := h.generation_le t ht
      omega

/-- What is written to the contents of one generation under schemas in use leaves all contents with
    their chains. -/
theorem Descends.setTable (hd : s.Descends log) {c : Collection} {changed : Nat}
    (hchanged : changed ≤ s.collection.generation) {table : Table} {syncs : Syncs}
    {known : List Schema} (hset : c = s.collection.setTable changed table)
    (hknown : ∀ schema ∈ known, s.Uses changed schema)
    (hcontinues : Continues s.collection.config known (s.collection.tableOf changed) (log changed)
      table syncs) :
    ∀ generation ≤ s.collection.generation, ∃ past,
      (c.tableOf generation).Descends s.collection.config past
          (Function.update log changed syncs generation) ∧
        ∀ schema, s.Uses generation schema → schema ∈ (c.tableOf generation).schema :: past := by
  intro generation hle
  obtain ⟨past, hdescends, hpast⟩ := hd.exists_past generation hle
  rw [hset, Collection.tableOf_setTable hchanged hle]
  split_ifs with heq
  · subst heq
    obtain ⟨past', hdescends', hsub⟩ := hcontinues.exists_past past hdescends
      fun schema hschema => hpast schema (hknown schema hschema)
    rw [Function.update_self]
    exact ⟨past', hdescends', fun schema hschema => hsub (hpast schema hschema)⟩
  · rw [Function.update_of_ne (Ne.symm heq)]
    exact ⟨past, hdescends, hpast⟩

/-- Every operation keeps the chains. -/
theorem Descends.step (hd : s.Descends log) (hholds : s.Holds) (h : s.WellFormed) (op : Op) :
    (s.step op).2.Descends (log.step s op) := by
  cases hop : op.isLoad with
  | false =>
    have hsteps := h.step_steps hop
    obtain ⟨changed, hchanged, table, syncs, known, hset, hlog, hknown, hcontinues⟩ :=
      hholds.step_continues h log hop
    refine ⟨fun generation hle => ?_⟩
    obtain ⟨past, hdescends, hpast⟩ := hd.setTable hchanged hset hknown hcontinues generation
      (hle.trans_eq hsteps.generation)
    rw [hlog, hsteps.config]
    refine ⟨past, hdescends, ?_⟩
    -- the schemas in use now but for those of the contents were in use before
    rintro schema (rfl | ⟨t', ht', rfl, rfl⟩)
    · exact List.mem_cons_self
    · exact hpast _ (uses_of_mem_step op ht')
  | true =>
    cases op with
    | load source =>
      rw [Session.step, SyncLog.step]
      rcases s.collection.load_outcome source with ⟨e, hload⟩ | ⟨table, hdecode, hload⟩
      · rw [hload]
        exact hd
      · rw [hload]
        exact hd.replaceTable h hdecode
    | _ => cases hop

end Session

/-! ## Sessions -/

/-- The log that goes along with a session from its start. -/
inductive SyncLogOf : Session → SyncLog → Prop where
  | new (capacity : Nat) : SyncLogOf (.start (.new capacity)) .empty
  | withConfig {config : Config} {c : Collection} (h : Collection.withConfig config = .ok c) :
    SyncLogOf (.start c) .empty
  | step {s : Session} {log : SyncLog} (h : SyncLogOf s log) (op : Op) :
    SyncLogOf (s.step op).2 (log.step s op)

theorem Reachable.exists_syncLog {s : Session} (h : Reachable s) : ∃ log, SyncLogOf s log := by
  induction h with
  | new capacity => exact ⟨.empty, .new capacity⟩
  | withConfig h => exact ⟨.empty, .withConfig h⟩
  | step h op ih =>
    obtain ⟨log, hlog⟩ := ih
    exact ⟨_, hlog.step op⟩

theorem SyncLogOf.run {s : Session} {log : SyncLog} (h : SyncLogOf s log) (ops : List Op) :
    SyncLogOf (s.run ops) (log.run s ops) := by
  induction ops generalizing s log with
  | nil => exact h
  | cons op rest ih => exact ih (h.step op)

/-- In every session the contents of all generations descend from their schemas as it is written
    down. -/
theorem SyncLogOf.descends {s : Session} {log : SyncLog} (h : SyncLogOf s log) :
    Reachable s ∧ s.Descends log := by
  induction h with
  | new capacity => exact ⟨.new capacity, Session.descends_start _ _⟩
  | @withConfig config c hc =>
    obtain ⟨-, rfl⟩ := Collection.build_of_withConfig hc
    exact ⟨.withConfig hc, Session.descends_start config _⟩
  | step h op ih => exact ⟨ih.1.step op, ih.2.step ih.1.holds ih.1.wellFormed op⟩

end ColumnStore
