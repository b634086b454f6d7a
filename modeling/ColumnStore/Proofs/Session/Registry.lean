import ColumnStore.Proofs.Session.Generations
import ColumnStore.Proofs.Snapshot.Registry

/-!
# The registry of a session

A registry is carried along with a session: the operations that add to the schema, and loads, make
another one (`Registry.step`), and one that is refused leaves it. Whatever the run, loads of any
bytes and predicates attached included, the registry mirrors the schema of the collection
(`RegistryOf.mirrors`).

* `Registry.Mirrors.step`: one operation, on the registry and on the session;
* `Reachable.registry_consistent`: the registry is consistent and finds what the schema finds, and
  which columns and indexes are taken.
-/

namespace ColumnStore

open Checked (Tracks)

/-! ## One operation -/

namespace Session

/-- Whether an operation takes place, for the operations that add to the schema or replace it. -/
def verdict (s : Session) : Op → Except Error Unit
  | .createColumn name kind => (s.collection.createColumn name kind).1
  | .createIndex name source predicate => (s.collection.createIndex name source predicate).1
  | .load source => (s.collection.load source).1
  | _ => .ok ()

end Session

/-- Whether the operation neither adds to the schema nor replaces it. -/
def Op.keepsSchema : Op → Bool
  | createColumn .. => false
  | createIndex .. => false
  | load _ => false
  | _ => true

theorem Table.schema_insert (config : Config) (record : Record) (table : Table) :
    (insert config record table).2.schema = table.schema := by
  unfold insert
  dsimp only
  split
  · rfl
  · split
    · rfl
    · split <;> rfl

theorem Table.schema_deleteAt (config : Config) (row : Nat) (table : Table) :
    (deleteAt config row table).2.schema = table.schema := by
  unfold deleteAt
  split
  · rfl
  · dsimp only
    split <;> rfl

theorem Collection.schema_setTable {c : Collection} {generation : Nat} {table : Table}
    (h : table.schema = (c.tableOf generation).schema) :
    (c.setTable generation table).table.schema = c.table.schema := by
  rcases Nat.lt_or_ge generation c.generation with hlt | hle
  · rw [setTable_of_lt hlt]
  · rw [setTable_of_le hle]
    exact h.trans (congrArg Table.schema (tableOf_of_le hle))

namespace Session

variable {s : Session}

theorem schema_step {op : Op} (hop : op.keepsSchema = true) :
    (s.step op).2.collection.table.schema = s.collection.table.schema := by
  cases op with
  | createColumn name kind => cases hop
  | createIndex name source predicate => cases hop
  | load source => cases hop
  | insert record => exact Table.schema_insert ..
  | deleteAt row => exact Table.schema_deleteAt ..
  | begin => rfl
  | filter id filter =>
    rw [step]
    cases s.transactions[id]? with
    | none => rfl
    | some t =>
      dsimp only
      cases filter.apply t s.collection <;> rfl
  | pass id column visitor state =>
    rw [step]
    cases s.transactions[id]? with
    | none => rfl
    | some t =>
      cases hcolumn : t.column column with
      | error e => simp only [Transaction.pass, hcolumn]
      | ok found =>
        simp only [Transaction.pass, hcolumn, Collection.changeTable_eq]
        exact Collection.schema_setTable rfl
  | deleteAll id =>
    rw [step]
    cases s.transactions[id]? with
    | none => rfl
    | some t =>
      simp only [Transaction.deleteAll, Collection.changeTable_eq]
      exact Collection.schema_setTable rfl

/-- An operation that is refused changes nothing. -/
theorem step_of_refused {op : Op} {e : Error} (h : s.verdict op = .error e) :
    (s.step op).2 = s := by
  cases op with
  | createColumn name kind =>
    cases htaken : s.collection.table.schema.isTaken name with
    | true =>
      show Session.mk { s.collection with
        table := (Table.createColumn name kind s.collection.table).2 } _ = _
      rw [Table.createColumn_of_taken htaken]
    | false =>
      have hanswer : (Table.createColumn name kind s.collection.table).1 = .error e := h
      rw [Table.createColumn_of_free htaken] at hanswer
      cases hanswer
  | createIndex name source predicate =>
    cases hregister : Table.registerIndex s.collection.table.schema name source predicate with
    | error e' =>
      show Session.mk { s.collection with
        table := (Table.createIndex name source predicate s.collection.table).2 } _ = _
      rw [Table.createIndex_of_error hregister]
    | ok result =>
      have hanswer : (Table.createIndex name source predicate s.collection.table).1 = .error e := h
      rw [Table.createIndex_of_ok hregister] at hanswer
      cases hanswer
  | load source =>
    show Session.mk (s.collection.load source).2 _ = _
    rw [Collection.load_of_error h]
  | _ => cases h

end Session

namespace Registry

/-- The registry after an operation, with every slot looked at. -/
def step (chunkSize : Nat) (r : Registry) : Op → Checked Registry
  | .createColumn name kind => r.withColumn name kind
  | .createIndex name source predicate => (r.createIndex name source predicate).map Prod.fst
  | .load source =>
    match source.failure with
    | some text => .error (.refused (.io text))
    | none => (r.decode chunkSize source.bytes).map Prod.fst
  | _ => .ok r

/-- The registry that is left by an operation: the same if it is refused. -/
def after (chunkSize : Nat) (r : Registry) (op : Op) : Registry :=
  match r.step chunkSize op with
  | .ok next => next
  | .error _ => r

variable {r : Registry} {s : Session}

/-- An operation takes place in the registry exactly if it does in the session, and the registry
    mirrors the schema then. -/
theorem Mirrors.step (h : r.Mirrors s.collection.table.schema) (op : Op) :
    Tracks (fun next _ => next.Mirrors (s.step op).2.collection.table.schema)
      (r.step s.collection.chunkSize op) (s.verdict op) := by
  have hkept : ∀ {op : Op}, op.keepsSchema = true →
      r.Mirrors (s.step op).2.collection.table.schema := fun hop => by
    rw [Session.schema_step hop]
    exact h
  cases op with
  | createColumn name kind =>
    show Tracks (fun next _ => next.Mirrors
        (Table.createColumn name kind s.collection.table).2.schema)
      (r.withColumn name kind) (Table.createColumn name kind s.collection.table).1
    unfold Table.createColumn
    rcases (h.withColumn name kind).outcome with ⟨next, schema, hr, hs, hnext⟩ | ⟨e, hr, hs⟩
    · rw [hr, hs]
      exact .ok hnext
    · rw [hr, hs]
      exact .refused e
  | createIndex name source predicate =>
    show Tracks (fun next _ => next.Mirrors
        (Table.createIndex name source predicate s.collection.table).2.schema)
      ((r.createIndex name source predicate).map Prod.fst)
      (Table.createIndex name source predicate s.collection.table).1
    unfold Table.createIndex
    rcases (h.createIndex name source predicate).outcome with
      ⟨created, ⟨schema, slot, index⟩, hr, hs, hnext, -⟩ | ⟨e, hr, hs⟩
    · rw [hr, hs]
      exact .ok hnext
    · rw [hr, hs]
      exact .refused e
  | load source =>
    show Tracks (fun next _ => next.Mirrors (s.collection.load source).2.table.schema)
      (match source.failure with
        | some text => .error (.refused (.io text))
        | none => (r.decode s.collection.chunkSize source.bytes).map Prod.fst)
      (s.collection.load source).1
    unfold Collection.load Collection.loadBytes
    cases source.failure with
    | some text => exact .refused _
    | none =>
      dsimp only
      rcases h.decode s.collection.chunkSize source.bytes with
        ⟨next, table, hr, hs, hnext⟩ | ⟨cause, hr, hs⟩
      · rw [hr, hs]
        exact .ok hnext
      · rw [hr, hs]
        exact .refused _
  | insert record => exact .ok (hkept rfl)
  | deleteAt row => exact .ok (hkept rfl)
  | begin => exact .ok (hkept rfl)
  | filter id filter => exact .ok (hkept rfl)
  | pass id column visitor state => exact .ok (hkept rfl)
  | deleteAll id => exact .ok (hkept rfl)

end Registry

/-! ## Runs -/

/-- The registry that goes along with a session from its start. -/
inductive RegistryOf : Session → Registry → Prop where
  | new (capacity : Nat) : RegistryOf (.start (.new capacity)) .empty
  | withConfig {config : Config} {c : Collection} (h : Collection.withConfig config = .ok c) :
    RegistryOf (.start c) .empty
  | step {s : Session} {r : Registry} (h : RegistryOf s r) (op : Op) :
    RegistryOf (s.step op).2 (r.after s.collection.chunkSize op)

theorem Reachable.exists_registry {s : Session} (h : Reachable s) : ∃ r, RegistryOf s r := by
  induction h with
  | new capacity => exact ⟨.empty, .new capacity⟩
  | withConfig h => exact ⟨.empty, .withConfig h⟩
  | step h op ih =>
    obtain ⟨r, hr⟩ := ih
    exact ⟨_, hr.step op⟩

/-- The registry mirrors the schema of the collection throughout. -/
theorem RegistryOf.mirrors {s : Session} {r : Registry} (h : RegistryOf s r) :
    r.Mirrors s.collection.table.schema := by
  induction h with
  | new capacity => exact Registry.mirrors_empty
  | @withConfig config c hc =>
    obtain ⟨-, rfl⟩ := Collection.build_of_withConfig hc
    exact Registry.mirrors_empty
  | @step s r h op ih =>
    unfold Registry.after
    rcases (ih.step op).outcome with ⟨next, -, hr, -, hnext⟩ | ⟨e, hr, hrefused⟩
    · rw [hr]
      exact hnext
    · rw [hr, Session.step_of_refused hrefused]
      exact ih

/-! ## What is taken -/

/-- An index can be registered exactly if its source is a column, and its name is free or that of a
    detached index over the same column. -/
theorem Table.exists_registerIndex_iff {schema : Schema} (h : schema.WellFormed)
    (name source : String) (predicate : Value → Bool) :
    (∃ result, registerIndex schema name source predicate = .ok result) ↔
      (∃ found, schema.column? source = some found) ∧
        (schema.lookup name = none ∨ ∃ slot index, schema.index? name = some (slot, index) ∧
          index.isAttached = false ∧ index.source = source) := by
  constructor
  · rintro ⟨⟨schema', slot, index⟩, hok⟩
    rcases registerIndex_cases hok with ⟨sourceSlot, column, hcolumn, hfree, -⟩ |
      ⟨old, hold, hname, rfl, hdetached, -⟩
    · exact ⟨⟨_, hcolumn⟩, .inl (Schema.lookup_eq_none_iff.mpr hfree)⟩
    · obtain ⟨column, hc, hsource⟩ := h.source old (Array.mem_of_getElem? hold)
      refine ⟨⟨_, h.column?_eq_some_iff.mpr ⟨hc, hsource⟩⟩,
        .inr ⟨slot, old, h.index?_eq_some_iff.mpr ⟨hold, hname⟩, ?_, rfl⟩⟩
      rw [Index.isAttached, hdetached]
      rfl
  · rintro ⟨⟨⟨sourceSlot, column⟩, hcolumn⟩, hfree | ⟨slot, index, hindex, hdetached, rfl⟩⟩
    · unfold registerIndex
      simp only [hcolumn, hfree]
      rw [Schema.addIndex_of_free (Schema.lookup_eq_none_iff.mp hfree)]
      exact ⟨_, rfl⟩
    · obtain ⟨hi, hname⟩ := h.index?_eq_some_iff.mp hindex
      have hlookup := h.lookup_eq_index_iff.mpr ⟨index, hi, hname⟩
      unfold registerIndex
      simp only [hcolumn, hlookup, hi, hdetached, bne_self_eq_false, Bool.or_self]
      exact ⟨_, rfl⟩

namespace Registry

variable {r : Registry} {c : Collection}

theorem Mirrors.createColumn_iff (h : r.Mirrors c.table.schema) (name : String) (kind : Kind) :
    (c.createColumn name kind).1 = .ok () ↔ r.names[name]? = none := by
  rw [show r.names[name]? = c.table.schema.lookup name from h.lookup name,
    Schema.lookup_eq_none_iff]
  show (Table.createColumn name kind c.table).1 = .ok () ↔ _
  cases htaken : c.table.schema.isTaken name with
  | true => simp [Table.createColumn_of_taken htaken]
  | false => simp [Table.createColumn_of_free htaken]

theorem Mirrors.createIndex_iff (h : r.Mirrors c.table.schema) (name source : String)
    (predicate : Value → Bool) :
    (c.createIndex name source predicate).1 = .ok () ↔
      (∃ column, r.column? source = some column) ∧
        (r.names[name]? = none ∨ ∃ index, r.index? name = some index ∧
          index.isAttached = false ∧ index.source = source) := by
  have hok : (c.createIndex name source predicate).1 = .ok () ↔
      ∃ result, Table.registerIndex c.table.schema name source predicate = .ok result := by
    show (Table.createIndex name source predicate c.table).1 = .ok () ↔ _
    cases hregister : Table.registerIndex c.table.schema name source predicate with
    | error e => simp [Table.createIndex_of_error hregister]
    | ok result => simp [Table.createIndex_of_ok hregister]
  rw [hok, Table.exists_registerIndex_iff h.wellFormed, h.column?_eq, h.index?_eq,
    show r.names[name]? = c.table.schema.lookup name from h.lookup name]
  refine and_congr ?_ (or_congr_right ?_)
  · cases c.table.schema.column? source <;> simp
  · cases c.table.schema.index? name with
    | none => simp
    | some found =>
      obtain ⟨slot, index⟩ := found
      simp

end Registry

/-- In every session that comes about, the registry that goes along with it is consistent: its map
    is a bijection between the names and the slots in use, columns and indexes are at the places of
    their slots, and every index has its source in its source slot. It has what the schema of the
    collection has and finds what that finds. An operation takes place in the registry exactly if it
    does in the collection, and never for a slot that is not the next one; one that is refused
    leaves the whole session as it was. A column is taken exactly if its name is free; an index
    exactly if its source is a column and its name is free or that of a detached index over the same
    source. -/
theorem Reachable.registry_consistent {s : Session} (h : Reachable s) :
    (∃ r, RegistryOf s r) ∧ ∀ r, RegistryOf s r →
      r.Consistent ∧
      r.toSchema = s.collection.table.schema ∧
      (∀ name, r.lookup name = s.collection.table.schema.lookup name) ∧
      (∀ name, (r.column? name).map (fun column => (column.slot, column.toColumn)) =
        s.collection.table.schema.column? name) ∧
      (∀ name, (r.index? name).map (fun index => (index.slot, index.toIndex)) =
        s.collection.table.schema.index? name) ∧
      (∀ op, (r.step s.collection.chunkSize op).map (fun _ => ()) =
        (s.verdict op).mapError .refused) ∧
      (∀ op e, s.verdict op = .error e → (s.step op).2 = s) ∧
      (∀ name kind, (s.collection.createColumn name kind).1 = .ok () ↔ r.names[name]? = none) ∧
      ∀ name source predicate, (s.collection.createIndex name source predicate).1 = .ok () ↔
        (∃ column, r.column? source = some column) ∧
          (r.names[name]? = none ∨ ∃ index, r.index? name = some index ∧
            index.isAttached = false ∧ index.source = source) := by
  refine ⟨h.exists_registry, fun r hr => ?_⟩
  have hmirrors := hr.mirrors
  refine ⟨hmirrors.consistent, hmirrors.toSchema_eq, hmirrors.lookup, fun name => ?_,
    fun name => ?_, fun op => ?_, fun op e => Session.step_of_refused, hmirrors.createColumn_iff,
    hmirrors.createIndex_iff⟩
  · rw [hmirrors.column?_eq, Option.map_map]
    exact Option.map_id'
  · rw [hmirrors.index?_eq, Option.map_map]
    exact Option.map_id'
  · rcases (hmirrors.step op).outcome with ⟨next, ⟨⟩, hnext, hverdict, -⟩ | ⟨e, hnext, hverdict⟩
    · rw [hnext, hverdict]
      rfl
    · rw [hnext, hverdict]
      rfl

/-- The registry of the flags: the column and the index have one name each, the index has the column
    as its source, and the name of the index is refused to a column. -/
theorem registry_consistent_flags :
    ∃ r, RegistryOf Session.flags r ∧ r.Consistent ∧
      r.names["flag"]? = some (.column 0) ∧ r.names["set"]? = some (.index 0) ∧
      (r.index? "set").map (fun index => (index.slot, index.source, index.sourceSlot)) =
        some (0, "flag", 0) ∧
      ∀ kind, (Session.flags.collection.createColumn "set" kind).1 ≠ .ok () := by
  obtain ⟨⟨r, hr⟩, hall⟩ := reachable_flags.registry_consistent
  obtain ⟨hconsistent, -, hlookup, -, hindex, -, -, hcolumn, -⟩ := hall r hr
  have hset : r.names["set"]? = some (.index 0) := (hlookup "set").trans (by cbv)
  refine ⟨r, hr, hconsistent, (hlookup "flag").trans (by cbv), hset, ?_, fun kind hok => ?_⟩
  · have hfound := congrArg
      (Option.map fun found : Nat × Index => (found.1, found.2.source, found.2.sourceSlot))
      (hindex "set")
    rw [Option.map_map] at hfound
    exact hfound.trans (by cbv)
  · rw [(hcolumn "set" kind).mp hok] at hset
    cases hset

end ColumnStore
