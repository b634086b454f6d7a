import ColumnStore.Proofs.Relabelling.Transaction

/-!
# The order of creation does not show

The slot of a column or an index is its place in the order of creation. A new collection whose
columns and indexes were created in one order differs from one where they were created in another by
a relabelling of the slots (`Table.Blank.exists_relabelled`), and every operation keeps it so and
gives the same answers (`Session.Relabelled.step`), loads and later creations included.

`run_createAll_perm`: whatever is done after the creations, the two collections answer alike, show
the same rows and values, and have the same snapshot byte by byte.
-/

namespace ColumnStore

/-! ## Sessions up to the order of slots -/

namespace Session

/-- Two sessions that are the same but for the slots, in every generation. -/
structure Relabelled (labels : ℕ → Relabelling) (s s' : Session) : Prop where
  collection : Collection.Relabelled labels s.collection s'.collection
  transactions : Matched (fun t t' => Transaction.Relabelled (labels t.generation) t t')
    s.transactions s'.transactions

variable {labels : ℕ → Relabelling} {s s' : Session}

/-- Two collections that were never loaded. -/
theorem relabelled_start {c c' : Collection} (hconfig : c'.config = c.config)
    (hretired : c.retired = #[]) (hretired' : c'.retired = #[])
    (htable : Table.Relabelled (labels 0) c.table c'.table) :
    Relabelled labels (.start c) (.start c') := by
  refine ⟨⟨hconfig, ?_, fun generation hle => ?_⟩, rfl, by simp [start]⟩
  · show c'.retired.size = c.retired.size
    rw [hretired, hretired']
  · have hzero : generation = 0 := by
      have hsize : c.generation = 0 := congrArg Array.size hretired
      exact Nat.le_zero.mp (hsize ▸ hle)
    subst hzero
    show Table.Relabelled _ (c.tableOf 0) (c'.tableOf 0)
    rw [Collection.tableOf, Collection.tableOf, hretired, hretired']
    exact htable

theorem Relabelled.change (h : Relabelled labels s s') {α : Type}
    {result result' : α × Collection}
    (hresult : Alike (Collection.Relabelled labels) result result') :
    Alike (Relabelled labels) (result.1, { s with collection := result.2 })
      (result'.1, { s' with collection := result'.2 }) :=
  ⟨hresult.answer, hresult.state, h.transactions⟩

/-- Every operation answers alike. -/
theorem Relabelled.step (h : Relabelled labels s s') (hwf : s.WellFormed)
    (hlabels : ∀ generation, labels (generation + 1) = .refl) (op : Op) :
    Alike (Relabelled labels) (s.step op) (s'.step op) := by
  cases op with
  | createColumn name kind =>
    exact h.change (h.collection.change (h.collection.table.createColumn name kind))
  | createIndex name source predicate =>
    exact h.change (h.collection.change (h.collection.table.createIndex name source predicate))
  | insert record => exact h.change (h.collection.insert record)
  | deleteAt row => exact h.change (h.collection.deleteAt row)
  | load source => exact h.change (h.collection.load hwf.table.usable (hlabels _) source)
  | begin => exact ⟨rfl, h.collection, h.transactions.push (.start h.collection)⟩
  | filter id filter =>
    rw [Session.step, Session.step]
    rcases h.transactions.getElem?_cases id with
      ⟨hnone, hnone'⟩ | ⟨t, t', ht, ht', hrel⟩
    · simp only [hnone, hnone']
      exact ⟨rfl, h⟩
    · have htable := hrel.table h.collection (hwf.generation_le t (Array.mem_of_getElem? ht))
      simp only [ht, ht', hrel.apply htable]
      cases happly : filter.apply t s.collection with
      | error e => exact ⟨rfl, h⟩
      | ok kept =>
        obtain ⟨judge, rfl⟩ := Transaction.narrow_of_apply happly
        exact ⟨rfl, h.collection, h.transactions.setIfInBounds id (hrel.withSelection rfl rfl)⟩
  | pass id column visitor state =>
    rw [Session.step, Session.step]
    rcases h.transactions.getElem?_cases id with
      ⟨hnone, hnone'⟩ | ⟨t, t', ht, ht', hrel⟩
    · simp only [hnone, hnone']
      exact ⟨rfl, h⟩
    · have hle := hwf.generation_le t (Array.mem_of_getElem? ht)
      obtain ⟨hstate, hended, hcollection⟩ := hrel.pass h.collection hle column visitor state
      simp only [ht, ht']
      exact ⟨by rw [hstate, hended], hcollection, h.transactions⟩
  | deleteAll id =>
    rw [Session.step, Session.step]
    rcases h.transactions.getElem?_cases id with
      ⟨hnone, hnone'⟩ | ⟨t, t', ht, ht', hrel⟩
    · simp only [hnone, hnone']
      exact ⟨rfl, h⟩
    · have hle := hwf.generation_le t (Array.mem_of_getElem? ht)
      obtain ⟨hremoved, hselection, hcollection⟩ := hrel.deleteAll h.collection hle
      simp only [ht, ht']
      refine ⟨congrArg some hremoved, hcollection, h.transactions.setIfInBounds id ?_⟩
      rw [hselection]
      exact hrel.withSelection rfl rfl

theorem Relabelled.run (h : Relabelled labels s s') (hs : Reachable s)
    (hlabels : ∀ generation, labels (generation + 1) = .refl) (ops : List Op) :
    Relabelled labels (s.run ops) (s'.run ops) := by
  induction ops generalizing s s' with
  | nil => exact h
  | cons op rest ih => exact ih (h.step hs.wellFormed hlabels op).state (hs.step op)

end Session

/-! ## Creations -/

/-- The creation of a column, or of an index over one. -/
inductive Creation where
  | column (name : String) (kind : Kind)
  | index (name source : String) (predicate : Value → Bool)

/-- What an index was created with: its name, its source and its predicate. -/
def Index.definition (index : Index) : String × String × Option (Value → Bool) :=
  (index.name, index.source, index.predicate)

namespace Creation

/-- The operation on a collection. -/
def op : Creation → Op
  | column name kind => .createColumn name kind
  | index name source predicate => .createIndex name source predicate

/-- The creation carried out. -/
def run (c : Collection) : Creation → Except Error Unit × Collection
  | column name kind => c.createColumn name kind
  | index name source predicate => c.createIndex name source predicate

/-- The column that is created. -/
def column? : Creation → Option Column
  | column name kind => some ⟨name, kind⟩
  | index .. => none

/-- The definition of the index that is created. -/
def index? : Creation → Option (String × String × Option (Value → Bool))
  | column .. => none
  | index name source predicate => some (name, source, some predicate)

end Creation

/-- Carries out creations one after the other. Fails with the first that fails. -/
def Collection.createAll (c : Collection) : List Creation → Except Error Collection
  | [] => .ok c
  | creation :: rest =>
    match creation.run c with
    | (.error e, _) => .error e
    | (.ok (), c) => c.createAll rest

namespace Table

/-- A table without rows, in which every index has a predicate. -/
structure Blank (table : Table) : Prop where
  schema : table.schema.WellFormed
  attached : ∀ index ∈ table.schema.indexes, index.isAttached = true
  dictionaries : table.dictionaries = table.schema.columns.map fun _ => .empty
  chunks : table.chunks = #[]
  nextRow : table.nextRow = 0
  live : table.live = 0

theorem blank_empty : empty.Blank :=
  ⟨Schema.wellFormed_empty, by simp [empty, Schema.empty], by simp [empty, Schema.empty], rfl, rfl,
    rfl⟩

variable {table table' : Table}

theorem Blank.createColumn (h : table.Blank) {name : String} {kind : Kind}
    (hok : Table.createColumn name kind table = (.ok (), table')) :
    table'.Blank ∧ table'.schema.columns = table.schema.columns.push ⟨name, kind⟩ ∧
      table'.schema.indexes = table.schema.indexes := by
  cases hfree : table.schema.isTaken name with
  | true =>
    rw [createColumn_of_taken hfree] at hok
    cases hok
  | false =>
    rw [createColumn_of_free hfree] at hok
    cases hok
    refine ⟨⟨h.schema.addColumn hfree, h.attached, ?_, h.chunks, h.nextRow, h.live⟩, rfl, rfl⟩
    show table.dictionaries.push .empty = (table.schema.columns.push _).map _
    rw [h.dictionaries, Array.map_push]

/-- Where every index has a predicate, an index is registered under a new name. -/
theorem registerIndex_of_attached {schema next : Schema} {name source : String}
    {predicate : Value → Bool} {slot : ℕ} {index : Index}
    (hattached : ∀ index ∈ schema.indexes, index.isAttached = true)
    (hok : registerIndex schema name source predicate = .ok (next, slot, index)) :
    next = { schema with indexes := schema.indexes.push index } ∧
      index.definition = (name, source, some predicate) := by
  rcases registerIndex_cases hok with ⟨sourceSlot, column, -, -, rfl, -, rfl⟩ |
    ⟨old, hold, -, -, hdetached, -, -⟩
  · exact ⟨rfl, rfl⟩
  · have hfalse := hattached old (Array.mem_of_getElem? hold)
    rw [Index.isAttached, hdetached] at hfalse
    cases hfalse

theorem Blank.createIndex (h : table.Blank) {name source : String} {predicate : Value → Bool}
    (hok : Table.createIndex name source predicate table = (.ok (), table')) :
    table'.Blank ∧ table'.schema.columns = table.schema.columns ∧
      ∃ index, table'.schema.indexes = table.schema.indexes.push index ∧
        index.definition = (name, source, some predicate) := by
  cases hreg : registerIndex table.schema name source predicate with
  | error e =>
    rw [createIndex_of_error hreg] at hok
    cases hok
  | ok result =>
    obtain ⟨next, slot, index⟩ := result
    obtain ⟨hnext, hdefinition⟩ := registerIndex_of_attached h.attached hreg
    have hregisters := registers_of_ok h.schema hreg
    rw [createIndex_of_ok hreg] at hok
    cases hok
    subst hnext
    refine ⟨⟨hregisters.wellFormed, fun other hother => ?_, h.dictionaries, ?_, h.nextRow, h.live⟩,
      rfl, index, rfl, hdefinition⟩
    · rcases Array.mem_push.mp hother with hold | rfl
      · exact h.attached other hold
      · rw [Index.isAttached, hregisters.predicate_eq]
        rfl
    · show Array.map _ table.chunks = #[]
      rw [h.chunks, Array.map_empty]

/-- The slot of an index's source is that of its name. -/
theorem eq_moveSource {r : Relabelling} {schema schema' : Schema} (h : schema.WellFormed)
    (h' : schema'.WellFormed) (hcolumns : Moved r.column schema.columns schema'.columns)
    {index index' : Index} (hindex : index ∈ schema.indexes) (hindex' : index' ∈ schema'.indexes)
    (hdefinition : index'.definition = index.definition) : index' = r.moveSource index := by
  obtain ⟨name, source, slot, predicate⟩ := index
  obtain ⟨name', source', slot', predicate'⟩ := index'
  cases hdefinition
  obtain ⟨column, hcolumn, hname⟩ := h.source _ hindex
  obtain ⟨column', hcolumn', hname'⟩ := h'.source _ hindex'
  have hfound := h'.column?_eq_some_iff.mpr ⟨(hcolumns.getElem? slot).trans hcolumn, hname⟩
  have hfound' := h'.column?_eq_some_iff.mpr ⟨hcolumn', hname'⟩
  rw [hfound] at hfound'
  cases hfound'
  rfl

/-- Two blank tables with the same columns and indexes, created in whatever orders. -/
theorem Blank.exists_relabelled (h : table.Blank) (h' : table'.Blank)
    (hcolumns : table.schema.columns.toList.Perm table'.schema.columns.toList)
    (hindexes : (table.schema.indexes.toList.map Index.definition).Perm
      (table'.schema.indexes.toList.map Index.definition)) :
    ∃ r, Relabelled r table table' := by
  obtain ⟨σ, hσ⟩ := Moved.exists_of_perm hcolumns
  obtain ⟨τ, hτ⟩ := Moved.exists_of_perm hindexes
  rw [Array.toArray_toList, Array.toArray_toList] at hσ
  rw [← Array.toList_map, ← Array.toList_map, Array.toArray_toList, Array.toArray_toList] at hτ
  refine ⟨⟨σ, τ⟩, ⟨h.schema, h'.schema, hσ, ⟨fun i => ?_, fun i hi => ?_⟩⟩, ?_, ?_, ?_, ?_⟩
  · -- the definition says where the source is
    have hdefinition := hτ.getElem? i
    rw [Array.getElem?_map, Array.getElem?_map] at hdefinition
    rw [Array.getElem?_map]
    cases hindex : table.schema.indexes[i]? with
    | none =>
      rw [hindex] at hdefinition
      exact Option.map_eq_none_iff.mp hdefinition
    | some index =>
      rw [hindex, Option.map_some, Option.map_eq_some_iff] at hdefinition
      obtain ⟨index', hindex', hsame⟩ := hdefinition
      rw [hindex', Option.map_some, eq_moveSource h.schema h'.schema (r := ⟨σ, τ⟩) hσ
        (Array.mem_of_getElem? hindex) (Array.mem_of_getElem? hindex') hsame]
  · rw [Array.size_map] at hi
    exact hτ.fixed i (by rwa [Array.size_map])
  · rw [h.dictionaries, h'.dictionaries]
    exact hσ.map _
  · rw [h.chunks, h'.chunks]
    exact ⟨rfl, by simp⟩
  · rw [h.nextRow, h'.nextRow]
  · rw [h.live, h'.live]

end Table

/-! ## Creating in another order -/

namespace Collection

theorem createAll_cons_eq_ok_iff {c c' : Collection} {creation : Creation} {rest : List Creation} :
    c.createAll (creation :: rest) = .ok c' ↔
      (creation.run c).1 = .ok () ∧ (creation.run c).2.createAll rest = .ok c' := by
  rw [createAll]
  match creation.run c with
  | (.error e, next) => simp
  | (.ok (), next) => simp

/-- A creation that succeeds adds its column or index, and nothing else. -/
theorem run_of_blank {c : Collection} (h : c.table.Blank) {creation : Creation}
    (hok : (creation.run c).1 = .ok ()) :
    ∃ table, (creation.run c).2 = { c with table } ∧ table.Blank ∧
      table.schema.columns.toList = c.table.schema.columns.toList ++ creation.column?.toList ∧
      table.schema.indexes.toList.map Index.definition =
        c.table.schema.indexes.toList.map Index.definition ++ creation.index?.toList := by
  cases creation with
  | column name kind =>
    obtain ⟨hblank, hcolumns, hindexes⟩ := h.createColumn (Prod.ext hok rfl)
    refine ⟨(Table.createColumn name kind c.table).2, rfl, hblank, ?_, ?_⟩
    · rw [hcolumns, Array.toList_push]
      rfl
    · rw [hindexes]
      exact (List.append_nil _).symm
  | index name source predicate =>
    obtain ⟨hblank, hcolumns, index, hindexes, hdefinition⟩ := h.createIndex (Prod.ext hok rfl)
    refine ⟨(Table.createIndex name source predicate c.table).2, rfl, hblank, ?_, ?_⟩
    · rw [hcolumns]
      exact (List.append_nil _).symm
    · rw [hindexes, Array.toList_push, List.map_append, List.map_singleton, hdefinition]
      rfl

theorem createAll_of_blank {c c' : Collection} (h : c.table.Blank) {creations : List Creation}
    (hok : c.createAll creations = .ok c') :
    ∃ table, c' = { c with table } ∧ table.Blank ∧
      table.schema.columns.toList =
        c.table.schema.columns.toList ++ creations.filterMap Creation.column? ∧
      table.schema.indexes.toList.map Index.definition =
        c.table.schema.indexes.toList.map Index.definition ++
          creations.filterMap Creation.index? := by
  induction creations generalizing c with
  | nil =>
    cases hok
    exact ⟨_, rfl, h, (List.append_nil _).symm, (List.append_nil _).symm⟩
  | cons creation rest ih =>
    obtain ⟨hfirst, hrest⟩ := createAll_cons_eq_ok_iff.mp hok
    obtain ⟨next, hnext, hblank, hcolumns, hindexes⟩ := run_of_blank h hfirst
    rw [hnext] at hrest
    obtain ⟨table, htable, hblank', hcolumns', hindexes'⟩ := ih hblank hrest
    refine ⟨table, htable, hblank', ?_, ?_⟩
    · rw [hcolumns', hcolumns, List.append_assoc, List.filterMap_cons]
      cases creation.column? <;> rfl
    · rw [hindexes', hindexes, List.append_assoc, List.filterMap_cons]
      cases creation.index? <;> rfl

/-- Two orders of creation leave the same contents in other slots. -/
theorem exists_relabelled {config : Config} {c : Collection} (h : withConfig config = .ok c)
    {creations creations' : List Creation} (hperm : creations.Perm creations')
    {created created' : Collection} (hok : c.createAll creations = .ok created)
    (hok' : c.createAll creations' = .ok created') :
    ∃ r, created'.config = created.config ∧ created.retired = #[] ∧ created'.retired = #[] ∧
      Table.Relabelled r created.table created'.table := by
  obtain ⟨-, rfl⟩ := build_of_withConfig h
  obtain ⟨table, rfl, hblank, hcolumns, hindexes⟩ := createAll_of_blank Table.blank_empty hok
  obtain ⟨table', rfl, hblank', hcolumns', hindexes'⟩ := createAll_of_blank Table.blank_empty hok'
  obtain ⟨r, hr⟩ := hblank.exists_relabelled hblank'
    (by rw [hcolumns, hcolumns']; exact (hperm.filterMap _).append_left _)
    (by rw [hindexes, hindexes']; exact (hperm.filterMap _).append_left _)
  exact ⟨r, rfl, rfl, rfl, hr⟩

end Collection

theorem Reachable.createAll {c c' : Collection} (h : Reachable (.start c))
    {creations : List Creation} (hok : c.createAll creations = .ok c') : Reachable (.start c') := by
  induction creations generalizing c with
  | nil =>
    cases hok
    exact h
  | cons creation rest ih =>
    obtain ⟨-, hrest⟩ := Collection.createAll_cons_eq_ok_iff.mp hok
    refine ih ?_ hrest
    have hstep := h.step creation.op
    cases creation <;> exact hstep

/-- Two orders of the same creations, all of which succeed, on a new collection, and any operations
    after them, among them loads and further creations: at every point the next operation has the
    same answer, error or not, and a pass visits the same rows with the same values; a row has the
    same fields, and a column the same value for it; the count is the same; through every
    transaction the same can be read; and the snapshots are equal byte by byte. -/
theorem run_createAll_perm {config : Config} {c : Collection}
    (h : Collection.withConfig config = .ok c) {creations creations' : List Creation}
    (hperm : creations.Perm creations') {created created' : Collection}
    (hcreated : c.createAll creations = .ok created)
    (hcreated' : c.createAll creations' = .ok created') (ops : List Op) :
    let s := (Session.start created).run ops
    let s' := (Session.start created').run ops
    (∀ op : Op, (s'.step op).1 = (s.step op).1) ∧
      (∀ row, Option.Rel List.Perm (s.collection.fetch row) (s'.collection.fetch row)) ∧
      (∀ column row, s'.collection.valueAt column row = s.collection.valueAt column row) ∧
      s'.collection.count = s.collection.count ∧
      (∀ id : Nat, Option.Rel (fun t t' => t.ReadsAlike s.collection t' s'.collection)
        s.transactions[id]? s'.transactions[id]?) ∧
      s'.collection.snapshot = s.collection.snapshot := by
  intro s s'
  obtain ⟨r, hconfig, hretired, hretired', htable⟩ :=
    Collection.exists_relabelled h hperm hcreated hcreated'
  -- after a load both runs hold the contents that the bytes give
  let labels (generation : ℕ) : Relabelling := if generation = 0 then r else .refl
  have hlabels : ∀ generation, labels (generation + 1) = .refl :=
    fun generation => if_neg (Nat.succ_ne_zero generation)
  have hstart : Session.Relabelled labels (.start created) (.start created') :=
    Session.relabelled_start hconfig hretired hretired' htable
  have hreachable := (Reachable.withConfig h).createAll hcreated
  have hwf : s.WellFormed := (hreachable.run ops).wellFormed
  have hrun : Session.Relabelled labels s s' := hstart.run hreachable hlabels ops
  have hcollection := hrun.collection
  refine ⟨fun op => (hrun.step hwf hlabels op).answer, fun row => ?_, fun column row => ?_,
    hcollection.table.live, fun id => ?_, ?_⟩
  · rw [Collection.fetch, Collection.fetch, hcollection.config]
    exact hcollection.table.fetch_perm _ row
  · rw [Collection.valueAt, Collection.valueAt, hcollection.config]
    exact hcollection.table.valueAt _ column row
  · rcases hrun.transactions.getElem?_cases id with
      ⟨hnone, hnone'⟩ | ⟨t, t', ht, ht', hrel⟩
    · rw [hnone, hnone']
      exact .none
    · rw [ht, ht']
      exact .some (hrel.readsAlike hcollection (hwf.generation_le t (Array.mem_of_getElem? ht)))
  · rw [Collection.snapshot, Collection.snapshot, hcollection.chunkSize]
    exact hcollection.table.encode _

/-- The same two columns with an index, the column of texts created first or last. -/
theorem run_createAll_perm_flags :
    let creations : List Creation :=
      [.column "name" .enum, .column "flag" .bool, .index "set" "flag" Value.isTrue]
    let creations' : List Creation :=
      [.column "flag" .bool, .index "set" "flag" Value.isTrue, .column "name" .enum]
    let ops : List Op :=
      [.insert [("name", .string "a"), ("flag", .bool true)], .insert [("flag", .bool false)]]
    ∃ c created created', Collection.withConfig ⟨0, 64, none⟩ = .ok c ∧
      creations.Perm creations' ∧
      c.createAll creations = .ok created ∧ c.createAll creations' = .ok created' ∧
      created.columns = ["name", "flag"] ∧ created'.columns = ["flag", "name"] ∧
      ((Session.start created').run ops).collection.snapshot =
        ((Session.start created).run ops).collection.snapshot := by
  intro creations creations' ops
  have hperm : creations.Perm creations' := .trans (.swap ..) (.cons _ (.swap ..))
  have hconfig : Collection.withConfig ⟨0, 64, none⟩ = .ok (.build ⟨0, 64, none⟩) := rfl
  have hcreates : ∀ (creations : List Creation) (names : List String),
      ((Collection.build ⟨0, 64, none⟩).createAll creations).toOption.map Collection.columns =
        some names → ∃ created, (Collection.build ⟨0, 64, none⟩).createAll creations = .ok created ∧
          created.columns = names := by
    intro creations names h
    obtain ⟨created, hcreated, hnames⟩ := Option.map_eq_some_iff.mp h
    cases hall : (Collection.build ⟨0, 64, none⟩).createAll creations with
    | error e => simp [hall, Except.toOption] at hcreated
    | ok found =>
      rw [hall] at hcreated
      cases hcreated
      exact ⟨_, rfl, hnames⟩
  obtain ⟨created, hcreated, hcolumns⟩ := hcreates creations ["name", "flag"] (by decide +kernel)
  obtain ⟨created', hcreated', hcolumns'⟩ :=
    hcreates creations' ["flag", "name"] (by decide +kernel)
  obtain ⟨-, -, -, -, -, hsnapshot⟩ := run_createAll_perm hconfig hperm hcreated hcreated' ops
  exact ⟨_, _, _, hconfig, hperm, hcreated, hcreated', hcolumns, hcolumns', hsnapshot⟩

end ColumnStore
