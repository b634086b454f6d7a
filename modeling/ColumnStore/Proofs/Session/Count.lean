import ColumnStore.Proofs.Session

/-!
# The count of live rows

The number of live rows is kept beside the bitmaps that it sums up, and it is adjusted by each
operation on its own. `Session.adds` and `Session.removes` are what an operation adds to it and
subtracts from it.

* `Collection.Counted`: the number is the sum over the chunks, the length of an unfiltered query and
  the number of rows that can be fetched, and the rows given out fit into the chunks;
* `Session.WellFormed.count_step`: an operation that is not a load never subtracts more than there
  is;
* `Reachable.counted`: both hold in every session.
-/

namespace ColumnStore

/-! ## The three ways to count -/

/-- The number of live rows is right, whichever way the rows are counted, and every row given out
    has a place in some chunk. -/
structure Collection.Counted (c : Collection) : Prop where
  fill : c.count = (c.table.chunks.toList.map fun chunk => chunk.fill.count).sum
  rows : c.count = ((Transaction.start c).rows c).length
  fetched : {row | (c.fetch row).isSome}.encard = c.count
  lt_nextRow : ∀ row, c.table.isLive c.config row = true → row < c.table.nextRow
  nextRow_le : c.table.nextRow ≤ c.table.chunks.size * c.config.chunkSize

namespace Table

variable {config : Config} {table : Table}

theorem WellFormed.mem_liveRows (h : table.WellFormed config) {row : Nat} :
    row ∈ table.liveRows config ↔ table.isLive config row = true := by
  rw [liveRows, List.mem_filter, List.mem_range]
  exact ⟨And.right, fun hlive => ⟨h.lt_nextRow hlive, hlive⟩⟩

theorem nodup_liveRows (config : Config) (table : Table) : (table.liveRows config).Nodup :=
  List.nodup_range.filter _

end Table

namespace Collection

variable {c : Collection}

/-- The rows that can be fetched are as many as the number says. -/
theorem encard_fetched (h : c.table.WellFormed c.config) :
    {row | (c.fetch row).isSome}.encard = c.count := by
  have hset : {row | (c.fetch row).isSome} =
      ((c.table.liveRows c.config).toFinset : Set Nat) := by
    ext row
    rw [Set.mem_ofPred_eq, isSome_fetch h, Finset.mem_coe, List.mem_toFinset, h.mem_liveRows]
  rw [hset, Set.encard_coe_eq_coe_finsetCard,
    List.toFinset_card_of_nodup (Table.nodup_liveRows c.config c.table), count, h.live_eq_length]

theorem Counted.of_wellFormed (h : c.table.WellFormed c.config) : c.Counted where
  fill := h.live_eq
  rows := by rw [Transaction.rows_start h, count, h.live_eq_length]
  fetched := encard_fetched h
  lt_nextRow row hlive := h.lt_nextRow hlive
  nextRow_le := h.nextRow_le

end Collection

/-! ## What an operation adds and subtracts -/

namespace Session

/-- Rows that an operation adds to the live ones. -/
def adds (s : Session) : Op → Nat
  | .insert record =>
    match (s.collection.insert record).1 with
    | .ok _ => 1
    | .error _ => 0
  | _ => 0

/-- Rows that an operation subtracts from the live ones. What a transaction deletes from retired
    contents is not among them. -/
def removes (s : Session) : Op → Nat
  | .deleteAt row =>
    match (s.collection.deleteAt row).1 with
    | .ok true => 1
    | _ => 0
  | .deleteAll id =>
    match s.transactions[id]? with
    | some t => if t.generation = s.collection.generation then (t.deleteAll s.collection).1 else 0
    | none => 0
  | _ => 0

variable {s : Session}

theorem WellFormed.count_insert (h : s.WellFormed) (record : Record) :
    (s.collection.insert record).2.count = s.collection.count + s.adds (.insert record) := by
  have hinsert : s.collection.insert record =
      ((Table.insert s.collection.config record s.collection.table).1,
        { s.collection with
          table := (Table.insert s.collection.config record s.collection.table).2 }) := rfl
  rw [adds, hinsert]
  cases hfind : (Table.fields s.collection.table.schema record).find? Table.illTyped with
  | some field =>
    obtain ⟨slot, column, value⟩ := field
    rw [Table.insert_of_illTyped hfind]
    rfl
  | none =>
    obtain ⟨table', htable, -, hins⟩ := h.table.insert hfind
    rw [htable]
    exact hins.live_eq

/-- A row is subtracted only if it was counted. -/
theorem WellFormed.count_deleteAt (h : s.WellFormed) (row : Nat) :
    (s.collection.deleteAt row).2.count + s.removes (.deleteAt row) = s.collection.count := by
  have hdelete : s.collection.deleteAt row =
      ((Table.deleteAt s.collection.config row s.collection.table).1,
        { s.collection with
          table := (Table.deleteAt s.collection.config row s.collection.table).2 }) := rfl
  rw [removes, hdelete]
  rcases Nat.lt_or_ge row s.collection.table.nextRow with hrow | hrow
  · cases hlive : s.collection.table.isLive s.collection.config row with
    | true =>
      obtain ⟨table', htable, -, -, hcount⟩ := h.table.deleteAt_of_live hlive
      have hpos : 0 < s.collection.table.live := by
        rw [h.table.live_eq_length]
        exact List.length_pos_of_mem (h.table.mem_liveRows.mpr hlive)
      rw [htable]
      show table'.live + 1 = s.collection.table.live
      omega
    | false =>
      rw [h.table.deleteAt_of_not_live hrow hlive]
      rfl
  · rw [h.table.deleteAt_of_le hrow]
    rfl

/-- A transaction subtracts only rows that are counted still, whatever other transactions deleted
    meanwhile; from retired contents it subtracts none. -/
theorem WellFormed.count_deleteAll (h : s.WellFormed) {id : Nat} {t : Transaction}
    (ht : s.transactions[id]? = some t) :
    (t.deleteAll s.collection).2.2.count + s.removes (.deleteAll id) = s.collection.count := by
  simp only [removes, ht]
  rcases Nat.lt_or_eq_of_le (h.generation_le t (Array.mem_of_getElem? ht)) with hlt | hgen
  · rw [if_neg (Nat.ne_of_lt hlt)]
    unfold Transaction.deleteAll
    exact congrArg Table.live (s.collection.changeTable_of_lt hlt _).2.1
  · obtain ⟨-, -, hle⟩ := h.table.deleteFrom t.selection.toList 0
    rw [if_pos hgen, Transaction.deleteAll_of_current hgen]
    exact Nat.sub_add_cancel hle

theorem WellFormed.count_pass (h : s.WellFormed) {t : Transaction} (ht : t ∈ s.transactions)
    {σ : Type} (column : String) (visitor : Transaction.Visitor σ) (state : σ) :
    (t.pass s.collection column visitor state).2.2.count = s.collection.count := by
  cases hcolumn : t.column column with
  | error e => simp only [Transaction.pass, hcolumn]
  | ok found =>
    obtain ⟨slot, found⟩ := found
    rcases Nat.lt_or_eq_of_le (h.generation_le t ht) with hlt | hgen
    · unfold Transaction.pass
      simp only [hcolumn]
      exact congrArg Table.live (s.collection.changeTable_of_lt hlt _).2.1
    · obtain ⟨dictionaries, chunks, hpass, -⟩ :=
        (h.current t ht hgen).pass h.table hgen hcolumn visitor state
      rw [hpass]
      rfl

/-- An operation that is not a load changes the number of live rows by what it adds and what it
    subtracts, and never subtracts more than there is. -/
theorem WellFormed.count_step (h : s.WellFormed) {op : Op} (hop : op.isLoad = false) :
    s.removes op ≤ s.collection.count ∧
      (s.step op).2.collection.count + s.removes op = s.collection.count + s.adds op := by
  have hsame (hadds : s.adds op = 0) (hremoves : s.removes op = 0)
      (hcount : (s.step op).2.collection.count = s.collection.count) :
      s.removes op ≤ s.collection.count ∧
        (s.step op).2.collection.count + s.removes op = s.collection.count + s.adds op := by
    rw [hadds, hremoves, hcount]
    exact ⟨Nat.zero_le _, rfl⟩
  cases op with
  | load source => cases hop
  | begin => exact hsame rfl rfl rfl
  | createColumn name kind =>
    refine hsame rfl rfl ?_
    show (Table.createColumn name kind s.collection.table).2.live = s.collection.table.live
    unfold Table.createColumn
    cases s.collection.table.schema.addColumn ⟨name, kind⟩ <;> rfl
  | createIndex name source predicate =>
    refine hsame rfl rfl ?_
    show (Table.createIndex name source predicate s.collection.table).2.live =
      s.collection.table.live
    unfold Table.createIndex
    cases Table.registerIndex s.collection.table.schema name source predicate <;> rfl
  | insert record => exact ⟨Nat.zero_le _, h.count_insert record⟩
  | deleteAt row =>
    have hcount := h.count_deleteAt row
    exact ⟨(Nat.le_add_left ..).trans_eq hcount, hcount⟩
  | filter id filter =>
    refine hsame rfl rfl ?_
    rw [Session.step]
    cases s.transactions[id]? with
    | none => rfl
    | some t => cases happly : filter.apply t s.collection <;> simp only [happly]
  | pass id column visitor state =>
    refine hsame rfl rfl ?_
    rw [Session.step]
    cases ht : s.transactions[id]? with
    | none => rfl
    | some t => exact h.count_pass (Array.mem_of_getElem? ht) column visitor state
  | deleteAll id =>
    cases ht : s.transactions[id]? with
    | none => refine hsame rfl ?_ ?_ <;> simp only [removes, Session.step, ht]
    | some t =>
      have hcount := h.count_deleteAll ht
      refine ⟨(Nat.le_add_left ..).trans_eq hcount, ?_⟩
      rw [Session.step]
      simp only [ht]
      exact hcount

end Session

/-- In every session the number of live rows is right, and no operation but a load, which brings a
    number of its own, subtracts more from it than there is. -/
theorem Reachable.counted {s : Session} (h : Reachable s) :
    s.collection.Counted ∧ ∀ op : Op, op.isLoad = false →
      s.removes op ≤ s.collection.count ∧
        (s.step op).2.collection.count + s.removes op = s.collection.count + s.adds op :=
  ⟨.of_wellFormed h.wellFormed.table, fun _ hop => h.wellFormed.count_step hop⟩

/-- The flags after the first was deleted, once by its row and once more by a transaction that had
    selected it before. -/
theorem counted_flags :
    let s := Session.flags.run [.begin, .deleteAt 0, .deleteAt 0, .deleteAll 0]
    s.collection.count = 0 ∧ {row | (s.collection.fetch row).isSome}.encard = 0 := by
  have hcounted := (reachable_flags.run [.begin, .deleteAt 0, .deleteAt 0, .deleteAll 0]).counted.1
  have hcount :
      (Session.flags.run [.begin, .deleteAt 0, .deleteAt 0, .deleteAll 0]).collection.count = 0 := by
    decide +kernel
  refine ⟨hcount, ?_⟩
  rw [hcounted.fetched, hcount]
  rfl

end ColumnStore
