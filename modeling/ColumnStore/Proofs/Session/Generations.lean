import ColumnStore.Proofs.Session.Readers

/-!
# Generations of a session

A load parts a session in two: the contents before it, which only the transactions opened before it
see from then on, and those since, which only the collection and later transactions see. Each part
is a session of its own, `Session.before` and `Session.since`, in which the other is forgotten. An
operation takes place in one of them and leaves the other as it was.

* `Transaction.Matches`: a transaction that works on the same contents elsewhere does the same there
  (`Matches.apply`, `Matches.pass`, `Matches.deleteAll`) and reads the same (`Matches.readsAlike`);
* `Session.Parts.step_since`, `since_step`, `step_before`, `before_step`: an operation in its own
  part of the session and in the other;
* `Session.Parts.run_since`, `Session.Parts.run_before`: either part after a run comes from the
  operations of the run that are its own.
-/

namespace ColumnStore

/-! ## Contents put in the place of a generation -/

namespace Collection

variable {α : Type} {c : Collection} {base generation : Nat}

/-- Puts a table in the place of the contents of a generation. -/
def setTable (c : Collection) (generation : Nat) (table : Table) : Collection :=
  if generation < c.retired.size then
    { c with retired := c.retired.setIfInBounds generation table }
  else { c with table }

theorem setTable_of_lt (h : generation < c.generation) (table : Table) :
    c.setTable generation table =
      { c with retired := c.retired.setIfInBounds generation table } := if_pos h

theorem setTable_of_le (h : c.generation ≤ generation) (table : Table) :
    c.setTable generation table = { c with table } := if_neg (Nat.not_lt.mpr h)

theorem tableOf_of_le (h : c.generation ≤ generation) : c.tableOf generation = c.table := by
  rw [tableOf, Array.getElem?_eq_none h, Option.getD_none]

theorem changeTable_eq (c : Collection) (generation : Nat) (f : Table → α × Table) :
    c.changeTable generation f =
      ((f (c.tableOf generation)).1, c.setTable generation (f (c.tableOf generation)).2) := by
  unfold changeTable setTable tableOf
  by_cases h : generation < c.retired.size
  · rw [dif_pos h, if_pos h, Array.getElem?_eq_getElem h, Option.getD_some,
      Array.setIfInBounds_def, dif_pos h]
  · rw [dif_neg h, if_neg h, Array.getElem?_eq_none (Nat.le_of_not_lt h), Option.getD_none]

/-- Putting back what is there. -/
theorem setTable_tableOf (c : Collection) (generation : Nat) :
    c.setTable generation (c.tableOf generation) = c := by
  rcases Nat.lt_or_ge generation c.generation with h | h
  · have hlt : generation < c.retired.size := h
    rw [setTable_of_lt h, tableOf, Array.getElem?_eq_getElem hlt, Option.getD_some,
      Array.setIfInBounds_def, dif_pos hlt, Array.set_getElem_self]
  · rw [setTable_of_le h, tableOf_of_le h]

theorem config_setTable (c : Collection) (generation : Nat) (table : Table) :
    (c.setTable generation table).config = c.config := by
  unfold setTable
  split_ifs <;> rfl

theorem generation_setTable (c : Collection) (generation : Nat) (table : Table) :
    (c.setTable generation table).generation = c.generation := by
  unfold setTable Collection.generation
  split_ifs
  · exact Array.size_setIfInBounds
  · rfl

/-- Changing the contents of one generation leaves those of the others. -/
theorem tableOf_setTable {other : Nat} (h : generation ≤ c.generation)
    (hother : other ≤ c.generation) (table : Table) :
    (c.setTable generation table).tableOf other =
      if generation = other then table else c.tableOf other := by
  rcases Nat.lt_or_eq_of_le h with hlt | rfl
  · rw [setTable_of_lt hlt, tableOf, Array.getElem?_setIfInBounds, tableOf]
    have hsize : generation < c.retired.size := hlt
    split_ifs <;> rfl
  · rw [setTable_of_le le_rfl]
    split_ifs with heq
    · exact tableOf_of_le (c := { c with table }) heq.le
    · have hsize : other < c.retired.size := Nat.lt_of_le_of_ne hother (Ne.symm heq)
      rw [tableOf, tableOf, Array.getElem?_eq_getElem hsize]
      rfl

/-- A load retires the contents there were. -/
theorem tableOf_replaceTable (h : generation ≤ c.generation + 1) (table : Table) :
    (c.replaceTable table).tableOf generation =
      if generation ≤ c.generation then c.tableOf generation else table := by
  have hsize : c.retired.size = c.generation := rfl
  rw [tableOf, replaceTable, Array.getElem?_push, hsize]
  split_ifs with heq hle hle
  · rw [tableOf_of_le heq.ge]
    rfl
  · omega
  · rw [tableOf, Array.getElem?_eq_getElem (by omega)]
    rfl
  · rw [Array.getElem?_eq_none (by omega)]
    rfl

/-! ## The generations before one and those since -/

/-- The collection with the contents of the generations before one, and without any others. -/
def before (base : Nat) (c : Collection) : Collection :=
  { c with table := .empty, retired := c.retired.extract 0 base }

/-- The collection with the contents of the generations from one on, numbered anew. -/
def since (base : Nat) (c : Collection) : Collection :=
  { c with retired := c.retired.extract base c.retired.size }

theorem generation_before (h : base ≤ c.generation) : (c.before base).generation = base := by
  show (c.retired.extract 0 base).size = base
  rw [Array.size_extract, Nat.sub_zero]
  exact Nat.min_eq_left h

theorem generation_since (base : Nat) (c : Collection) :
    (c.since base).generation = c.generation - base := by
  show (c.retired.extract base c.retired.size).size = c.retired.size - base
  rw [Array.size_extract, Nat.min_self]

theorem getElem?_before (hlt : generation < base) :
    (c.before base).retired[generation]? = c.retired[generation]? := by
  show (c.retired.extract 0 base)[generation]? = _
  rw [Array.getElem?_extract, Nat.sub_zero, Nat.zero_add]
  split_ifs with h
  · rfl
  · exact (Array.getElem?_eq_none (by omega)).symm

theorem getElem?_since (base : Nat) (c : Collection) (generation : Nat) :
    (c.since base).retired[generation]? = c.retired[base + generation]? := by
  show (c.retired.extract base c.retired.size)[generation]? = _
  rw [Array.getElem?_extract, Nat.min_self]
  split_ifs with h
  · rfl
  · exact (Array.getElem?_eq_none (by omega)).symm

theorem tableOf_before (hlt : generation < base) (h : base ≤ c.generation) :
    (c.before base).tableOf generation = c.tableOf generation := by
  obtain ⟨table, hsome⟩ : ∃ table, c.retired[generation]? = some table :=
    ⟨_, Array.getElem?_eq_getElem (hlt.trans_le h)⟩
  rw [tableOf, tableOf, getElem?_before hlt, hsome, Option.getD_some, Option.getD_some]

theorem tableOf_since (hle : base ≤ generation) (c : Collection) :
    (c.since base).tableOf (generation - base) = c.tableOf generation := by
  rw [tableOf, tableOf, getElem?_since, Nat.add_sub_cancel' hle]
  rfl

theorem setTable_before (hlt : generation < base) (h : base ≤ c.generation) (table : Table) :
    (c.before base).setTable generation table = (c.setTable generation table).before base := by
  rw [setTable_of_lt (hlt.trans_le h), setTable_of_lt (by rwa [generation_before h])]
  show Collection.mk _ _ _ = Collection.mk _ _ _
  congr 1
  refine Array.ext_getElem? fun id => ?_
  simp only [before, Array.getElem?_setIfInBounds, Array.getElem?_extract, Array.size_extract,
    Array.size_setIfInBounds]
  have hsize : c.retired.size = c.generation := rfl
  split_ifs <;> first | rfl | omega

theorem before_setTable (hle : base ≤ generation) (c : Collection) (table : Table) :
    (c.setTable generation table).before base = c.before base := by
  rcases Nat.lt_or_ge generation c.generation with h | h
  · rw [setTable_of_lt h]
    show Collection.mk _ _ _ = Collection.mk _ _ _
    congr 1
    refine Array.ext_getElem? fun id => ?_
    simp only [Array.getElem?_setIfInBounds, Array.getElem?_extract, Array.size_setIfInBounds]
    split_ifs <;> first | rfl | omega
  · rw [setTable_of_le h]
    rfl

theorem setTable_since (hle : base ≤ generation) (c : Collection) (table : Table) :
    (c.since base).setTable (generation - base) table = (c.setTable generation table).since base := by
  have hsize : c.retired.size = c.generation := rfl
  rcases Nat.lt_or_ge generation c.generation with h | h
  · rw [setTable_of_lt h, setTable_of_lt (by rw [generation_since]; omega)]
    show Collection.mk _ _ _ = Collection.mk _ _ _
    congr 1
    refine Array.ext_getElem? fun id => ?_
    simp only [since, Array.getElem?_setIfInBounds, Array.getElem?_extract, Array.size_extract,
      Array.size_setIfInBounds]
    split_ifs <;> first | rfl | omega
  · rw [setTable_of_le h, setTable_of_le (by rw [generation_since]; omega)]
    rfl

theorem since_setTable (hlt : generation < base) (h : base ≤ c.generation) (table : Table) :
    (c.setTable generation table).since base = c.since base := by
  rw [setTable_of_lt (hlt.trans_le h)]
  show Collection.mk _ _ _ = Collection.mk _ _ _
  congr 1
  refine Array.ext_getElem? fun id => ?_
  simp only [Array.getElem?_setIfInBounds, Array.getElem?_extract, Array.size_setIfInBounds]
  split_ifs <;> first | rfl | omega

theorem replaceTable_since (h : base ≤ c.generation) (table : Table) :
    (c.replaceTable table).since base = (c.since base).replaceTable table := by
  have hsize : c.retired.size = c.generation := rfl
  show Collection.mk _ _ _ = Collection.mk _ _ _
  congr 1
  refine Array.extract_push.trans ?_
  rw [if_neg (by simp [replaceTable])]
  exact if_pos h

theorem before_replaceTable (h : base ≤ c.generation) (table : Table) :
    (c.replaceTable table).before base = c.before base := by
  show Collection.mk _ _ _ = Collection.mk _ _ _
  congr 1
  exact Array.extract_push.trans (if_pos h)

/-- A load looks at the present contents only, and retires them. -/
theorem load_since (h : base ≤ c.generation) (source : Source) :
    (c.since base).load source = ((c.load source).1, (c.load source).2.since base) := by
  unfold load loadBytes
  cases source.failure with
  | some text => rfl
  | none =>
    rw [show (c.since base).chunkSize = c.chunkSize from rfl,
      show (c.since base).table = c.table from rfl]
    cases Snapshot.decode c.chunkSize c.table.schema source.bytes with
    | error cause => rfl
    | ok table => exact congrArg (Prod.mk _) (replaceTable_since h table).symm

theorem before_load (h : base ≤ c.generation) (source : Source) :
    (c.load source).2.before base = c.before base := by
  rcases c.load_outcome source with ⟨e, hload⟩ | ⟨table, -, hload⟩
  · rw [hload]
  · rw [hload]
    exact before_replaceTable h table

end Collection

/-! ## Transactions on the same contents -/

namespace Transaction

/-- Two transactions, each on its collection, that select the same rows of the same contents. -/
structure Matches (t : Transaction) (c : Collection) (t' : Transaction) (c' : Collection) :
    Prop where
  config : c'.config = c.config
  schema : t'.schema = t.schema
  selection : t'.selection = t.selection
  table : t'.table c' = t.table c
  passSchema : t'.passSchema c' = t.passSchema c

/-- What can be read through two transactions, each on its collection, is the same. -/
structure ReadsAlike (t : Transaction) (c : Collection) (t' : Transaction) (c' : Collection) :
    Prop where
  count : t'.count = t.count
  rows : t'.rows c' = t.rows c
  number : ∀ name row,
    (t'.floatReader name).map (·.get c' row) = (t.floatReader name).map (·.get c row)
  sum : ∀ name, (t'.floatReader name).map (·.sum c') = (t.floatReader name).map (·.sum c)
  text : ∀ name row,
    (t'.stringReader name).map (·.get c' row) = (t.stringReader name).map (·.get c row)

variable {t t' : Transaction} {c c' : Collection} {σ : Type}

theorem ReadsAlike.trans {t'' : Transaction} {c'' : Collection} (h : t.ReadsAlike c t' c')
    (h' : t'.ReadsAlike c' t'' c'') : t.ReadsAlike c t'' c'' where
  count := h'.count.trans h.count
  rows := h'.rows.trans h.rows
  number name row := (h'.number name row).trans (h.number name row)
  sum name := (h'.sum name).trans (h.sum name)
  text name row := (h'.text name row).trans (h.text name row)

theorem ReadsAlike.symm (h : t.ReadsAlike c t' c') : t'.ReadsAlike c' t c where
  count := h.count.symm
  rows := h.rows.symm
  number name row := (h.number name row).symm
  sum name := (h.sum name).symm
  text name row := (h.text name row).symm

namespace Matches

variable (h : t.Matches c t' c')

include h

theorem column (name : String) : t'.column name = t.column name := by
  rw [Transaction.column, Transaction.column, h.schema]

theorem typedColumn (name : String) (kind : Kind) :
    t'.typedColumn name kind = t.typedColumn name kind := by
  rw [Transaction.typedColumn, Transaction.typedColumn, h.column]

theorem chunk? (id : Nat) : t'.chunk? c' id = t.chunk? c id := by
  rw [Transaction.chunk?, Transaction.chunk?, h.selection, h.table]

theorem chunkSize : c'.chunkSize = c.chunkSize := congrArg Config.chunkSize h.config

theorem narrow (table : Table) (judge : Chunk → Bitmap → Bitmap) :
    t'.narrow table judge = { t.narrow table judge with generation := t'.generation } := by
  unfold Transaction.narrow
  rw [h.selection, h.schema]

/-- The filters say the same and keep the same rows. -/
theorem apply (filter : Filter) :
    filter.apply t' c' =
      (filter.apply t c).map fun kept => { kept with generation := t'.generation } := by
  cases filter with
  | select names =>
    show t'.select c' names = (t.select c names).map _
    unfold Transaction.select
    rw [h.schema, h.table]
    cases resolve t.schema names with
    | error e => rfl
    | ok slots => exact congrArg Except.ok (h.narrow _ _)
  | whereFloat name f =>
    show t'.whereFloat c' name f = (t.whereFloat c name f).map _
    unfold Transaction.whereFloat
    rw [h.typedColumn, h.table]
    cases t.typedColumn name .float64 with
    | error e => rfl
    | ok found => exact congrArg Except.ok (h.narrow _ _)
  | whereString name f =>
    show t'.whereString c' name f = (t.whereString c name f).map _
    unfold Transaction.whereString
    rw [h.column, h.table]
    cases t.column name with
    | error e => rfl
    | ok found =>
      obtain ⟨slot, column⟩ := found
      simp only [bind, Except.bind]
      cases column.kind <;> first | rfl | exact congrArg Except.ok (h.narrow _ _)
  | whereValue name f =>
    show t'.whereValue c' name f = (t.whereValue c name f).map _
    unfold Transaction.whereValue
    rw [h.column, h.table]
    cases t.column name with
    | error e => rfl
    | ok found => exact congrArg Except.ok (h.narrow _ _)

/-- A pass visits the same rows with the same outcome, and leaves either collection the same
    contents. -/
theorem pass (name : String) (visitor : Visitor σ) (state : σ) :
    ∃ (answer : σ × Except Error Unit) (table : Table), t.pass c name visitor state =
        (answer.1, answer.2, c.setTable t.generation table) ∧
      t'.pass c' name visitor state = (answer.1, answer.2, c'.setTable t'.generation table) := by
  unfold Transaction.pass
  rw [h.column]
  cases t.column name with
  | error e =>
    refine ⟨(state, .error e), t.table c, ?_, ?_⟩
    · rw [Transaction.table, Collection.setTable_tableOf]
    · rw [← h.table, Transaction.table, Collection.setTable_tableOf]
  | ok found =>
    obtain ⟨slot, column⟩ := found
    simp only [Collection.changeTable_eq, h.passSchema, h.chunkSize, h.selection]
    rw [show c'.tableOf t'.generation = c.tableOf t.generation from h.table]
    exact ⟨(_, _), _, rfl, rfl⟩

/-- A deletion of everything selected takes the same rows from either collection. -/
theorem deleteAll :
    ∃ removed table, t.deleteAll c =
        (removed, { t with selection := t.selection.map Bitmap.reset },
          c.setTable t.generation table) ∧
      t'.deleteAll c' =
        (removed, { t' with selection := t.selection.map Bitmap.reset },
          c'.setTable t'.generation table) := by
  unfold Transaction.deleteAll
  simp only [Collection.changeTable_eq, h.selection]
  rw [show c'.tableOf t'.generation = c.tableOf t.generation from h.table]
  exact ⟨_, _, rfl, rfl⟩

theorem floatReader (name : String) :
    t'.floatReader name = (t.floatReader name).map fun reader => ⟨t', reader.slot⟩ := by
  unfold Transaction.floatReader
  rw [h.typedColumn]
  cases t.typedColumn name .float64 <;> rfl

theorem stringReader (name : String) :
    t'.stringReader name = (t.stringReader name).map fun reader => ⟨t', reader.slot⟩ := by
  unfold Transaction.stringReader
  rw [h.column]
  cases t.column name with
  | error e => rfl
  | ok found =>
    simp only [bind, Except.bind]
    cases found.2.kind <;> rfl

theorem float_get (slot row : Nat) :
    (FloatReader.mk t' slot).get c' row = (FloatReader.mk t slot).get c row := by
  unfold FloatReader.get
  simp only [h.chunk?, h.chunkSize]

theorem float_sum (slot : Nat) :
    (FloatReader.mk t' slot).sum c' = (FloatReader.mk t slot).sum c := by
  unfold FloatReader.sum
  simp only [h.chunk?, h.selection]

theorem string_get (slot row : Nat) :
    (StringReader.mk t' slot).get c' row = (StringReader.mk t slot).get c row := by
  unfold StringReader.get
  simp only [h.chunk?, h.chunkSize, h.table]

/-- What can be read through the transactions is the same. -/
theorem readsAlike : t.ReadsAlike c t' c' where
  count := by rw [Transaction.count, Transaction.count, h.selection]
  rows := by
    rw [Transaction.rows, Transaction.rows, h.selection, h.chunkSize]
  number name row := by
    rw [h.floatReader]
    unfold Transaction.floatReader
    cases t.typedColumn name .float64 with
    | error e => rfl
    | ok found => exact congrArg Except.ok (h.float_get found.1 row)
  sum name := by
    rw [h.floatReader]
    unfold Transaction.floatReader
    cases t.typedColumn name .float64 with
    | error e => rfl
    | ok found => exact congrArg Except.ok (h.float_sum found.1)
  text name row := by
    rw [h.stringReader]
    unfold Transaction.stringReader
    cases t.column name with
    | error e => rfl
    | ok found =>
      simp only [bind, Except.bind]
      cases found.2.kind <;> first | rfl | exact congrArg Except.ok (h.string_get found.1 row)

end Matches

end Transaction

namespace Transaction

variable {t : Transaction} {c : Collection} {base : Nat}

/-- The transaction among the generations from one on, numbered anew. -/
def since (base : Nat) (t : Transaction) : Transaction :=
  { t with generation := t.generation - base }

/-- A transaction that knows no columns and selects nothing. -/
def closed : Transaction := ⟨0, .empty, #[]⟩

theorem matches_before (hlt : t.generation < base) (h : base ≤ c.generation) :
    t.Matches c t (c.before base) where
  config := rfl
  schema := rfl
  selection := rfl
  table := Collection.tableOf_before hlt h
  passSchema := by
    rw [Transaction.passSchema, Transaction.passSchema, Collection.generation_before h,
      if_neg (by omega), if_neg (by omega)]

theorem matches_since (hle : base ≤ t.generation) (h : base ≤ c.generation) :
    t.Matches c (t.since base) (c.since base) where
  config := rfl
  schema := rfl
  selection := rfl
  table := Collection.tableOf_since hle c
  passSchema := by
    have hiff : (t.since base).generation = (c.since base).generation ↔
        t.generation = c.generation := by
      rw [Collection.generation_since]
      show t.generation - base = _ ↔ _
      omega
    rw [Transaction.passSchema, Transaction.passSchema]
    exact ite_congr (propext hiff) (fun _ => rfl) fun _ => rfl

end Transaction

/-! ## Sessions in two parts -/

namespace Op

/-- The transaction that an operation goes through. -/
def transaction? : Op → Option Nat
  | filter id _ => some id
  | pass id .. => some id
  | deleteAll id => some id
  | _ => none

/-- Whether an operation goes through one of the first transactions. -/
def isOlder (first : Nat) (op : Op) : Bool := op.transaction?.any (· < first)

end Op

namespace Session

/-- Exactly the first transactions of a session were opened before a generation. -/
structure Parts (base first : Nat) (s : Session) : Prop where
  base_le : base ≤ s.collection.generation
  first_le : first ≤ s.transactions.size
  generation : ∀ id t, s.transactions[id]? = some t → (t.generation < base ↔ id < first)

/-- The part of a session before a generation: the contents retired by then and the first
    transactions. -/
def before (base first : Nat) (s : Session) : Session :=
  ⟨s.collection.before base, s.transactions.extract 0 first⟩

/-- The part of a session from a generation on: the contents since and the transactions but the
    first, which are closed. -/
def since (base first : Nat) (s : Session) : Session :=
  ⟨s.collection.since base,
    s.transactions.mapIdx fun id t => if id < first then .closed else t.since base⟩

variable {s : Session} {base first : Nat}

/-- No step lessens the generations. -/
theorem WellFormed.generation_le_step (h : s.WellFormed) (op : Op) :
    s.collection.generation ≤ (s.step op).2.collection.generation := by
  cases hop : op.isLoad with
  | false => exact Nat.le_of_eq (h.step_steps hop).generation.symm
  | true =>
    cases op with
    | load source =>
      show s.collection.generation ≤ (s.collection.load source).2.generation
      rcases s.collection.load_outcome source with ⟨e, hload⟩ | ⟨table, -, hload⟩
      · rw [hload]
      · rw [hload]
        exact (Nat.le_succ _).trans_eq (Array.size_push ..).symm
    | _ => cases hop

/-- A transaction that a step adds is one opened on the contents that the step finds. -/
theorem getElem?_step_of_le (s : Session) (op : Op) {id : Nat} {t : Transaction}
    (hid : s.transactions.size ≤ id) (ht : (s.step op).2.transactions[id]? = some t) :
    t = .start s.collection ∧ id = s.transactions.size ∧ op = .begin := by
  have habsent {op' : Op} {transactions : Array Transaction}
      (hsize : transactions.size = s.transactions.size) (ht : transactions[id]? = some t) :
      t = .start s.collection ∧ id = s.transactions.size ∧ op' = .begin := by
    rw [Array.getElem?_eq_none (hsize.trans_le hid)] at ht
    cases ht
  cases op with
  | begin =>
    rw [show (s.step .begin).2.transactions = s.transactions.push (.start s.collection) from rfl,
      Array.getElem?_push] at ht
    split_ifs at ht with hlast
    · exact ⟨(Option.some.inj ht).symm, hlast, rfl⟩
    · exact habsent rfl ht
  | filter i filter =>
    rw [step] at ht
    cases hi : s.transactions[i]? with
    | none => exact habsent rfl (by simpa only [hi] using ht)
    | some old =>
      simp only [hi] at ht
      cases happly : filter.apply old s.collection with
      | error e => exact habsent rfl (by simpa only [happly] using ht)
      | ok kept => exact habsent Array.size_setIfInBounds (by simpa only [happly] using ht)
  | pass i column visitor state =>
    rw [step] at ht
    cases hi : s.transactions[i]? <;> exact habsent rfl (by simpa only [hi] using ht)
  | deleteAll i =>
    rw [step] at ht
    cases hi : s.transactions[i]? with
    | none => exact habsent rfl (by simpa only [hi] using ht)
    | some old => exact habsent Array.size_setIfInBounds (by simpa only [hi] using ht)
  | _ => exact habsent rfl ht

/-- The number of transactions grows by opening one, and else it stays. -/
theorem size_step_of_ne (s : Session) {op : Op} (hop : op ≠ .begin) :
    (s.step op).2.transactions.size = s.transactions.size := by
  apply le_antisymm
  · by_contra hlt
    have hlast := Array.getElem?_eq_getElem (Nat.lt_of_not_le hlt)
    exact hop (s.getElem?_step_of_le op le_rfl hlast).2.2
  · by_contra hlt
    have hfirst := Array.getElem?_eq_getElem (Nat.lt_of_not_le hlt)
    obtain ⟨t', ht', -⟩ := s.views_step op hfirst
    rw [Array.getElem?_eq_none le_rfl] at ht'
    cases ht'

/-- The parts stay apart. -/
theorem Parts.step (hparts : s.Parts base first) (h : s.WellFormed) (op : Op) :
    (s.step op).2.Parts base first where
  base_le := hparts.base_le.trans (h.generation_le_step op)
  first_le := by
    rcases Nat.eq_zero_or_pos first with rfl | hpos
    · exact Nat.zero_le _
    · have hlt : first - 1 < s.transactions.size := by
        have := hparts.first_le
        omega
      obtain ⟨t, ht, -⟩ := s.views_step op (Array.getElem?_eq_getElem hlt)
      have := (Array.getElem?_eq_some_iff.mp ht).1
      omega
  generation id t' ht' := by
    rcases Nat.lt_or_ge id s.transactions.size with hid | hid
    · obtain ⟨t, ht, hviews⟩ := s.views_step op (Array.getElem?_eq_getElem hid)
      obtain rfl := Option.some.inj (ht'.symm.trans ht)
      rw [hviews.generation]
      exact hparts.generation id _ (Array.getElem?_eq_getElem hid)
    · obtain ⟨rfl, -⟩ := s.getElem?_step_of_le op hid ht'
      have hnew : base ≤ (Transaction.start s.collection).generation := hparts.base_le
      have := hparts.first_le
      omega

theorem getElem?_since (base first : Nat) (s : Session) (id : Nat) :
    (s.since base first).transactions[id]? =
      s.transactions[id]?.map fun t => if id < first then .closed else t.since base :=
  Array.getElem?_mapIdx

theorem getElem?_before {id : Nat} (hid : id < first) (s : Session) :
    (s.before base first).transactions[id]? = s.transactions[id]? := by
  show (s.transactions.extract 0 first)[id]? = _
  rw [Array.getElem?_extract, Nat.sub_zero, Nat.zero_add]
  split_ifs with h
  · rfl
  · exact (Array.getElem?_eq_none (by omega)).symm

/-! ## An operation in its own part -/

/-- An operation through a transaction puts other contents in the place of those it works on, and a
    smaller selection in the place of its own. Through a transaction that matches, it does the same
    elsewhere. -/
theorem step_through {s s' : Session} {op : Op} {id : Nat} {t t' : Transaction}
    (hop : op.transaction? = some id) (ht : s.transactions[id]? = some t)
    (ht' : s'.transactions[id]? = some t') (h : t.Matches s.collection t' s'.collection) :
    ∃ (table : Table) (kept : Transaction), kept.generation = t.generation ∧
      (s.step op).2 =
        ⟨s.collection.setTable t.generation table, s.transactions.setIfInBounds id kept⟩ ∧
      s'.step op = ((s.step op).1, ⟨s'.collection.setTable t'.generation table,
        s'.transactions.setIfInBounds id { kept with generation := t'.generation }⟩) := by
  have hself : ({ t with generation := t'.generation } : Transaction) = t' := by
    rw [← h.schema, ← h.selection]
  have htable : s.collection.setTable t.generation (t.table s.collection) = s.collection :=
    Collection.setTable_tableOf ..
  have htable' : s'.collection.setTable t'.generation (t.table s.collection) = s'.collection := by
    rw [← h.table]
    exact Collection.setTable_tableOf ..
  cases op with
  | filter i filter =>
    obtain rfl := Option.some.inj hop
    simp only [step, ht, ht', h.apply]
    cases happly : filter.apply t s.collection with
    | error e =>
      refine ⟨t.table s.collection, t, rfl, ?_, ?_⟩
      · rw [htable, setIfInBounds_self ht]
      · rw [htable', hself, setIfInBounds_self ht']
        rfl
    | ok kept =>
      refine ⟨t.table s.collection, kept, ?_, ?_, ?_⟩
      · obtain ⟨judge, rfl⟩ := Transaction.narrow_of_apply happly
        rfl
      · rw [htable]
      · rw [htable']
        rfl
  | pass i column visitor state =>
    obtain rfl := Option.some.inj hop
    obtain ⟨answer, table, hpass, hpass'⟩ := h.pass column visitor state
    simp only [step, ht, ht', hpass, hpass']
    refine ⟨table, t, rfl, ?_, ?_⟩
    · rw [setIfInBounds_self ht]
    · rw [hself, setIfInBounds_self ht']
  | deleteAll i =>
    obtain rfl := Option.some.inj hop
    obtain ⟨removed, table, hdelete, hdelete'⟩ := h.deleteAll
    simp only [step, ht, ht', hdelete, hdelete']
    exact ⟨table, { t with selection := t.selection.map Bitmap.reset }, rfl, rfl, by rw [h.schema]⟩
  | _ => cases hop

theorem step_of_missing {s s' : Session} {op : Op} {id : Nat} (hop : op.transaction? = some id)
    (ht : s.transactions[id]? = none) (ht' : s'.transactions[id]? = none) :
    (s.step op).2 = s ∧ s'.step op = ((s.step op).1, s') := by
  cases op with
  | filter i filter =>
    obtain rfl := Option.some.inj hop
    simp only [step, ht, ht', and_self]
  | pass i column visitor state =>
    obtain rfl := Option.some.inj hop
    simp only [step, ht, ht', and_self]
  | deleteAll i =>
    obtain rfl := Option.some.inj hop
    simp only [step, ht, ht', and_self]
  | _ => cases hop

/-- A later transaction in the part since. -/
theorem Parts.later (hparts : s.Parts base first) {id : Nat} (hid : first ≤ id) {t : Transaction}
    (ht : s.transactions[id]? = some t) :
    base ≤ t.generation ∧ (s.since base first).transactions[id]? = some (t.since base) ∧
      t.Matches s.collection (t.since base) (s.since base first).collection := by
  have hle : base ≤ t.generation := by
    have := hparts.generation id t ht
    omega
  refine ⟨hle, ?_, Transaction.matches_since hle hparts.base_le⟩
  rw [getElem?_since, ht, Option.map_some, if_neg (Nat.not_lt.mpr hid)]

/-- One of the first transactions in the part before. -/
theorem Parts.earlier (hparts : s.Parts base first) {id : Nat} (hid : id < first) {t : Transaction}
    (ht : s.transactions[id]? = some t) :
    t.generation < base ∧ (s.before base first).transactions[id]? = some t ∧
      t.Matches s.collection t (s.before base first).collection := by
  have hlt : t.generation < base := (hparts.generation id t ht).mpr hid
  exact ⟨hlt, (getElem?_before hid s).trans ht, Transaction.matches_before hlt hparts.base_le⟩

/-! ## An operation in its own part and in the other -/

theorem Parts.step_since_of_none (hparts : s.Parts base first) {op : Op}
    (hop : op.transaction? = none) :
    (s.since base first).step op = ((s.step op).1, (s.step op).2.since base first) := by
  cases op with
  | load source =>
    simp only [Session.step]
    rw [show (s.since base first).collection = s.collection.since base from rfl,
      Collection.load_since hparts.base_le]
    rfl
  | begin =>
    have hstart : Transaction.start (s.collection.since base) =
        (Transaction.start s.collection).since base := by
      show Transaction.mk _ _ _ = Transaction.mk _ _ _
      rw [Collection.generation_since]
      rfl
    simp only [Session.step]
    congr 1
    show Session.mk _ _ = Session.mk _ _
    congr 1
    rw [Array.mapIdx_push, if_neg (Nat.not_lt.mpr hparts.first_le), ← hstart]
    rfl
  | filter id filter => cases hop
  | pass id column visitor state => cases hop
  | deleteAll id => cases hop
  | _ => rfl

theorem Parts.before_step_of_none (hparts : s.Parts base first) {op : Op}
    (hop : op.transaction? = none) : (s.step op).2.before base first = s.before base first := by
  cases op with
  | load source =>
    show Session.mk _ _ = Session.mk _ _
    congr 1
    exact Collection.before_load hparts.base_le source
  | begin =>
    show Session.mk _ _ = Session.mk _ _
    congr 1
    exact Array.extract_push.trans (if_pos hparts.first_le)
  | filter id filter => cases hop
  | pass id column visitor state => cases hop
  | deleteAll id => cases hop
  | _ => rfl

/-- An operation that does not go through the first transactions takes place in the part since. -/
theorem Parts.step_since (hparts : s.Parts base first) {op : Op} (hop : op.isOlder first = false) :
    (s.since base first).step op = ((s.step op).1, (s.step op).2.since base first) := by
  cases hthrough : op.transaction? with
  | none => exact hparts.step_since_of_none hthrough
  | some id =>
    have hid : first ≤ id := by simpa [Op.isOlder, hthrough] using hop
    cases ht : s.transactions[id]? with
    | none =>
      have hnone : (s.since base first).transactions[id]? = none := by
        rw [getElem?_since, ht, Option.map_none]
      obtain ⟨hstep, hstep'⟩ := step_of_missing hthrough ht hnone
      rw [hstep', hstep]
    | some t =>
      obtain ⟨hle, ht', hmatches⟩ := hparts.later hid ht
      obtain ⟨table, kept, hgen, hstep, hstep'⟩ := step_through hthrough ht ht' hmatches
      rw [hstep', hstep]
      congr 1
      show Session.mk _ _ = Session.mk _ _
      congr 1
      · exact Collection.setTable_since hle s.collection table
      · have hkept : ({ kept with generation := (t.since base).generation } : Transaction) =
            kept.since base := by rw [Transaction.since, Transaction.since, hgen]
        rw [Array.mapIdx_setIfInBounds, if_neg (Nat.not_lt.mpr hid), hkept]
        rfl

/-- An operation through one of the first transactions leaves the part since as it was. -/
theorem Parts.since_step (hparts : s.Parts base first) {op : Op} (hop : op.isOlder first = true) :
    (s.step op).2.since base first = s.since base first := by
  cases hthrough : op.transaction? with
  | none => simp [Op.isOlder, hthrough] at hop
  | some id =>
    have hid : id < first := by simpa [Op.isOlder, hthrough] using hop
    cases ht : s.transactions[id]? with
    | none => rw [(step_of_missing hthrough ht ht).1]
    | some t =>
      obtain ⟨hlt, ht', hmatches⟩ := hparts.earlier hid ht
      obtain ⟨table, kept, -, hstep, -⟩ := step_through hthrough ht ht' hmatches
      rw [hstep]
      show Session.mk _ _ = Session.mk _ _
      congr 1
      · exact Collection.since_setTable hlt hparts.base_le table
      · rw [Array.mapIdx_setIfInBounds, if_pos hid]
        exact setIfInBounds_self (by rw [Array.getElem?_mapIdx, ht, Option.map_some, if_pos hid])

/-- An operation through one of the first transactions takes place in the part before. -/
theorem Parts.step_before (hparts : s.Parts base first) {op : Op} (hop : op.isOlder first = true) :
    (s.before base first).step op = ((s.step op).1, (s.step op).2.before base first) := by
  cases hthrough : op.transaction? with
  | none => simp [Op.isOlder, hthrough] at hop
  | some id =>
    have hid : id < first := by simpa [Op.isOlder, hthrough] using hop
    cases ht : s.transactions[id]? with
    | none =>
      have hnone : (s.before base first).transactions[id]? = none := (getElem?_before hid s).trans ht
      obtain ⟨hstep, hstep'⟩ := step_of_missing hthrough ht hnone
      rw [hstep', hstep]
    | some t =>
      obtain ⟨hlt, ht', hmatches⟩ := hparts.earlier hid ht
      obtain ⟨table, kept, hgen, hstep, hstep'⟩ := step_through hthrough ht ht' hmatches
      rw [hstep', hstep, ← hgen]
      congr 1
      show Session.mk _ _ = Session.mk _ _
      congr 1
      · rw [hgen]
        exact Collection.setTable_before hlt hparts.base_le table
      · refine Array.ext_getElem? fun i => ?_
        simp only [before, Array.getElem?_setIfInBounds, Array.getElem?_extract,
          Array.size_extract, Array.size_setIfInBounds, Nat.sub_zero, Nat.zero_add]
        split_ifs <;> first | rfl | omega

/-- An operation that does not go through the first transactions leaves the part before as it
    was. -/
theorem Parts.before_step (hparts : s.Parts base first) {op : Op} (hop : op.isOlder first = false) :
    (s.step op).2.before base first = s.before base first := by
  cases hthrough : op.transaction? with
  | none => exact hparts.before_step_of_none hthrough
  | some id =>
    have hid : first ≤ id := by simpa [Op.isOlder, hthrough] using hop
    cases ht : s.transactions[id]? with
    | none => rw [(step_of_missing hthrough ht ht).1]
    | some t =>
      obtain ⟨hle, ht', hmatches⟩ := hparts.later hid ht
      obtain ⟨table, kept, -, hstep, -⟩ := step_through hthrough ht ht' hmatches
      rw [hstep]
      show Session.mk _ _ = Session.mk _ _
      congr 1
      · exact Collection.before_setTable hle s.collection table
      · refine Array.ext_getElem? fun i => ?_
        simp only [Array.getElem?_setIfInBounds, Array.getElem?_extract, Array.size_setIfInBounds]
        split_ifs <;> first | rfl | omega

/-! ## Runs -/

theorem Parts.run (hparts : s.Parts base first) (h : s.WellFormed) (ops : List Op) :
    (s.run ops).Parts base first := by
  induction ops generalizing s with
  | nil => exact hparts
  | cons op rest ih => exact ih (hparts.step h op) (h.step op)

/-- The part since, after a run, is what the operations that do not go through the first
    transactions make of it. -/
theorem Parts.since_run (hparts : s.Parts base first) (h : s.WellFormed) (ops : List Op) :
    (s.run ops).since base first =
      (s.since base first).run (ops.filter fun op => !op.isOlder first) := by
  induction ops generalizing s with
  | nil => rfl
  | cons op rest ih =>
    rw [run_cons, ih (hparts.step h op) (h.step op), List.filter_cons]
    cases hop : op.isOlder first with
    | true =>
      rw [hparts.since_step hop]
      rfl
    | false =>
      rw [Bool.not_false, if_pos rfl, run_cons, hparts.step_since hop]

/-- The part before, after a run, is what the operations through the first transactions make of
    it. -/
theorem Parts.before_run (hparts : s.Parts base first) (h : s.WellFormed) (ops : List Op) :
    (s.run ops).before base first =
      (s.before base first).run (ops.filter fun op => op.isOlder first) := by
  induction ops generalizing s with
  | nil => rfl
  | cons op rest ih =>
    rw [run_cons, ih (hparts.step h op) (h.step op), List.filter_cons]
    cases hop : op.isOlder first with
    | true => rw [if_pos rfl, run_cons, hparts.step_before hop]
    | false =>
      rw [hparts.before_step hop]
      rfl

end Session

end ColumnStore
