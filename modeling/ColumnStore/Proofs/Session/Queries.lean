import ColumnStore.Proofs.Session

/-!
# Queries of sessions

What a transaction has selected is said row by row. `Session.judges` says whether an operation lets
a transaction keep a row: a filter that succeeds on it keeps the rows that satisfy it at that
moment, its deletion of everything keeps none, and no other operation takes a row out.
`Session.passes` runs this along a list of operations.

* `Session.WellFormed.rows_step`, `Session.WellFormed.rows_run`: the selection after a step and
  after a run, from the one before;
* `Reachable.rows_run_begin`: a transaction opened in any session selects, after any operations but
  loads, the rows that were live at its opening and pass them all.
-/

namespace ColumnStore

/-- Whether an operation is a filter or a deletion of a transaction. -/
def Op.narrows (id : Nat) : Op → Bool
  | .filter i _ => i == id
  | .deleteAll i => i == id
  | _ => false

namespace Session

variable {s : Session}

theorem run_cons (s : Session) (op : Op) (rest : List Op) :
    s.run (op :: rest) = (s.step op).2.run rest := rfl

/-- What holds at every place of a list holds at the first and at every place of the rest. -/
theorem forall_split_cons {α : Type*} {p : List α → α → Prop} {a : α} {rest : List α} :
    (∀ before b after, a :: rest = before ++ b :: after → p before b) ↔
      p [] a ∧ ∀ before b after, rest = before ++ b :: after → p (a :: before) b := by
  constructor
  · intro h
    exact ⟨h [] a rest rfl, fun before b after heq => h (a :: before) b after (heq ▸ rfl)⟩
  · rintro ⟨hfirst, hrest⟩ before b after heq
    cases before with
    | nil =>
      cases heq
      exact hfirst
    | cons _ before =>
      cases heq
      exact hrest before b after rfl

/-- What holds at the beginnings of a list holds at the empty one and at those of the rest. -/
theorem forall_prefix_cons {α : Type*} {p : List α → Prop} {a : α} {rest : List α} :
    (∀ before, before <+: a :: rest → p before) ↔
      p [] ∧ ∀ before, before <+: rest → p (a :: before) := by
  simp only [List.prefix_cons_iff]
  constructor
  · exact fun h => ⟨h [] (Or.inl rfl), fun before hbefore => h _ (Or.inr ⟨before, rfl, hbefore⟩)⟩
  · rintro ⟨hnil, hcons⟩ before (rfl | ⟨before, rfl, hbefore⟩)
    · exact hnil
    · exact hcons before hbefore

/-- Whether a transaction keeps a row over an operation. -/
def judges (s : Session) (id : Nat) : Op → Nat → Bool
  | .filter i filter, row =>
    i != id ||
      match ((s.step (.filter i filter)).1 : Option (Except Error Unit)) with
      | some (.ok ()) => s.collection.satisfies filter row
      | _ => true
  | .deleteAll i, _ => i != id
  | _, _ => true

/-- Whether a transaction keeps a row over operations in order. -/
def passes (s : Session) (id : Nat) : List Op → Nat → Bool
  | [], _ => true
  | op :: rest, row => s.judges id op row && (s.step op).2.passes id rest row

/-- Operations that are no loads keep the invariant and the contents. -/
theorem WellFormed.run_steps (h : s.WellFormed) {ops : List Op}
    (hops : ∀ op ∈ ops, op.isLoad = false) :
    (s.run ops).WellFormed ∧ (s.run ops).collection.config = s.collection.config ∧
      (s.run ops).collection.generation = s.collection.generation := by
  induction ops generalizing s with
  | nil => exact ⟨h, rfl, rfl⟩
  | cons op rest ih =>
    rw [List.forall_mem_cons] at hops
    have hsteps := h.step_steps hops.1
    obtain ⟨hwf, hconfig, hgen⟩ := ih (h.step op) hops.2
    exact ⟨hwf, hconfig.trans hsteps.config, hgen.trans hsteps.generation⟩

theorem getElem?_setIfInBounds_self {transactions : Array Transaction} {id : Nat}
    {t : Transaction} (ht : transactions[id]? = some t) (t' : Transaction) :
    (transactions.setIfInBounds id t')[id]? = some t' := by
  have hlt := (Array.getElem?_eq_some_iff.mp ht).1
  rw [Array.getElem?_setIfInBounds, if_pos rfl, if_pos hlt]

theorem setIfInBounds_self {transactions : Array Transaction} {id : Nat} {t : Transaction}
    (ht : transactions[id]? = some t) : transactions.setIfInBounds id t = transactions := by
  obtain ⟨hlt, rfl⟩ := Array.getElem?_eq_some_iff.mp ht
  rw [Array.setIfInBounds_def, dif_pos hlt, Array.set_getElem_self]

theorem filter_true (xs : List Nat) : xs.filter (fun _ => true) = xs :=
  List.filter_eq_self.mpr fun _ _ => rfl

/-- Any operation but its own filters and deletions leaves a transaction as it is and lets it keep
    every row. -/
theorem getElem?_step_of_not_narrows {op : Op} {id : Nat} (hop : op.narrows id = false)
    {t : Transaction} (ht : s.transactions[id]? = some t) :
    (s.step op).2.transactions[id]? = some t ∧ s.judges id op = fun _ => true := by
  cases op with
  | begin =>
    refine ⟨?_, rfl⟩
    have hlt := (Array.getElem?_eq_some_iff.mp ht).1
    rw [Session.step, Array.getElem?_push_lt hlt, ← Array.getElem?_eq_getElem hlt, ht]
  | pass i column visitor state =>
    refine ⟨?_, rfl⟩
    rw [Session.step]
    cases s.transactions[i]? <;> exact ht
  | filter i filter =>
    have hi : i ≠ id := beq_eq_false_iff_ne.mp hop
    refine ⟨?_, ?_⟩
    · rw [Session.step]
      cases s.transactions[i]? with
      | none => exact ht
      | some other =>
        simp only
        cases filter.apply other s.collection with
        | error e => exact ht
        | ok t' =>
          rw [Array.getElem?_setIfInBounds_ne hi]
          exact ht
    · funext row
      rw [judges, bne_iff_ne.mpr hi, Bool.true_or]
  | deleteAll i =>
    have hi : i ≠ id := beq_eq_false_iff_ne.mp hop
    refine ⟨?_, ?_⟩
    · rw [Session.step]
      cases s.transactions[i]? with
      | none => exact ht
      | some other =>
        simp only
        rw [Array.getElem?_setIfInBounds_ne hi]
        exact ht
    · funext row
      rw [judges, bne_iff_ne.mpr hi]
  | _ => exact ⟨ht, rfl⟩

/-- What a transaction selects after a step. -/
theorem WellFormed.rows_step (h : s.WellFormed) {op : Op} (hop : op.isLoad = false) {id : Nat}
    {t : Transaction} (ht : s.transactions[id]? = some t)
    (hgen : t.generation = s.collection.generation) :
    ∃ t', (s.step op).2.transactions[id]? = some t' ∧ t'.generation = t.generation ∧
      t'.rows (s.step op).2.collection = (t.rows s.collection).filter (s.judges id op) := by
  have hsteps := h.step_steps hop
  have hrows : ∀ t' : Transaction,
      t'.rows (s.step op).2.collection = t'.rows s.collection := by
    intro t'
    rw [Transaction.rows_eq, Transaction.rows_eq, hsteps.config]
  have hsame (htransactions : (s.step op).2.transactions[id]? = some t)
      (hjudges : s.judges id op = fun _ => true) :
      ∃ t', (s.step op).2.transactions[id]? = some t' ∧ t'.generation = t.generation ∧
        t'.rows (s.step op).2.collection = (t.rows s.collection).filter (s.judges id op) :=
    ⟨t, htransactions, rfl, by rw [hrows, hjudges, filter_true]⟩
  cases hnarrows : op.narrows id with
  | false =>
    obtain ⟨htransactions, hjudges⟩ := getElem?_step_of_not_narrows hnarrows ht
    exact hsame htransactions hjudges
  | true =>
    cases op with
    | filter i filter =>
      obtain rfl : i = id := beq_iff_eq.mp hnarrows
      cases happly : filter.apply t s.collection with
      | error e =>
        refine hsame ?_ ?_
        · simp only [Session.step, ht, happly]
        · funext row
          simp only [judges, Session.step, ht, happly, Bool.or_true]
      | ok t' =>
        have hopen := h.current t (Array.mem_of_getElem? ht) hgen
        obtain ⟨-, hfiltered⟩ := hopen.apply h.table (Transaction.table_of_current hgen) happly
        obtain ⟨judge, hnarrow⟩ := Transaction.narrow_of_apply happly
        refine ⟨t', ?_, by rw [hnarrow]; rfl, ?_⟩
        · simp only [Session.step, ht, happly]
          exact getElem?_setIfInBounds_self ht t'
        · rw [hrows, hfiltered]
          congr 1
          funext row
          simp only [judges, Session.step, ht, happly, bne_self_eq_false, Bool.false_or]
    | deleteAll i =>
      obtain rfl : i = id := beq_iff_eq.mp hnarrows
      refine ⟨{ t with selection := t.selection.map Bitmap.reset }, ?_, rfl, ?_⟩
      · simp only [Session.step, ht]
        exact getElem?_setIfInBounds_self ht _
      · have hnone : s.judges i (.deleteAll i) = fun _ => false := by
          funext row
          rw [judges, bne_self_eq_false]
        rw [hrows, hnone, List.filter_false, Transaction.rows_eq, Array.toList_map,
          Transaction.rowsFrom_reset]
    | _ => cases hnarrows

/-- What a transaction selects after a run. -/
theorem WellFormed.rows_run (h : s.WellFormed) {ops : List Op}
    (hops : ∀ op ∈ ops, op.isLoad = false) {id : Nat} {t : Transaction}
    (ht : s.transactions[id]? = some t) (hgen : t.generation = s.collection.generation) :
    ∃ t', (s.run ops).transactions[id]? = some t' ∧ t'.generation = t.generation ∧
      t'.rows (s.run ops).collection = (t.rows s.collection).filter (s.passes id ops) := by
  induction ops generalizing s t with
  | nil => exact ⟨t, ht, rfl, (filter_true _).symm⟩
  | cons op rest ih =>
    rw [List.forall_mem_cons] at hops
    obtain ⟨t₁, ht₁, hgen₁, hrows₁⟩ := h.rows_step hops.1 ht hgen
    have hsteps := h.step_steps hops.1
    obtain ⟨t₂, ht₂, hgen₂, hrows₂⟩ := ih (h.step op) hops.2 ht₁
      (hgen₁.trans (hgen.trans hsteps.generation.symm))
    refine ⟨t₂, ht₂, hgen₂.trans hgen₁, ?_⟩
    rw [run_cons, hrows₂, hrows₁, List.filter_filter]
    congr 1
    funext row
    rw [passes, Bool.and_comm]

theorem passes_append (s : Session) (id : Nat) (before after : List Op) (row : Nat) :
    s.passes id (before ++ after) row =
      (s.passes id before row && (s.run before).passes id after row) := by
  induction before generalizing s with
  | nil => rfl
  | cons op rest ih =>
    rw [List.cons_append, passes, passes, ih, run_cons, Bool.and_assoc]

/-- What a transaction selects was given out before. -/
theorem WellFormed.lt_nextRow_of_mem_rows (h : s.WellFormed) {id : Nat} {t : Transaction}
    (ht : s.transactions[id]? = some t) (hgen : t.generation = s.collection.generation) {row : Nat}
    (hrow : row ∈ t.rows s.collection) : row < s.collection.table.nextRow := by
  have hopen := h.current t (Array.mem_of_getElem? ht) hgen
  rw [Transaction.rows_eq, Selection.mem_rowsFrom hopen.bounded] at hrow
  exact (hopen.settled row hrow).lt_nextRow

/-- A new row was not given out before. -/
theorem WellFormed.eq_nextRow_of_insert (h : s.WellFormed) {record : Record} {row : Nat}
    (hinsert : (s.step (.insert record)).1 = Except.ok row) : row = s.collection.table.nextRow := by
  have hanswer : (Table.insert s.collection.config record s.collection.table).1 = .ok row := hinsert
  cases hfind : (Table.fields s.collection.table.schema record).find? Table.illTyped with
  | some field =>
    obtain ⟨slot, column, value⟩ := field
    rw [Table.insert_of_illTyped hfind] at hanswer
    cases hanswer
  | none =>
    obtain ⟨table', heq, -⟩ := h.table.insert hfind
    rw [heq] at hanswer
    cases hanswer
    rfl

end Session

/-- The selection of a transaction opened in any session, after any operations but loads: in
    ascending order the rows that were live when it opened and that every filter, when it ran, was
    satisfied by. -/
theorem Reachable.rows_run_begin {s : Session} (h : Reachable s) {ops : List Op}
    (hops : ∀ op ∈ ops, op.isLoad = false) :
    ∃ t, ((s.step .begin).2.run ops).transactions[s.transactions.size]? = some t ∧
      t.rows ((s.step .begin).2.run ops).collection =
        (List.range s.collection.table.nextRow).filter (fun row =>
          (s.collection.fetch row).isSome &&
            (s.step .begin).2.passes s.transactions.size ops row) ∧
      (t.rows ((s.step .begin).2.run ops).collection).Pairwise (· < ·) ∧
      t.count = (t.rows ((s.step .begin).2.run ops).collection).length ∧
      ∀ before record after row, ops = before ++ .insert record :: after →
        (((s.step .begin).2.run before).step (.insert record)).1 = Except.ok row →
        row ∉ t.rows ((s.step .begin).2.run ops).collection := by
  have hwf := (h.step .begin).wellFormed
  have hlast : (s.step .begin).2.transactions[s.transactions.size]? =
      some (.start s.collection) := Array.getElem?_push_size
  obtain ⟨t, ht, hgen, hrows⟩ := hwf.rows_run hops hlast rfl
  obtain ⟨hend, -, hendGen⟩ := hwf.run_steps hops
  have hopen := hend.current t (Array.mem_of_getElem? ht) (hgen.trans hendGen.symm)
  refine ⟨t, ht, ?_, Selection.rowsFrom_pairwise hopen.bounded 0,
    (Selection.length_rowsFrom t.selection.toList 0).symm, ?_⟩
  · have hstart : (Transaction.start s.collection).rows (s.step .begin).2.collection =
        s.collection.table.liveRows s.collection.config := Transaction.rows_start h.wellFormed.table
    rw [hrows, hstart, Table.liveRows, List.filter_filter]
    refine List.filter_congr fun row _ => ?_
    have hlive : (s.collection.fetch row).isSome =
        s.collection.table.isLive s.collection.config row := by
      rw [Collection.fetch, h.wellFormed.table.fetch_eq]
      cases s.collection.table.isLive s.collection.config row <;> rfl
    rw [hlive, Bool.and_comm]
  · rintro before record after row rfl hinsert hmem
    rw [List.forall_mem_append] at hops
    obtain ⟨t₁, ht₁, hgen₁, hrows₁⟩ := hwf.rows_run hops.1 hlast rfl
    obtain ⟨hmid, -, hmidGen⟩ := hwf.run_steps hops.1
    have hmem₁ : row ∈ t₁.rows ((s.step .begin).2.run before).collection := by
      rw [hrows, List.mem_filter, Session.passes_append, Bool.and_eq_true] at hmem
      rw [hrows₁, List.mem_filter]
      exact ⟨hmem.1, hmem.2.1⟩
    have hlt := hmid.lt_nextRow_of_mem_rows ht₁ (hgen₁.trans hmidGen.symm) hmem₁
    have heq := hmid.eq_nextRow_of_insert hinsert
    omega

/-- A row that is inserted with a set flag after the filter for set flags is not selected. -/
theorem rows_run_begin_flags :
    ∃ t, ((Session.flags.step .begin).2.run
        [.filter 0 (.select ["set"]), .insert [("flag", .bool true)]]).transactions[0]? = some t ∧
      t.rows ((Session.flags.step .begin).2.run
        [.filter 0 (.select ["set"]), .insert [("flag", .bool true)]]).collection = [0] := by
  have hops : ∀ op ∈ [Op.filter 0 (.select ["set"]), .insert [("flag", .bool true)]],
      op.isLoad = false := by
    simp [Op.isLoad]
  obtain ⟨t, ht, hrows, -⟩ := reachable_flags.rows_run_begin hops
  refine ⟨t, ht, hrows.trans ?_⟩
  decide +kernel

end ColumnStore
