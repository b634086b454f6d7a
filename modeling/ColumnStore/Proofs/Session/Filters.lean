import ColumnStore.Proofs.Session.Queries
import ColumnStore.Proofs.Transaction.Algebra

/-!
# Lists of filters in a session

Filters put to one transaction one after another, some of which may be refused.

* `Session.run_filters`: what a list of filters does to a session;
* `Session.filter_algebra`: order and repetition of filters do not matter, names can be asked for
  together or apart, and a filter that is refused, by an unknown name at any place of its list, by a
  name that is not a column's or by a column of another kind, changes nothing.
-/

namespace ColumnStore

theorem Schema.column?_of_lookup {schema : Schema} {name : String}
    (h : ∀ slot, schema.lookup name ≠ some (.column slot)) : schema.column? name = none := by
  cases hslot : schema.columnSlot? name with
  | none => simp [column?, hslot]
  | some slot => exact absurd (by simp [lookup, hslot]) (h slot)

namespace Transaction

variable {t : Transaction}

/-- A list of names is refused for the first that is unknown. -/
theorem fault?_select {before after : List String} {name : String}
    (hknown : ∀ known ∈ before, t.schema.lookup known ≠ none)
    (hunknown : t.schema.lookup name = none) :
    t.fault? (.select (before ++ name :: after)) = some (.unknownSelector name) := by
  have hfind : (before.find? fun known => (t.schema.lookup known).isNone) = none := by
    rw [List.find?_eq_none]
    intro known hmem hnone
    exact hknown known hmem (Option.isNone_iff_eq_none.mp hnone)
  simp only [fault?, Filter.fault?, ← isNone_lookup]
  rw [List.find?_append, hfind, List.find?_cons_of_pos (by rw [hunknown]; rfl)]
  rfl

theorem columnNamed_of_column? {name : String} {found : Option (Nat × Column)}
    (h : t.schema.column? name = found) :
    columnNamed t.schema.columns.toList name = found.map Prod.snd := by
  rw [Schema.columnNamed_eq, h]

end Transaction

namespace Session

open Transaction (refine refineAll)

variable {s : Session} {id : Nat} {t : Transaction}

/-- A filter is refused with its fault, and then nothing changes. -/
theorem step_filter (ht : s.transactions[id]? = some t) (filter : Filter) :
    s.step (.filter id filter) =
      (some (match t.fault? filter with
          | some e => .error e
          | none => .ok ()),
        { s with
          transactions := s.transactions.setIfInBounds id (refine s.collection t filter) }) := by
  rw [step]
  simp only [ht]
  cases h : t.fault? filter with
  | some e =>
    rw [Transaction.apply_of_fault h, Transaction.refine_of_fault h, setIfInBounds_self ht]
    rfl
  | none =>
    obtain ⟨judge, -, happly⟩ := Transaction.exists_narrows h s.collection
    have hnarrow : filter.apply t s.collection = _ := happly t.selection
    rw [hnarrow, refine, hnarrow]
    rfl

theorem answer_of_fault (ht : s.transactions[id]? = some t) {filter : Filter} {e : Error}
    (h : t.fault? filter = some e) :
    (s.step (.filter id filter)).1 = some (Except.error e) := by
  rw [step_filter ht, h]

theorem step_filter_of_missing (ht : s.transactions[id]? = none) (filter : Filter) :
    s.step (.filter id filter) = (none, s) := by
  rw [step]
  simp only [ht]
  rfl

/-- What a list of filters does to a session. -/
theorem run_filters (ht : s.transactions[id]? = some t) (filters : List Filter) :
    s.run (filters.map (.filter id)) =
      { s with
        transactions := s.transactions.setIfInBounds id (refineAll s.collection t filters) } := by
  induction filters generalizing s t with
  | nil =>
    show s = _
    rw [refineAll, List.foldl_nil, setIfInBounds_self ht]
  | cons filter rest ih =>
    rw [List.map_cons, run_cons, step_filter ht]
    rw [ih (getElem?_setIfInBounds_self ht _), Array.setIfInBounds_setIfInBounds]
    rfl

theorem run_filters_of_missing (ht : s.transactions[id]? = none) (filters : List Filter) :
    s.run (filters.map (.filter id)) = s := by
  induction filters with
  | nil => rfl
  | cons filter rest ih => rw [List.map_cons, run_cons, step_filter_of_missing ht, ih]

/-- A list of names that is not refused is known throughout. -/
theorem exists_resolve_of_ok (ht : s.transactions[id]? = some t) {names : List String}
    (h : (s.step (.filter id (.select names))).1 = some (Except.ok ())) :
    ∃ slots, Transaction.resolve t.schema names = .ok slots := by
  apply Transaction.resolve_of_known
  rw [step_filter ht] at h
  cases hfind : names.find? fun name => (t.schema.lookup name).isNone with
  | none => rfl
  | some name =>
    simp only [Transaction.fault?, Filter.fault?, ← Transaction.isNone_lookup, hfind] at h
    cases h

/-- Filters of one transaction, in any session and so in particular of one just opened. Lists with
    the same filters in any order and number come to the same; so do one filter over names that are
    known and filters over parts of its names. A filter that is refused changes nothing, and it is
    refused for the first unknown name of a list, for a name that is not a column's where a column
    is asked for, and for a column of the wrong kind. -/
theorem filter_algebra (s : Session) (id : Nat) :
    (∀ filters filters' : List Filter, (∀ filter, filter ∈ filters ↔ filter ∈ filters') →
      s.run (filters.map (.filter id)) = s.run (filters'.map (.filter id))) ∧
    (∀ (before after : List Filter) (groups : List (List String)),
      (s.step (.filter id (.select groups.flatten))).1 = some (Except.ok ()) →
      s.run ((before ++ .select groups.flatten :: after).map (.filter id)) =
        s.run ((before ++ groups.map Filter.select ++ after).map (.filter id))) ∧
    (∀ filter e, (s.step (.filter id filter)).1 = some (Except.error e) →
      (s.step (.filter id filter)).2 = s) ∧
    ∀ t, s.transactions[id]? = some t →
      (∀ before name after, (∀ known ∈ before, t.schema.lookup known ≠ none) →
        t.schema.lookup name = none →
        (s.step (.filter id (.select (before ++ name :: after)))).1 =
          some (Except.error (.unknownSelector name))) ∧
      (∀ name, (∀ slot, t.schema.lookup name ≠ some (.column slot)) →
        (∀ f, (s.step (.filter id (.whereFloat name f))).1 =
          some (Except.error (.unknownSelector name))) ∧
        (∀ f, (s.step (.filter id (.whereString name f))).1 =
          some (Except.error (.unknownSelector name))) ∧
        ∀ f, (s.step (.filter id (.whereValue name f))).1 =
          some (Except.error (.unknownSelector name))) ∧
      ∀ name slot column, t.schema.column? name = some (slot, column) →
        (column.kind ≠ .float64 → ∀ f, (s.step (.filter id (.whereFloat name f))).1 =
          some (Except.error (.typeMismatch name Kind.float64.name column.kind.name))) ∧
        (column.kind ≠ .enum → column.kind ≠ .any → ∀ f,
          (s.step (.filter id (.whereString name f))).1 =
            some (Except.error (.typeMismatch name Kind.enum.name column.kind.name))) := by
  refine ⟨fun filters filters' h => ?_, fun before after groups hok => ?_, fun filter e h => ?_,
    fun t ht => ⟨fun before name after hknown hunknown => ?_, fun name hname => ?_,
      fun name slot column hcolumn => ⟨fun hkind f => ?_, fun henum hany f => ?_⟩⟩⟩
  · cases ht : s.transactions[id]? with
    | none => rw [run_filters_of_missing ht, run_filters_of_missing ht]
    | some t =>
      rw [run_filters ht, run_filters ht, Transaction.refineAll_eq_of_mem_iff s.collection t h]
  · cases ht : s.transactions[id]? with
    | none => rw [run_filters_of_missing ht, run_filters_of_missing ht]
    | some t =>
      obtain ⟨slots, hslots⟩ := exists_resolve_of_ok ht hok
      rw [← Transaction.schema_refineAll s.collection t before] at hslots
      have hparts := Transaction.refineAll_select_flatten s.collection
        (refineAll s.collection t before) hslots
      rw [run_filters ht, run_filters ht]
      simp only [refineAll, List.foldl_append, List.foldl_cons] at hparts ⊢
      rw [hparts]
  · cases ht : s.transactions[id]? with
    | none => rw [step_filter_of_missing ht]
    | some t =>
      rw [step_filter ht] at h ⊢
      cases hfault : t.fault? filter with
      | none =>
        rw [hfault] at h
        cases h
      | some e => rw [Transaction.refine_of_fault hfault, setIfInBounds_self ht]
  · exact answer_of_fault ht (Transaction.fault?_select hknown hunknown)
  · have hnamed := Transaction.columnNamed_of_column? (Schema.column?_of_lookup hname)
    refine ⟨fun f => ?_, fun f => ?_, fun f => ?_⟩
    all_goals exact answer_of_fault ht (by simp [Transaction.fault?, Filter.fault?, hnamed])
  · have hnamed := Transaction.columnNamed_of_column? hcolumn
    exact answer_of_fault ht (by simp [Transaction.fault?, Filter.fault?, hnamed, hkind])
  · have hnamed := Transaction.columnNamed_of_column? hcolumn
    exact answer_of_fault ht (by simp [Transaction.fault?, Filter.fault?, hnamed, henum, hany])

/-- The rows with a set flag, asked for in three ways, and two filters that are refused. -/
theorem filter_algebra_flags :
    let s := (flags.step .begin).2
    let present : Filter := .whereValue "flag" fun _ => true
    s.run ([present, .select ["set", "flag"]].map (.filter 0)) =
      s.run ([.select ["set", "flag"], present, .select ["set", "flag"]].map (.filter 0)) ∧
    s.run ([.select ["set", "flag"]].map (.filter 0)) =
      s.run ([.select ["set"], .select ["flag"]].map (.filter 0)) ∧
    (s.step (.filter 0 (.select ["set", "size", "flag"]))).1 =
      some (Except.error (.unknownSelector "size")) ∧
    (s.step (.filter 0 (.select ["set", "size", "flag"]))).2 = s ∧
    (s.step (.filter 0 (.whereValue "set" fun _ => true))).1 =
      some (Except.error (.unknownSelector "set")) := by
  intro s present
  obtain ⟨hsame, hregroup, hrefused, herrors⟩ := filter_algebra s 0
  have ht : s.transactions[0]? = some (.start flags.collection) := rfl
  obtain ⟨hunknown, hindex, -⟩ := herrors _ ht
  have hsize := hunknown ["set"] "size" ["flag"] (by decide +kernel) (by decide +kernel)
  refine ⟨hsame _ _ (by simp), ?_, hsize, hrefused _ _ hsize, ?_⟩
  · exact hregroup [] [] [["set"], ["flag"]] (by cbv)
  · have hset : (Transaction.start flags.collection).schema.lookup "set" = some (.index 0) := by
      decide +kernel
    exact (hindex "set" (by simp [hset])).2.2 _

end Session

end ColumnStore
