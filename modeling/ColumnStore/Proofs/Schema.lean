import ColumnStore.Schema
import Mathlib

/-!
# Names and slots

A schema is well formed if no name is used twice and every index knows the slot of its source.
Results, for a well-formed schema:

* `WellFormed.column?_eq_some_iff`, `WellFormed.lookup_eq_column_iff`,
  `WellFormed.lookup_eq_index_iff`: a name leads to a slot exactly if the column or index in that
  slot has the name;
* `WellFormed.addColumn`, `WellFormed.addIndex`, `WellFormed.replaceIndex`: growing keeps it so;
* `Extends.lookup`: a name that an older schema knows leads to the same slot in a newer one.
-/

namespace ColumnStore

namespace Index

/-- The same index, with a predicate attached if it had none. -/
def Grows (old new : Index) : Prop :=
  new = old ∨ old.predicate = none ∧ ∃ predicate, new = old.attach predicate

theorem Grows.name_eq {old new : Index} (h : old.Grows new) : new.name = old.name := by
  rcases h with rfl | ⟨-, predicate, rfl⟩ <;> rfl

theorem Grows.trans {a b c : Index} (h : a.Grows b) (h' : b.Grows c) : a.Grows c := by
  rcases h with rfl | ⟨hnone, predicate, rfl⟩
  · exact h'
  · rcases h' with rfl | ⟨hnone', -⟩
    · exact Or.inr ⟨hnone, predicate, rfl⟩
    · cases hnone'

end Index

namespace Schema

/-! ## Well-formed schemas -/

/-- No name is used twice, and the source slot of every index holds the column it names. -/
structure WellFormed (schema : Schema) : Prop where
  columns_nodup : (schema.columns.toList.map Column.name).Nodup
  indexes_nodup : (schema.indexes.toList.map Index.name).Nodup
  disjoint : ∀ name ∈ schema.columns.toList.map Column.name,
    name ∉ schema.indexes.toList.map Index.name
  source : ∀ index ∈ schema.indexes, ∃ column,
    schema.columns[index.sourceSlot]? = some column ∧ column.name = index.source

theorem wellFormed_empty : empty.WellFormed :=
  ⟨by simp [empty], by simp [empty], by simp [empty], by simp [empty]⟩

/-! ## Looking names up -/

/-- The first place with a name is the only one. -/
theorem findIdx?_eq_some_iff {α : Type} {xs : Array α} {key : α → String}
    (h : (xs.toList.map key).Nodup) {name : String} {i : Nat} :
    xs.findIdx? (fun x => key x == name) = some i ↔ ∃ x, xs[i]? = some x ∧ key x = name := by
  rw [Array.findIdx?_eq_some_iff_getElem]
  constructor
  · rintro ⟨hi, heq, -⟩
    exact ⟨xs[i], Array.getElem?_eq_getElem hi, beq_iff_eq.mp heq⟩
  · rintro ⟨x, hx, hname⟩
    obtain ⟨hi, rfl⟩ := Array.getElem?_eq_some_iff.mp hx
    refine ⟨hi, beq_iff_eq.mpr hname, fun j hj => ?_⟩
    rw [Bool.not_eq_true, beq_eq_false_iff_ne]
    intro hj'
    have hpair := List.pairwise_iff_getElem.mp h j i (by simpa using lt_trans hj hi)
      (by simpa using hi) hj
    rw [List.getElem_map, List.getElem_map, Array.getElem_toList, Array.getElem_toList] at hpair
    exact hpair (hj'.trans hname.symm)

theorem findIdx?_eq_none_iff {α : Type} {xs : Array α} {key : α → String} {name : String} :
    xs.findIdx? (fun x => key x == name) = none ↔ name ∉ xs.toList.map key := by
  rw [Array.findIdx?_eq_none_iff]
  simp only [List.mem_map, Array.mem_toList_iff, not_exists, not_and, beq_eq_false_iff_ne]

variable {schema : Schema}

theorem columnSlot?_eq_none_iff {name : String} :
    schema.columnSlot? name = none ↔ name ∉ schema.columns.toList.map Column.name :=
  findIdx?_eq_none_iff

theorem indexSlot?_eq_none_iff {name : String} :
    schema.indexSlot? name = none ↔ name ∉ schema.indexes.toList.map Index.name :=
  findIdx?_eq_none_iff

theorem WellFormed.columnSlot?_eq_some_iff (h : schema.WellFormed) {name : String} {slot : Nat} :
    schema.columnSlot? name = some slot ↔
      ∃ column, schema.columns[slot]? = some column ∧ column.name = name :=
  findIdx?_eq_some_iff h.columns_nodup

theorem WellFormed.indexSlot?_eq_some_iff (h : schema.WellFormed) {name : String} {slot : Nat} :
    schema.indexSlot? name = some slot ↔
      ∃ index, schema.indexes[slot]? = some index ∧ index.name = name :=
  findIdx?_eq_some_iff h.indexes_nodup

theorem WellFormed.column?_eq_some_iff (h : schema.WellFormed) {name : String} {slot : Nat}
    {column : Column} :
    schema.column? name = some (slot, column) ↔
      schema.columns[slot]? = some column ∧ column.name = name := by
  unfold column?
  simp only [Option.bind_eq_bind, Option.bind_eq_some_iff, Option.pure_def, Option.some.injEq,
    Prod.mk.injEq, h.columnSlot?_eq_some_iff]
  constructor
  · rintro ⟨i, ⟨c, hc, hname⟩, c', hc', rfl, rfl⟩
    rw [hc] at hc'
    cases hc'
    exact ⟨hc, hname⟩
  · rintro ⟨hc, hname⟩
    exact ⟨slot, ⟨column, hc, hname⟩, column, hc, rfl, rfl⟩

theorem WellFormed.index?_eq_some_iff (h : schema.WellFormed) {name : String} {slot : Nat}
    {index : Index} :
    schema.index? name = some (slot, index) ↔
      schema.indexes[slot]? = some index ∧ index.name = name := by
  unfold index?
  simp only [Option.bind_eq_bind, Option.bind_eq_some_iff, Option.pure_def, Option.some.injEq,
    Prod.mk.injEq, h.indexSlot?_eq_some_iff]
  constructor
  · rintro ⟨i, ⟨c, hc, hname⟩, c', hc', rfl, rfl⟩
    rw [hc] at hc'
    cases hc'
    exact ⟨hc, hname⟩
  · rintro ⟨hc, hname⟩
    exact ⟨slot, ⟨index, hc, hname⟩, index, hc, rfl, rfl⟩

theorem find?_indexes (schema : Schema) (name : String) :
    schema.indexes.toList.find? (fun index => index.name == name) =
      (schema.index? name).map Prod.snd := by
  have hfind : schema.indexes.toList.find? (fun index => index.name == name) =
      (schema.indexSlot? name).bind fun slot => schema.indexes[slot]? := by
    rw [Array.find?_toList, Array.find?_eq_bind_findIdx?_getElem?]
    rfl
  rw [hfind, index?]
  cases schema.indexSlot? name with
  | none => rfl
  | some slot => cases hindex : schema.indexes[slot]? <;> simp [hindex]

theorem column?_eq_none_iff {name : String} :
    schema.column? name = none ↔ name ∉ schema.columns.toList.map Column.name := by
  rw [← columnSlot?_eq_none_iff]
  unfold column?
  simp only [Option.bind_eq_bind, Option.bind_eq_none_iff, Option.pure_def]
  constructor
  · intro h
    rw [Option.eq_none_iff_forall_ne_some]
    intro slot hslot
    obtain ⟨hlt, -⟩ := Array.findIdx?_eq_some_iff_getElem.mp hslot
    cases h slot hslot schema.columns[slot] (Array.getElem?_eq_getElem hlt)
  · intro h slot hslot
    rw [h] at hslot
    cases hslot

theorem column?_congr {schema' : Schema} (h : schema'.columns = schema.columns) (name : String) :
    schema'.column? name = schema.column? name := by
  unfold column? columnSlot?
  rw [h]

theorem WellFormed.lookup_eq_column_iff (h : schema.WellFormed) {name : String} {slot : Nat} :
    schema.lookup name = some (.column slot) ↔
      ∃ column, schema.columns[slot]? = some column ∧ column.name = name := by
  rw [← h.columnSlot?_eq_some_iff]
  unfold lookup
  cases schema.columnSlot? name with
  | some i => simp
  | none => cases schema.indexSlot? name <;> simp

theorem WellFormed.lookup_eq_index_iff (h : schema.WellFormed) {name : String} {slot : Nat} :
    schema.lookup name = some (.index slot) ↔
      ∃ index, schema.indexes[slot]? = some index ∧ index.name = name := by
  rw [← h.indexSlot?_eq_some_iff]
  unfold lookup
  cases hcolumn : schema.columnSlot? name with
  | none => cases schema.indexSlot? name <;> simp
  | some i =>
    -- the name of a column is not the name of an index
    have hnone : schema.indexSlot? name = none := by
      apply indexSlot?_eq_none_iff.mpr
      apply h.disjoint
      by_contra hmem
      rw [← columnSlot?_eq_none_iff, hcolumn] at hmem
      cases hmem
    simp [hnone]

theorem isTaken_eq_false_iff {name : String} :
    schema.isTaken name = false ↔
      name ∉ schema.columns.toList.map Column.name ∧
        name ∉ schema.indexes.toList.map Index.name := by
  rw [← columnSlot?_eq_none_iff, ← indexSlot?_eq_none_iff]
  unfold isTaken lookup
  cases schema.columnSlot? name <;> cases schema.indexSlot? name <;> simp

/-- Columns or indexes with their slots. -/
theorem mem_zipIdx_iff {α : Type} {xs : Array α} {place : α × Nat} :
    place ∈ xs.toList.zipIdx ↔ xs[place.2]? = some place.1 := by
  rw [List.mem_zipIdx_iff_getElem?, Array.getElem?_toList]

/-! ## Growing -/

theorem getElem?_push_of_some {α : Type} {xs : Array α} {i : Nat} {x : α} (h : xs[i]? = some x)
    (y : α) : (xs.push y)[i]? = some x := by
  rw [Array.getElem?_push, if_neg, h]
  rintro rfl
  rw [Array.getElem?_eq_none le_rfl] at h
  cases h

theorem addColumn_of_free {column : Column} (h : schema.isTaken column.name = false) :
    schema.addColumn column = .ok { schema with columns := schema.columns.push column } := by
  unfold addColumn
  rw [h]
  rfl

theorem eq_of_addColumn {schema' : Schema} {column : Column}
    (h : schema.addColumn column = .ok schema') :
    schema.isTaken column.name = false ∧
      schema' = { schema with columns := schema.columns.push column } := by
  unfold addColumn at h
  split_ifs at h with htaken
  cases h
  exact ⟨by simpa using htaken, rfl⟩

theorem addIndex_of_free {index : Index} (h : schema.isTaken index.name = false) :
    schema.addIndex index = .ok { schema with indexes := schema.indexes.push index } := by
  unfold addIndex
  rw [h]
  rfl

theorem eq_of_addIndex {schema' : Schema} {index : Index}
    (h : schema.addIndex index = .ok schema') :
    schema.isTaken index.name = false ∧
      schema' = { schema with indexes := schema.indexes.push index } := by
  unfold addIndex at h
  split_ifs at h with htaken
  cases h
  exact ⟨by simpa using htaken, rfl⟩

theorem WellFormed.addColumn (h : schema.WellFormed) {column : Column}
    (hfree : schema.isTaken column.name = false) :
    ({ schema with columns := schema.columns.push column } : Schema).WellFormed := by
  obtain ⟨hcolumns, hindexes⟩ := isTaken_eq_false_iff.mp hfree
  refine ⟨?_, h.indexes_nodup, ?_, ?_⟩
  · rw [Array.toList_push, List.map_append, List.nodup_append]
    refine ⟨h.columns_nodup, by simp, ?_⟩
    rintro name hname other hother rfl
    rw [List.map_singleton, List.mem_singleton] at hother
    exact hcolumns (hother ▸ hname)
  · intro name hname
    rw [Array.toList_push, List.map_append, List.mem_append] at hname
    rcases hname with hname | hname
    · exact h.disjoint name hname
    · rw [List.map_singleton, List.mem_singleton] at hname
      exact hname ▸ hindexes
  · intro index hindex
    obtain ⟨source, hsource, hname⟩ := h.source index hindex
    exact ⟨source, getElem?_push_of_some hsource column, hname⟩

theorem WellFormed.addIndex (h : schema.WellFormed) {index : Index}
    (hfree : schema.isTaken index.name = false) {column : Column}
    (hcolumn : schema.columns[index.sourceSlot]? = some column)
    (hname : column.name = index.source) :
    ({ schema with indexes := schema.indexes.push index } : Schema).WellFormed := by
  obtain ⟨hcolumns, hindexes⟩ := isTaken_eq_false_iff.mp hfree
  refine ⟨h.columns_nodup, ?_, ?_, ?_⟩
  · rw [Array.toList_push, List.map_append, List.nodup_append]
    refine ⟨h.indexes_nodup, by simp, ?_⟩
    rintro name hname other hother rfl
    rw [List.map_singleton, List.mem_singleton] at hother
    exact hindexes (hother ▸ hname)
  · intro name hname hmem
    rw [Array.toList_push, List.map_append, List.mem_append] at hmem
    rcases hmem with hmem | hmem
    · exact h.disjoint name hname hmem
    · rw [List.map_singleton, List.mem_singleton] at hmem
      exact hcolumns (hmem ▸ hname)
  · intro other hother
    rcases Array.mem_push.mp hother with hother | rfl
    · exact h.source other hother
    · exact ⟨column, hcolumn, hname⟩

/-- Another index of the same name and source may take the place of one. -/
theorem WellFormed.replaceIndex (h : schema.WellFormed) {slot : Nat} {old new : Index}
    (hold : schema.indexes[slot]? = some old) (hname : new.name = old.name)
    (hsource : new.source = old.source) (hslot : new.sourceSlot = old.sourceSlot) :
    (schema.replaceIndex slot new).WellFormed := by
  have hnames : (schema.replaceIndex slot new).indexes.toList.map Index.name =
      schema.indexes.toList.map Index.name := by
    apply List.ext_getElem?
    intro i
    simp only [Schema.replaceIndex, List.getElem?_map, Array.getElem?_toList,
      Array.getElem?_modify]
    split_ifs with hi
    · subst hi
      rw [hold]
      exact congrArg some hname
    · rfl
  refine ⟨h.columns_nodup, by rw [hnames]; exact h.indexes_nodup,
    by rw [hnames]; exact h.disjoint, ?_⟩
  intro index hindex
  obtain ⟨i, hi⟩ := Array.getElem?_of_mem hindex
  simp only [Schema.replaceIndex, Array.getElem?_modify] at hi
  split_ifs at hi with heq
  · subst heq
    rw [hold] at hi
    cases hi
    rw [hslot, hsource]
    exact h.source old (Array.mem_of_getElem? hold)
  · exact h.source index (Array.mem_of_getElem? hi)

/-! ## Older and newer schemas -/

theorem exists_of_lookup_column {name : String} {slot : Nat}
    (h : schema.lookup name = some (.column slot)) :
    ∃ column, schema.columns[slot]? = some column ∧ column.name = name := by
  unfold lookup at h
  cases hslot : schema.columnSlot? name with
  | none => simp [hslot] at h
  | some i =>
    rw [hslot] at h
    cases h
    obtain ⟨hlt, hname, -⟩ := Array.findIdx?_eq_some_iff_getElem.mp hslot
    exact ⟨_, Array.getElem?_eq_getElem hlt, beq_iff_eq.mp hname⟩

theorem exists_of_lookup_index {name : String} {slot : Nat}
    (h : schema.lookup name = some (.index slot)) :
    ∃ index, schema.indexes[slot]? = some index ∧ index.name = name := by
  unfold lookup at h
  cases hcolumn : schema.columnSlot? name with
  | some i => simp [hcolumn] at h
  | none =>
    cases hslot : schema.indexSlot? name with
    | none => simp [hcolumn, hslot] at h
    | some i =>
      rw [hcolumn, hslot] at h
      cases h
      obtain ⟨hlt, hname, -⟩ := Array.findIdx?_eq_some_iff_getElem.mp hslot
      exact ⟨_, Array.getElem?_eq_getElem hlt, beq_iff_eq.mp hname⟩

theorem exists_of_column? {name : String} {slot : Nat} {column : Column}
    (h : schema.column? name = some (slot, column)) :
    schema.columns[slot]? = some column ∧ column.name = name := by
  unfold column? at h
  simp only [Option.bind_eq_bind, Option.bind_eq_some_iff, Option.pure_def, Option.some.injEq,
    Prod.mk.injEq] at h
  obtain ⟨i, hi, c, hc, rfl, rfl⟩ := h
  obtain ⟨hlt, hname, -⟩ := Array.findIdx?_eq_some_iff_getElem.mp hi
  rw [Array.getElem?_eq_getElem hlt] at hc
  cases hc
  exact ⟨Array.getElem?_eq_getElem hlt, beq_iff_eq.mp hname⟩

/-- Every column stays in its slot, and so does every index, but for a predicate that it was
    missing. -/
structure Extends (older newer : Schema) : Prop where
  columns : ∀ (slot : Nat) column,
    older.columns[slot]? = some column → newer.columns[slot]? = some column
  indexes : ∀ (slot : Nat) index, older.indexes[slot]? = some index →
    ∃ index', newer.indexes[slot]? = some index' ∧ index.Grows index'

theorem Extends.refl (schema : Schema) : schema.Extends schema :=
  ⟨fun _ _ h => h, fun _ index h => ⟨index, h, Or.inl rfl⟩⟩

theorem Extends.trans {s₁ s₂ s₃ : Schema} (h : s₁.Extends s₂) (h' : s₂.Extends s₃) :
    s₁.Extends s₃ where
  columns slot column hc := h'.columns slot column (h.columns slot column hc)
  indexes slot index hi := by
    obtain ⟨index₂, hi₂, hgrow₂⟩ := h.indexes slot index hi
    obtain ⟨index₃, hi₃, hgrow₃⟩ := h'.indexes slot index₂ hi₂
    exact ⟨index₃, hi₃, hgrow₂.trans hgrow₃⟩

theorem Extends.columns_size_le {older newer : Schema} (h : older.Extends newer) :
    older.columns.size ≤ newer.columns.size := by
  by_contra hlt
  have hcolumn := h.columns newer.columns.size _ (Array.getElem?_eq_getElem (by omega))
  rw [Array.getElem?_eq_none le_rfl] at hcolumn
  cases hcolumn

theorem Extends.indexes_size_le {older newer : Schema} (h : older.Extends newer) :
    older.indexes.size ≤ newer.indexes.size := by
  by_contra hlt
  obtain ⟨index, hindex, -⟩ :=
    h.indexes newer.indexes.size _ (Array.getElem?_eq_getElem (by omega))
  rw [Array.getElem?_eq_none le_rfl] at hindex
  cases hindex

theorem extends_addColumn (schema : Schema) (column : Column) :
    schema.Extends { schema with columns := schema.columns.push column } where
  columns _ _ h := getElem?_push_of_some h column
  indexes _ index h := ⟨index, h, Or.inl rfl⟩

theorem extends_addIndex (schema : Schema) (index : Index) :
    schema.Extends { schema with indexes := schema.indexes.push index } where
  columns _ _ h := h
  indexes _ old h := ⟨old, getElem?_push_of_some h index, Or.inl rfl⟩

theorem extends_attach {slot : Nat} {index : Index} (h : schema.indexes[slot]? = some index)
    (hdetached : index.predicate = none) (predicate : Value → Bool) :
    schema.Extends (schema.replaceIndex slot (index.attach predicate)) where
  columns _ _ hc := hc
  indexes i old hi := by
    simp only [replaceIndex, Array.getElem?_modify]
    split_ifs with heq
    · subst heq
      rw [h] at hi
      cases hi
      exact ⟨_, by rw [h]; rfl, Or.inr ⟨hdetached, predicate, rfl⟩⟩
    · exact ⟨old, hi, Or.inl rfl⟩

/-- A name that the older schema knows leads to the same slot in the newer one. -/
theorem Extends.lookup {older newer : Schema} (h : older.Extends newer) (hwf : newer.WellFormed)
    {name : String} {slot : Slot} (hslot : older.lookup name = some slot) :
    newer.lookup name = some slot := by
  cases slot with
  | column slot =>
    obtain ⟨column, hc, hname⟩ := exists_of_lookup_column hslot
    exact hwf.lookup_eq_column_iff.mpr ⟨column, h.columns slot column hc, hname⟩
  | index slot =>
    obtain ⟨index, hi, hname⟩ := exists_of_lookup_index hslot
    obtain ⟨index', hi', hgrow⟩ := h.indexes slot index hi
    exact hwf.lookup_eq_index_iff.mpr ⟨index', hi', hgrow.name_eq.trans hname⟩

theorem Extends.column? {older newer : Schema} (h : older.Extends newer) (hwf : newer.WellFormed)
    {name : String} {slot : Nat} {column : Column}
    (hcolumn : older.column? name = some (slot, column)) :
    newer.column? name = some (slot, column) := by
  obtain ⟨hc, hname⟩ := exists_of_column? hcolumn
  exact hwf.column?_eq_some_iff.mpr ⟨h.columns slot column hc, hname⟩

end Schema

end ColumnStore
