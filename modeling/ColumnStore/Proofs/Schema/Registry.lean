import ColumnStore.Proofs.Scanner
import ColumnStore.Proofs.Table.Define

/-!
# Registries

A schema finds a name by going through its columns and indexes. A registry has a map from names to
slots beside them, and every column and index has its slot written on it, so three structures have
to be kept in step. Here is a registry with the operations that make one from another, in which
every place and every slot is looked at (`Checked`), and that it does what the schema does.

* `Mirrors`: the registry has the columns and indexes of a schema, each at the place of its slot,
  and its map finds what the schema finds;
* `Mirrors.withColumnDef`, `Mirrors.withIndex`, `Mirrors.replacingIndex`, `Mirrors.createIndex`:
  every operation is accepted or refused as it is by the schema, and the result mirrors again. So no
  column or index ever comes to a slot other than the one written on it;
* `Mirrors.consistent`: a registry that mirrors a schema is consistent. Its map is a bijection
  between the names and the slots in use, and every index finds its source in the source slot.
-/

namespace ColumnStore

/-- A column and the slot written on it. -/
structure PlacedColumn extends Column where
  slot : Nat

/-- An index and the slot written on it. -/
structure PlacedIndex extends Index where
  slot : Nat

namespace PlacedIndex

/-- A new index over a column, whose name and slot it takes down. -/
def ofColumn (name : String) (source : PlacedColumn) (slot : Nat)
    (predicate : Option (Value → Bool)) : PlacedIndex :=
  ⟨⟨name, source.name, source.slot, predicate⟩, slot⟩

/-- The same index with a predicate (`attach`). -/
def attach (index : PlacedIndex) (predicate : Value → Bool) : PlacedIndex :=
  ⟨index.toIndex.attach predicate, index.slot⟩

end PlacedIndex

/-- Columns and indexes with a map from their names to their slots (`Schema`). -/
structure Registry where
  columns : Array PlacedColumn
  indexes : Array PlacedIndex
  names : Std.HashMap String Slot

namespace Registry

/-- No columns and no indexes (`new`). -/
def empty : Registry := ⟨#[], #[], ∅⟩

/-- What a name stands for (`lookup`). -/
def lookup (r : Registry) (name : String) : Option Slot := r.names[name]?

/-- The column of a name (`column`). -/
def column? (r : Registry) (name : String) : Option PlacedColumn :=
  match r.lookup name with
  | some (.column slot) => r.columns[slot]?
  | _ => none

/-- The index of a name (`index`). -/
def index? (r : Registry) (name : String) : Option PlacedIndex :=
  match r.lookup name with
  | some (.index slot) => r.indexes[slot]?
  | _ => none

/-- Refuses a name that is taken (`ensure_unique`). -/
def ensureUnique (r : Registry) (name : String) : Checked Unit :=
  if r.names.contains name then .error (.refused (.duplicateName name)) else .ok ()

/-- The registry with a column that was made for the next slot (`with_column_def`). -/
def withColumnDef (r : Registry) (column : PlacedColumn) : Checked Registry := do
  r.ensureUnique column.name
  if column.slot = r.columns.size then
    pure { r with
      names := r.names.insert column.name (.column column.slot)
      columns := r.columns.push column }
  else .error .slot

/-- The registry with a new column (`with_column`). -/
def withColumn (r : Registry) (name : String) (kind : Kind) : Checked Registry := do
  r.ensureUnique name
  r.withColumnDef ⟨⟨name, kind⟩, r.columns.size⟩

/-- The registry with an index that was made for the next slot (`with_index`). -/
def withIndex (r : Registry) (index : PlacedIndex) : Checked Registry := do
  r.ensureUnique index.name
  if index.slot = r.indexes.size then
    pure { r with
      names := r.names.insert index.name (.index index.slot)
      indexes := r.indexes.push index }
  else .error .slot

/-- The registry with another index in the slot written on it (`replacing_index`). -/
def replacingIndex (r : Registry) (index : PlacedIndex) : Checked Registry := do
  let _ ← Checked.place r.indexes[index.slot]?
  pure { r with indexes := r.indexes.modify index.slot fun _ => index }

/-- The registry with a new index over a column, or with the predicate attached to a detached index
    of that name and source; and the index, looked up by its name (`create_index`). -/
def createIndex (r : Registry) (name source : String) (predicate : Value → Bool) :
    Checked (Registry × PlacedIndex) :=
  match r.column? source with
  | none => .error (.refused (.unknownColumn source))
  | some column => do
    let next ← match r.lookup name with
      | none => r.withIndex (.ofColumn name column r.indexes.size (some predicate))
      | some (.index slot) => do
        let existing ← Checked.place r.indexes[slot]?
        if existing.isAttached || existing.source != source then
          .error (.refused (.duplicateName name))
        else r.replacingIndex (existing.attach predicate)
      | some (.column _) => .error (.refused (.duplicateName name))
    match next.index? name with
    | none => .error (.refused (.unknownSelector name))
    | some index => pure (next, index)

/-- The columns and indexes without the slots written on them. -/
def toSchema (r : Registry) : Schema :=
  ⟨r.columns.map PlacedColumn.toColumn, r.indexes.map PlacedIndex.toIndex⟩

/-! ## Consistent registries -/

/-- Whether there is a column or an index in a slot. -/
def InUse (r : Registry) : Slot → Prop
  | .column slot => slot < r.columns.size
  | .index slot => slot < r.indexes.size

/-- The map, the columns and the indexes are in step. -/
structure Consistent (r : Registry) : Prop where
  /-- Every name leads to a slot in use. -/
  inUse : ∀ (name : String) (slot : Slot), r.names[name]? = some slot → r.InUse slot
  /-- Every slot in use has one name. -/
  named : ∀ slot, r.InUse slot → ∃! name : String, r.names[name]? = some slot
  /-- No two columns, no two indexes, and no column and index have the same name. -/
  nodup : (r.columns.toList.map (fun column => column.name) ++
    r.indexes.toList.map fun index => index.name).Nodup
  /-- Every column is at the place of its slot, and its name leads there. -/
  column : ∀ (place : Nat) (column : PlacedColumn), r.columns[place]? = some column →
    column.slot = place ∧ r.names[column.name]? = some (.column place)
  /-- Every index is at the place of its slot, and its name leads there. -/
  index : ∀ (place : Nat) (index : PlacedIndex), r.indexes[place]? = some index →
    index.slot = place ∧ r.names[index.name]? = some (.index place)
  /-- The source slot of every index has the column that the index names as its source. -/
  source : ∀ index ∈ r.indexes, ∃ column,
    r.columns[index.sourceSlot]? = some column ∧ column.name = index.source

end Registry

/-! ## What a schema finds as it grows -/

namespace Schema

variable {schema : Schema} {name : String}

theorem lookup_eq_none_iff : schema.lookup name = none ↔ schema.isTaken name = false := by
  rw [isTaken, Option.isSome_eq_false_iff, Option.isNone_iff_eq_none]

theorem lookup_pushColumn {column : Column} (h : schema.isTaken column.name = false)
    (name : String) :
    ({ schema with columns := schema.columns.push column } : Schema).lookup name =
      if column.name = name then some (.column schema.columns.size) else schema.lookup name := by
  unfold lookup columnSlot?
  rw [Array.findIdx?_push]
  by_cases hname : column.name = name
  · subst hname
    have hfree := columnSlot?_eq_none_iff.mpr (isTaken_eq_false_iff.mp h).1
    rw [columnSlot?] at hfree
    simp [hfree]
  · rw [beq_eq_false_iff_ne.mpr hname, if_neg hname]
    cases schema.columns.findIdx? fun column => column.name == name <;> rfl

theorem lookup_pushIndex {index : Index} (h : schema.isTaken index.name = false) (name : String) :
    ({ schema with indexes := schema.indexes.push index } : Schema).lookup name =
      if index.name = name then some (.index schema.indexes.size) else schema.lookup name := by
  unfold lookup indexSlot?
  rw [Array.findIdx?_push]
  by_cases hname : index.name = name
  · subst hname
    have hcolumn := columnSlot?_eq_none_iff.mpr (isTaken_eq_false_iff.mp h).1
    have hindex := indexSlot?_eq_none_iff.mpr (isTaken_eq_false_iff.mp h).2
    rw [columnSlot?] at hcolumn
    rw [indexSlot?] at hindex
    simp [columnSlot?, hcolumn, hindex]
  · rw [beq_eq_false_iff_ne.mpr hname, if_neg hname]
    cases schema.indexes.findIdx? fun index => index.name == name <;> rfl

/-- An index of the same name in the place of one is found as that was. -/
theorem lookup_replaceIndex {slot : Nat} {old new : Index} (hold : schema.indexes[slot]? = some old)
    (hname : new.name = old.name) (name : String) :
    (schema.replaceIndex slot new).lookup name = schema.lookup name := by
  have hslot : (schema.replaceIndex slot new).indexSlot? name = schema.indexSlot? name := by
    have hby : ∀ xs : Array Index, xs.findIdx? (fun index => index.name == name) =
        (xs.map Index.name).findIdx? (· == name) := fun xs => by rw [Array.findIdx?_map]; rfl
    rw [indexSlot?, indexSlot?, hby, hby]
    congr 1
    apply Array.ext_getElem?
    intro i
    simp only [replaceIndex, Array.getElem?_map, Array.getElem?_modify]
    split_ifs with hi
    · subst hi
      rw [hold]
      exact congrArg some hname
    · rfl
  unfold lookup
  rw [hslot]
  rfl

end Schema

/-! ## Mirrors -/

namespace Registry

open Checked (Tracks)

/-- The registry has the columns and indexes of a well-formed schema, each at the place of the slot
    written on it, and its map finds what the schema finds. -/
structure Mirrors (r : Registry) (schema : Schema) : Prop where
  wellFormed : schema.WellFormed
  columns : r.columns = schema.columns.mapIdx fun slot column => ⟨column, slot⟩
  indexes : r.indexes = schema.indexes.mapIdx fun slot index => ⟨index, slot⟩
  lookup : ∀ name, r.lookup name = schema.lookup name

variable {r : Registry} {schema : Schema}

theorem mirrors_empty : Mirrors empty .empty where
  wellFormed := Schema.wellFormed_empty
  columns := rfl
  indexes := rfl
  lookup name := by
    rw [Registry.lookup, empty, Std.HashMap.getElem?_empty]
    simp [Schema.lookup, Schema.columnSlot?, Schema.indexSlot?, Schema.empty]

namespace Mirrors

variable (h : Mirrors r schema)
include h

theorem getElem?_columns (slot : Nat) :
    r.columns[slot]? = schema.columns[slot]?.map fun column => ⟨column, slot⟩ := by
  rw [h.columns, Array.getElem?_mapIdx]

theorem getElem?_indexes (slot : Nat) :
    r.indexes[slot]? = schema.indexes[slot]?.map fun index => ⟨index, slot⟩ := by
  rw [h.indexes, Array.getElem?_mapIdx]

theorem columns_size : r.columns.size = schema.columns.size := by
  rw [h.columns, Array.size_mapIdx]

theorem indexes_size : r.indexes.size = schema.indexes.size := by
  rw [h.indexes, Array.size_mapIdx]

theorem toSchema_eq : r.toSchema = schema := by
  have hcolumns : r.columns.map PlacedColumn.toColumn = schema.columns := by
    apply Array.ext_getElem?
    intro slot
    rw [Array.getElem?_map, h.getElem?_columns, Option.map_map]
    exact Option.map_id'
  have hindexes : r.indexes.map PlacedIndex.toIndex = schema.indexes := by
    apply Array.ext_getElem?
    intro slot
    rw [Array.getElem?_map, h.getElem?_indexes, Option.map_map]
    exact Option.map_id'
  rw [toSchema, hcolumns, hindexes]

/-- A column is found under its name together with the slot it is in. -/
theorem column?_eq (name : String) :
    r.column? name = (schema.column? name).map fun (slot, column) => ⟨column, slot⟩ := by
  unfold Registry.column?
  rw [h.lookup]
  cases hcolumn : schema.column? name with
  | some found =>
    obtain ⟨slot, column⟩ := found
    obtain ⟨hc, hname⟩ := Schema.exists_of_column? hcolumn
    rw [h.wellFormed.lookup_eq_column_iff.mpr ⟨column, hc, hname⟩]
    simp only [h.getElem?_columns, hc, Option.map_some]
  | none =>
    cases hlookup : schema.lookup name with
    | none => rfl
    | some slot =>
      cases slot with
      | index slot => rfl
      | column slot =>
        obtain ⟨column, hc, hname⟩ := Schema.exists_of_lookup_column hlookup
        rw [h.wellFormed.column?_eq_some_iff.mpr ⟨hc, hname⟩] at hcolumn
        cases hcolumn

/-- An index is found under its name together with the slot it is in. -/
theorem index?_eq (name : String) :
    r.index? name = (schema.index? name).map fun (slot, index) => ⟨index, slot⟩ := by
  unfold Registry.index?
  rw [h.lookup]
  cases hindex : schema.index? name with
  | some found =>
    obtain ⟨slot, index⟩ := found
    obtain ⟨hi, hname⟩ := h.wellFormed.index?_eq_some_iff.mp hindex
    rw [h.wellFormed.lookup_eq_index_iff.mpr ⟨index, hi, hname⟩]
    simp only [h.getElem?_indexes, hi, Option.map_some]
  | none =>
    cases hlookup : schema.lookup name with
    | none => rfl
    | some slot =>
      cases slot with
      | column slot => rfl
      | index slot =>
        obtain ⟨index, hi, hname⟩ := Schema.exists_of_lookup_index hlookup
        rw [h.wellFormed.index?_eq_some_iff.mpr ⟨hi, hname⟩] at hindex
        cases hindex

theorem contains_names (name : String) : r.names.contains name = schema.isTaken name := by
  rw [Std.HashMap.contains_eq_isSome_getElem?, Schema.isTaken, ← h.lookup]
  rfl

theorem ensureUnique_eq (name : String) :
    r.ensureUnique name =
      if schema.isTaken name then .error (.refused (.duplicateName name)) else .ok () := by
  rw [ensureUnique, h.contains_names]

/-! ### Growing -/

/-- A column made for the next slot comes to it. -/
theorem withColumnDef (column : Column) :
    Tracks Mirrors (r.withColumnDef ⟨column, r.columns.size⟩) (schema.addColumn column) := by
  unfold Registry.withColumnDef Schema.addColumn
  rw [h.ensureUnique_eq]
  cases htaken : schema.isTaken column.name with
  | true => exact .refused _
  | false =>
    simp only [Bool.false_eq_true, ↓reduceIte, Checked.ok_bind]
    refine .ok ⟨h.wellFormed.addColumn htaken, ?_, h.indexes, fun name => ?_⟩
    · rw [Array.mapIdx_push, ← h.columns, h.columns_size]
    · rw [Schema.lookup_pushColumn htaken, ← h.lookup, ← h.columns_size, Registry.lookup,
        Std.HashMap.getElem?_insert]
      simp only [beq_iff_eq]
      rfl

theorem withColumn (name : String) (kind : Kind) :
    Tracks Mirrors (r.withColumn name kind) (schema.addColumn ⟨name, kind⟩) := by
  have hdef := h.withColumnDef ⟨name, kind⟩
  unfold Registry.withColumn
  rw [h.ensureUnique_eq]
  cases htaken : schema.isTaken name with
  | true =>
    rw [Schema.addColumn, htaken]
    exact .refused _
  | false => exact hdef

/-- An index made for the next slot comes to it. -/
theorem withIndex {index : Index} {column : Column}
    (hcolumn : schema.columns[index.sourceSlot]? = some column)
    (hname : column.name = index.source) :
    Tracks Mirrors (r.withIndex ⟨index, r.indexes.size⟩) (schema.addIndex index) := by
  unfold Registry.withIndex Schema.addIndex
  rw [h.ensureUnique_eq]
  cases htaken : schema.isTaken index.name with
  | true => exact .refused _
  | false =>
    simp only [Bool.false_eq_true, ↓reduceIte, Checked.ok_bind]
    refine .ok ⟨h.wellFormed.addIndex htaken hcolumn hname, h.columns, ?_, fun name => ?_⟩
    · rw [Array.mapIdx_push, ← h.indexes, h.indexes_size]
    · rw [Schema.lookup_pushIndex htaken, ← h.lookup, ← h.indexes_size, Registry.lookup,
        Std.HashMap.getElem?_insert]
      simp only [beq_iff_eq]
      rfl

/-- Attaching a predicate finds the index in its slot and leaves it there. -/
theorem replacingIndex {slot : Nat} {index : Index} (hindex : schema.indexes[slot]? = some index)
    (predicate : Value → Bool) :
    ∃ next, r.replacingIndex (PlacedIndex.attach ⟨index, slot⟩ predicate) = .ok next ∧
      next.Mirrors (schema.replaceIndex slot (index.attach predicate)) := by
  refine ⟨{ r with indexes := r.indexes.modify slot fun _ => ⟨index.attach predicate, slot⟩ }, ?_,
    h.wellFormed.replaceIndex hindex rfl rfl rfl, h.columns, ?_, fun name => ?_⟩
  · unfold Registry.replacingIndex PlacedIndex.attach
    simp only [h.getElem?_indexes, hindex, Option.map_some]
    rfl
  · apply Array.ext_getElem?
    intro i
    rw [Array.getElem?_modify, Array.getElem?_mapIdx, Schema.replaceIndex, Array.getElem?_modify,
      h.getElem?_indexes]
    split_ifs with hi
    · subst hi
      rw [hindex]
      rfl
    · rfl
  · rw [Schema.lookup_replaceIndex hindex (show (index.attach predicate).name = index.name from rfl)]
    exact h.lookup name

/-- The index that was created is found under its name in the registry that has it. -/
theorem index?_of_registered {slot : Nat} {index : Index}
    (hindex : schema.indexes[slot]? = some index) :
    r.index? index.name = some ⟨index, slot⟩ := by
  rw [h.index?_eq, h.wellFormed.index?_eq_some_iff.mpr ⟨hindex, rfl⟩]
  rfl

/-- Creating an index comes to what registering it with the schema gives. -/
theorem createIndex (name source : String) (predicate : Value → Bool) :
    Tracks (fun created registered => created.1.Mirrors registered.1 ∧
        created.2 = ⟨registered.2.2, registered.2.1⟩)
      (r.createIndex name source predicate)
      (Table.registerIndex schema name source predicate) := by
  unfold Registry.createIndex Table.registerIndex
  rw [h.column?_eq]
  cases hcolumn : schema.column? source with
  | none => exact .refused _
  | some found =>
    obtain ⟨sourceSlot, column⟩ := found
    obtain ⟨hc, hname⟩ := Schema.exists_of_column? hcolumn
    simp only [Option.map_some]
    rw [h.lookup]
    -- the three things that the name can stand for
    cases hlookup : schema.lookup name with
    | none =>
      subst hname
      have hfree := Schema.lookup_eq_none_iff.mp hlookup
      have hnext : Tracks Mirrors
          (r.withIndex ⟨⟨name, column.name, sourceSlot, some predicate⟩, r.indexes.size⟩)
          (schema.addIndex ⟨name, column.name, sourceSlot, some predicate⟩) := h.withIndex hc rfl
      simp only [PlacedIndex.ofColumn]
      generalize r.withIndex _ = next at hnext ⊢
      rw [Schema.addIndex_of_free hfree] at hnext ⊢
      cases hnext with
      | ok hmirrors =>
        have hfound := hmirrors.index?_of_registered (Array.getElem?_push_size ..)
        simp only [Checked.ok_bind, hfound]
        exact .ok ⟨hmirrors, rfl⟩
    | some slot =>
      cases slot with
      | column slot => exact .refused _
      | index slot =>
        obtain ⟨index, hindex, hi⟩ := Schema.exists_of_lookup_index hlookup
        subst hi
        simp only [h.getElem?_indexes, hindex, Option.map_some, Checked.place, Checked.ok_bind]
        by_cases hguard : (index.isAttached || index.source != source) = true
        · rw [if_pos hguard, if_pos hguard]
          exact .refused _
        · obtain ⟨next, hnext, hmirrors⟩ := h.replacingIndex hindex predicate
          rw [if_neg hguard, if_neg hguard, hnext]
          have hat : (schema.replaceIndex slot (index.attach predicate)).indexes[slot]? =
              some (index.attach predicate) := by
            rw [Schema.replaceIndex, Array.getElem?_modify, if_pos rfl, hindex]
            rfl
          have hfound := hmirrors.index?_of_registered hat
          simp only [Checked.ok_bind, show next.index? index.name = _ from hfound]
          exact .ok ⟨hmirrors, rfl⟩

/-! ### What is known of a mirror -/

theorem names_column {name : String} {slot : Nat} (hslot : r.names[name]? = some (.column slot)) :
    ∃ column, r.columns[slot]? = some ⟨column, slot⟩ ∧ column.name = name := by
  obtain ⟨column, hc, hname⟩ := h.wellFormed.lookup_eq_column_iff.mp ((h.lookup name).symm.trans hslot)
  exact ⟨column, by rw [h.getElem?_columns, hc]; rfl, hname⟩

theorem names_index {name : String} {slot : Nat} (hslot : r.names[name]? = some (.index slot)) :
    ∃ index, r.indexes[slot]? = some ⟨index, slot⟩ ∧ index.name = name := by
  obtain ⟨index, hi, hname⟩ := h.wellFormed.lookup_eq_index_iff.mp ((h.lookup name).symm.trans hslot)
  exact ⟨index, by rw [h.getElem?_indexes, hi]; rfl, hname⟩

theorem names_of_column {place : Nat} {column : PlacedColumn}
    (hplace : r.columns[place]? = some column) :
    column.slot = place ∧ r.names[column.name]? = some (.column place) := by
  rw [h.getElem?_columns] at hplace
  obtain ⟨found, hfound, rfl⟩ := Option.map_eq_some_iff.mp hplace
  exact ⟨rfl, (h.lookup _).trans (h.wellFormed.lookup_eq_column_iff.mpr ⟨found, hfound, rfl⟩)⟩

theorem names_of_index {place : Nat} {index : PlacedIndex}
    (hplace : r.indexes[place]? = some index) :
    index.slot = place ∧ r.names[index.name]? = some (.index place) := by
  rw [h.getElem?_indexes] at hplace
  obtain ⟨found, hfound, rfl⟩ := Option.map_eq_some_iff.mp hplace
  exact ⟨rfl, (h.lookup _).trans (h.wellFormed.lookup_eq_index_iff.mpr ⟨found, hfound, rfl⟩)⟩

theorem consistent : r.Consistent where
  inUse name slot hslot := by
    cases slot with
    | column slot =>
      obtain ⟨column, hc, -⟩ := h.names_column hslot
      exact (Array.getElem?_eq_some_iff.mp hc).1
    | index slot =>
      obtain ⟨index, hi, -⟩ := h.names_index hslot
      exact (Array.getElem?_eq_some_iff.mp hi).1
  named slot huse := by
    cases slot with
    | column slot =>
      have hat := Array.getElem?_eq_getElem (show slot < r.columns.size from huse)
      refine ⟨_, (h.names_of_column hat).2, fun name hname => ?_⟩
      obtain ⟨column, hc, rfl⟩ := h.names_column hname
      rw [Option.some.inj (hat.symm.trans hc)]
    | index slot =>
      have hat := Array.getElem?_eq_getElem (show slot < r.indexes.size from huse)
      refine ⟨_, (h.names_of_index hat).2, fun name hname => ?_⟩
      obtain ⟨index, hi, rfl⟩ := h.names_index hname
      rw [Option.some.inj (hat.symm.trans hi)]
  nodup := by
    have hcolumns : r.columns.toList.map (fun column => column.name) =
        schema.columns.toList.map Column.name := by
      rw [← h.toSchema_eq, toSchema, Array.toList_map, List.map_map]
      rfl
    have hindexes : r.indexes.toList.map (fun index => index.name) =
        schema.indexes.toList.map Index.name := by
      rw [← h.toSchema_eq, toSchema, Array.toList_map, List.map_map]
      rfl
    rw [hcolumns, hindexes, List.nodup_append]
    refine ⟨h.wellFormed.columns_nodup, h.wellFormed.indexes_nodup, ?_⟩
    rintro name hcolumn other hindex rfl
    exact h.wellFormed.disjoint name hcolumn hindex
  column _ _ := h.names_of_column
  index _ _ := h.names_of_index
  source index hindex := by
    obtain ⟨slot, hslot⟩ := Array.mem_iff_getElem?.mp hindex
    rw [h.getElem?_indexes] at hslot
    obtain ⟨found, hfound, rfl⟩ := Option.map_eq_some_iff.mp hslot
    obtain ⟨column, hcolumn, hname⟩ := h.wellFormed.source found (Array.mem_of_getElem? hfound)
    exact ⟨⟨column, found.sourceSlot⟩, by rw [h.getElem?_columns, hcolumn]; rfl, hname⟩

end Mirrors

end Registry

end ColumnStore
