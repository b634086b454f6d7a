import ColumnStore.Proofs.Chunk.Order
import ColumnStore.Proofs.Session

/-!
# The order of a record's fields

A record is a map, and its fields come in no particular order. Its fields are checked, then encoded,
then written one after another. Two fields of one record are for different columns, and a text gets
its id from the dictionary of its own column, so the cells come out the same in any order
(`encodeFields_perm`) and the chunk takes them in any order.

`Reachable.insert_any_order`: two insertions of the fields of one record in different orders are
accepted or refused alike and leave the same session, with the same dictionaries, segments and
bitmaps.
-/

namespace ColumnStore

namespace Column

open Chunk (dictionaryOf)

/-- Encoding a value looks at the dictionary of its own slot and changes that one at most. -/
theorem encodeAt_eq (column : Column) (ds : Array Dictionary) (slot : Nat) (v : Value) :
    column.encodeAt ds slot v =
      ((column.encode (dictionaryOf ds slot) v).1,
        ds.setIfInBounds slot (column.encode (dictionaryOf ds slot) v).2) := by
  by_cases hslot : slot < ds.size
  · rw [encodeAt_of_lt column hslot, dictionaryOf_of_lt hslot, Array.setIfInBounds, dif_pos hslot]
  · have hnone : dictionaryOf ds slot = .empty := by
      rw [dictionaryOf, Array.getElem?_eq_none (by omega), Option.getD_none]
    rw [encodeAt, updateAt_of_size_le _ _ _ _ (by omega), hnone,
      Array.setIfInBounds, dif_neg hslot]

theorem dictionaryOf_setIfInBounds_of_ne {slot slot' : Nat} (hne : slot ≠ slot')
    (ds : Array Dictionary) (d : Dictionary) :
    dictionaryOf (ds.setIfInBounds slot d) slot' = dictionaryOf ds slot' := by
  rw [dictionaryOf, dictionaryOf, Array.getElem?_setIfInBounds_ne hne]

/-- Values for two columns can be encoded in either order. -/
theorem encodeAt_comm {slot slot' : Nat} (hne : slot ≠ slot') {column column' : Column}
    {v v' : Value} {ds between ds' : Array Dictionary} {cell cell' : Except Error (Option Cell)}
    (hfirst : column.encodeAt ds slot v = (cell, between))
    (hsecond : column'.encodeAt between slot' v' = (cell', ds')) :
    ∃ between', column'.encodeAt ds slot' v' = (cell', between') ∧
      column.encodeAt between' slot v = (cell, ds') := by
  rw [encodeAt_eq, Prod.mk.injEq] at hfirst hsecond
  obtain ⟨rfl, rfl⟩ := hfirst
  rw [dictionaryOf_setIfInBounds_of_ne hne] at hsecond
  obtain ⟨rfl, rfl⟩ := hsecond
  refine ⟨_, encodeAt_eq column' ds slot' v', ?_⟩
  rw [encodeAt_eq, dictionaryOf_setIfInBounds_of_ne (Ne.symm hne), Array.setIfInBounds_comm _ _ hne]

end Column

namespace Table

variable {config : Config} {table : Table}

theorem encodeFields_cons_eq_ok_iff {ds ds' : Array Dictionary} {slot : Nat} {column : Column}
    {v : Value} {rest : List (Nat × Column × Value)} {cells : List (Nat × Cell)} :
    encodeFields ds ((slot, column, v) :: rest) = (.ok cells, ds') ↔
      ∃ cell between cells', column.encodeAt ds slot v = (.ok cell, between) ∧
        encodeFields between rest = (.ok cells', ds') ∧
        cells = cell.toList.map (slot, ·) ++ cells' := by
  rw [encodeFields]
  rcases column.encodeAt ds slot v with ⟨_ | cell, between⟩
  · simp
  · rcases hrest : encodeFields between rest with ⟨_ | cells', after⟩
    · simp [hrest]
    · cases cell with
      | none => simp [hrest, eq_comm, and_comm, and_left_comm]
      | some cell => simp [hrest, eq_comm, and_comm, and_left_comm]

/-- Every cell is for the column of some field. -/
theorem encodeFields_sublist {ds ds' : Array Dictionary} {fields : List (Nat × Column × Value)}
    {cells : List (Nat × Cell)} (h : encodeFields ds fields = (.ok cells, ds')) :
    (cells.map Prod.fst).Sublist (fields.map Prod.fst) := by
  induction fields generalizing ds cells with
  | nil =>
    cases h
    exact List.Sublist.refl _
  | cons field rest ih =>
    obtain ⟨cell, between, cells', -, hrest, rfl⟩ := encodeFields_cons_eq_ok_iff.mp h
    cases cell with
    | none => exact (ih hrest).cons _
    | some cell => exact (ih hrest).cons_cons _

/-- Fields for different columns have the same cells and the same dictionaries in any order. -/
theorem encodeFields_perm {fields fields' : List (Nat × Column × Value)}
    (hperm : fields.Perm fields') (hnodup : (fields.map Prod.fst).Nodup)
    {ds ds' : Array Dictionary} {cells : List (Nat × Cell)}
    (h : encodeFields ds fields = (.ok cells, ds')) :
    ∃ cells', encodeFields ds fields' = (.ok cells', ds') ∧ cells.Perm cells' := by
  induction hperm generalizing ds cells with
  | nil => exact ⟨cells, h, List.Perm.refl _⟩
  | cons field _ ih =>
    obtain ⟨cell, between, rest, hfirst, hrest, rfl⟩ := encodeFields_cons_eq_ok_iff.mp h
    obtain ⟨rest', hrest', hperm'⟩ := ih (List.nodup_cons.mp hnodup).2 hrest
    exact ⟨_, encodeFields_cons_eq_ok_iff.mpr ⟨cell, between, rest', hfirst, hrest', rfl⟩,
      hperm'.append_left _⟩
  | swap second first rest =>
    obtain ⟨cell, between, cells₁, hfirst, hcells₁, rfl⟩ := encodeFields_cons_eq_ok_iff.mp h
    obtain ⟨cell', between₁, cells₂, hsecond, hcells₂, rfl⟩ :=
      encodeFields_cons_eq_ok_iff.mp hcells₁
    have hne : first.1 ≠ second.1 := fun heq =>
      (List.nodup_cons.mp hnodup).1 (heq ▸ List.mem_cons_self)
    obtain ⟨between', hsecond, hfirst⟩ := Column.encodeAt_comm hne hfirst hsecond
    refine ⟨_, encodeFields_cons_eq_ok_iff.mpr ⟨cell', between', _, hsecond,
      encodeFields_cons_eq_ok_iff.mpr ⟨cell, between₁, cells₂, hfirst, hcells₂, rfl⟩, rfl⟩, ?_⟩
    exact List.perm_append_comm_assoc _ _ _
  | trans hperm _ ih ih' =>
    obtain ⟨middle, hmiddle, hfirst⟩ := ih hnodup h
    obtain ⟨cells', hcells', hsecond⟩ := ih' ((hperm.map Prod.fst).nodup_iff.mp hnodup) hmiddle
    exact ⟨cells', hcells', hfirst.trans hsecond⟩

/-- Fields with different names are for different columns. -/
theorem nodup_fields (schema : Schema) {record : Record}
    (h : (record.map Prod.fst).Nodup) : ((fields schema record).map Prod.fst).Nodup := by
  rw [List.Nodup, List.pairwise_map] at h ⊢
  rw [fields, List.pairwise_filterMap]
  refine h.imp fun hne field hfield field' hfield' hslot => hne ?_
  obtain ⟨⟨slot, column⟩, hcolumn, rfl⟩ := Option.map_eq_some_iff.mp hfield
  obtain ⟨⟨slot', column'⟩, hcolumn', rfl⟩ := Option.map_eq_some_iff.mp hfield'
  obtain ⟨hget, hname⟩ := Schema.exists_of_column? hcolumn
  obtain ⟨hget', hname'⟩ := Schema.exists_of_column? hcolumn'
  rw [show slot = slot' from hslot, hget'] at hget
  rw [← hname, ← hname', Option.some.inj hget]

/-- Inserting the fields of a record in another order is accepted alike and leaves the same
    table. -/
theorem WellFormed.insert_perm (h : table.WellFormed config) {record record' : Record}
    (hnames : (record.map Prod.fst).Nodup) (hperm : record.Perm record') :
    (Table.insert config record' table).2 = (Table.insert config record table).2 ∧
      (Table.insert config record' table).1.toOption =
        (Table.insert config record table).1.toOption := by
  have hfields : (fields table.schema record).Perm (fields table.schema record') :=
    hperm.filterMap _
  cases hfind : (fields table.schema record).find? illTyped with
  | some field =>
    -- the two orders may find different fields that do not fit
    have hsome : ((fields table.schema record').find? illTyped).isSome := by
      rw [List.find?_isSome]
      exact ⟨field, hfields.mem_iff.mp (List.mem_of_find?_eq_some hfind),
        List.find?_some hfind⟩
    obtain ⟨field', hfind'⟩ := Option.isSome_iff_exists.mp hsome
    rw [insert_of_illTyped hfind, insert_of_illTyped hfind']
    exact ⟨rfl, rfl⟩
  | none =>
    have hfind' : (fields table.schema record').find? illTyped = none := by
      rw [List.find?_eq_none] at hfind ⊢
      exact fun field hfield => hfind field (hfields.mem_iff.mpr hfield)
    obtain ⟨cells, dictionaries, chunk, chunk', hencode, hchunk, hinsert, -⟩ :=
      h.insert_chunk hfind
    have hnodup := nodup_fields table.schema hnames
    obtain ⟨cells', hencode', hcells⟩ := encodeFields_perm hfields hnodup hencode
    have hinsert' :=
      Chunk.insert_perm hcells (hnodup.sublist (encodeFields_sublist hencode)) hinsert
    rw [insert_of_chunk hfind hencode hchunk hinsert,
      insert_of_chunk hfind' hencode' hchunk hinsert']
    exact ⟨rfl, rfl⟩

end Table

namespace Session

theorem WellFormed.insert_record_perm {s : Session} (h : s.WellFormed) {record record' : Record}
    (hnames : (record.map Prod.fst).Nodup) (hperm : record.Perm record') :
    (s.collection.insert record').2 = (s.collection.insert record).2 ∧
      (s.collection.insert record').1.toOption = (s.collection.insert record).1.toOption := by
  obtain ⟨htable, hanswer⟩ := h.table.insert_perm hnames hperm
  refine ⟨?_, hanswer⟩
  simp only [Collection.insert, Collection.change, htable]

end Session

/-- The fields of a record can be inserted in any order: the record is accepted or refused whatever
    the order, it gets the same row, and the session after it is the same in every part. So nothing
    that is asked or saved later can tell the orders apart. -/
theorem Reachable.insert_any_order {s : Session} (h : Reachable s) {record record' : Record}
    (hnames : (record.map Prod.fst).Nodup) (hperm : record.Perm record') :
    (s.step (.insert record')).2 = (s.step (.insert record)).2 ∧
      ∀ row : Nat,
        (s.step (.insert record')).1 = .ok row ↔ (s.step (.insert record)).1 = .ok row := by
  obtain ⟨hcollection, hanswer⟩ := h.wellFormed.insert_record_perm hnames hperm
  have hok (answer : Except Error Nat) (row : Nat) :
      answer = .ok row ↔ answer.toOption = some row := by
    cases answer <;> simp [Except.toOption]
  refine ⟨?_, fun row => ?_⟩
  · show ({ s with collection := (s.collection.insert record').2 } : Session) =
      { s with collection := (s.collection.insert record).2 }
    rw [hcollection]
  · show (s.collection.insert record').1 = .ok row ↔ (s.collection.insert record).1 = .ok row
    rw [hok, hok, hanswer]

/-- A text and a flag, with two indexes over the texts. -/
def Session.tagged : Session :=
  (start (.new 2)).run [.createColumn "tag" .enum, .createColumn "flag" .bool,
    .createIndex "short" "tag" fun v => v.asString?.any fun s => s.length == 1,
    .createIndex "long" "tag" fun v => v.asString?.any fun s => 1 < s.length]

/-- Two orders of a record whose text is new. -/
theorem insert_any_order_tagged :
    (Session.tagged.step (.insert [("flag", .bool true), ("tag", .string "oak")])).2 =
      (Session.tagged.step (.insert [("tag", .string "oak"), ("flag", .bool true)])).2 ∧
    (Session.tagged.collection.insert [("flag", .bool true), ("tag", .string "oak")]).1 =
      .ok 0 := by
  have hperm : [("tag", Value.string "oak"), ("flag", .bool true)].Perm
      [("flag", .bool true), ("tag", .string "oak")] := List.Perm.swap ..
  obtain ⟨hsame, hanswer⟩ :=
    Reachable.insert_any_order ((Reachable.new 2).run _ : Reachable Session.tagged) (by simp) hperm
  exact ⟨hsame, (hanswer 0).mpr (by cbv)⟩

end ColumnStore
