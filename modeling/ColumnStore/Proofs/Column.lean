import ColumnStore.Chunk
import ColumnStore.Proofs.Dictionary

/-!
# Cells and the values they store

Results:

* `Column.encode_of_accepts`: a value that the column's kind accepts is encoded, and its cell
  decodes to it under the dictionary then; `Column.encode_of_not_accepts`: any other value is
  refused and nothing is interned;
* `Column.decode_of_extends`: a cell that a dictionary knows keeps its value as the dictionary
  grows;
* `Column.encodeAt_of_accepts`, `Column.encodeAt_of_not_accepts`: the same for the dictionaries of a
  whole table.
-/

namespace ColumnStore

/-- The value as a row keeps it: nothing for `null`. -/
def Value.present? : Value → Option Value
  | .null => none
  | v => some v

theorem Value.present?_eq_some_iff {value v : Value} :
    value.present? = some v ↔ v = value ∧ v.isNull = false := by
  constructor
  · intro h
    cases value <;> cases h <;> exact ⟨rfl, rfl⟩
  · rintro ⟨rfl, hnull⟩
    cases v <;> first | rfl | cases hnull

/-- The id of the cell, if it holds one, was given out by the dictionary. -/
def Cell.Known (dictionary : Dictionary) : Cell → Prop
  | .enum id => id < dictionary.size
  | _ => True

theorem Cell.Known.mono {d d' : Dictionary} (h : d.Extends d') {cell : Cell}
    (hcell : cell.Known d) : cell.Known d' := by
  cases cell with
  | enum id =>
    obtain ⟨s, hs⟩ := Option.isSome_iff_exists.mp (Dictionary.get?_isSome_iff.mpr hcell)
    exact Dictionary.get?_lt_size (h id s hs)
  | _ => trivial

namespace Column

open Chunk (dictionaryOf)

/-- A cell that the dictionary knows keeps its value as the dictionary grows. -/
theorem decode_of_extends {d d' : Dictionary} (h : d.Extends d') {cell : Cell}
    (hcell : cell.Known d) : decode d' cell = decode d cell := by
  cases cell with
  | enum id =>
    obtain ⟨s, hs⟩ := Option.isSome_iff_exists.mp (Dictionary.get?_isSome_iff.mpr hcell)
    simp only [decode, hs, h id s hs]
  | _ => rfl

/-! ## Encoding -/

/-- What encoding a value gives: a cell that decodes to it, under a dictionary that only grew. -/
structure Encodes (column : Column) (d : Dictionary) (v : Value) (cell : Option Cell)
    (d' : Dictionary) : Prop where
  extends_ : d.Extends d'
  wellFormed : d.WellFormed → d'.WellFormed
  value : cell.map (decode d') = v.present?
  kind : ∀ c ∈ cell, c.kind = column.kind
  known : ∀ c ∈ cell, c.Known d'

/-- A cell that needs no dictionary. -/
theorem Encodes.of_decode {column : Column} {d : Dictionary} {v : Value} {cell : Option Cell}
    (value : cell.map (decode d) = v.present?) (kind : ∀ c ∈ cell, c.kind = column.kind)
    (known : ∀ c ∈ cell, c.Known d) : Encodes column d v cell d :=
  ⟨Dictionary.Extends.refl d, id, value, kind, known⟩

theorem encodes_text {column : Column} (hkind : column.kind = .enum) (d : Dictionary) (s : String) :
    Encodes column d (.string s) (some (.enum (d.intern s).1)) (d.intern s).2 where
  extends_ := d.extends_intern s
  wellFormed h := h.intern s
  value := by
    rw [Option.map_some, decode, d.get?_intern s]
    rfl
  kind := by
    rintro c ⟨⟩
    exact hkind.symm
  known := by
    rintro c ⟨⟩
    exact Dictionary.get?_lt_size (d.get?_intern s)

/-- An accepted value is encoded. -/
theorem encode_of_accepts {column : Column} {v : Value} (h : column.kind.accepts v = true)
    (d : Dictionary) :
    ∃ cell d', column.encode d v = (.ok cell, d') ∧ Encodes column d v cell d' := by
  obtain ⟨name, kind⟩ := column
  cases v with
  | null => exact ⟨none, d, by cases kind <;> rfl, .of_decode rfl (by simp) (by simp)⟩
  | bool b =>
    cases kind <;> simp only [Kind.accepts, Bool.false_eq_true] at h
    · exact ⟨some (.bool b), d, rfl, .of_decode rfl (by simp [Cell.kind]) (by simp [Cell.Known])⟩
    · exact ⟨some (.any (.bool b)), d, rfl,
        .of_decode rfl (by simp [Cell.kind]) (by simp [Cell.Known])⟩
  | float64 x =>
    cases kind <;> simp only [Kind.accepts, Bool.false_eq_true] at h
    · exact ⟨some (.float64 x), d, rfl, .of_decode rfl (by simp [Cell.kind]) (by simp [Cell.Known])⟩
    · exact ⟨some (.any (.float64 x)), d, rfl,
        .of_decode rfl (by simp [Cell.kind]) (by simp [Cell.Known])⟩
  | string s =>
    cases kind <;> simp only [Kind.accepts, Bool.false_eq_true] at h
    · exact ⟨_, _, rfl, encodes_text rfl d s⟩
    · exact ⟨some (.any (.string s)), d, rfl,
        .of_decode rfl (by simp [Cell.kind]) (by simp [Cell.Known])⟩
  | list items =>
    cases kind <;> simp only [Kind.accepts, Bool.false_eq_true] at h
    exact ⟨some (.any (.list items)), d, rfl,
      .of_decode rfl (by simp [Cell.kind]) (by simp [Cell.Known])⟩
  | map entries =>
    cases kind <;> simp only [Kind.accepts, Bool.false_eq_true] at h
    exact ⟨some (.any (.map entries)), d, rfl,
      .of_decode rfl (by simp [Cell.kind]) (by simp [Cell.Known])⟩

/-- Any other value is refused, and nothing is interned. -/
theorem encode_of_not_accepts {column : Column} {v : Value} (h : column.kind.accepts v = false)
    (d : Dictionary) : column.encode d v = (.error (column.mismatch v), d) := by
  obtain ⟨name, kind⟩ := column
  cases kind <;> cases v <;> first | rfl | cases h

/-- Whether or not a value is accepted, the dictionary keeps its ids. -/
theorem extends_encode (column : Column) (d : Dictionary) (v : Value) :
    d.Extends (column.encode d v).2 := by
  cases haccepts : column.kind.accepts v with
  | false =>
    rw [encode_of_not_accepts haccepts]
    exact Dictionary.Extends.refl d
  | true =>
    obtain ⟨cell, d', hencode, hspec⟩ := encode_of_accepts haccepts d
    rw [hencode]
    exact hspec.extends_

/-! ## The dictionaries of a table -/

/-- Every dictionary of a table keeps its ids. -/
structure AllExtend (ds ds' : Array Dictionary) : Prop where
  size : ds'.size = ds.size
  extends_ : ∀ slot, (dictionaryOf ds slot).Extends (dictionaryOf ds' slot)

theorem AllExtend.refl (ds : Array Dictionary) : AllExtend ds ds :=
  ⟨rfl, fun _ => Dictionary.Extends.refl _⟩

theorem AllExtend.trans {ds ds' ds'' : Array Dictionary} (h : AllExtend ds ds')
    (h' : AllExtend ds' ds'') : AllExtend ds ds'' :=
  ⟨h'.size.trans h.size, fun slot => (h.extends_ slot).trans (h'.extends_ slot)⟩

theorem dictionaryOf_of_lt {ds : Array Dictionary} {slot : Nat} (h : slot < ds.size) :
    dictionaryOf ds slot = ds[slot] := by
  rw [dictionaryOf, Array.getElem?_eq_getElem h, Option.getD_some]

theorem dictionaryOf_set {ds : Array Dictionary} {slot : Nat} (h : slot < ds.size) (d : Dictionary)
    (other : Nat) :
    dictionaryOf (ds.set slot d) other = if slot = other then d else dictionaryOf ds other := by
  rw [dictionaryOf, dictionaryOf, Array.getElem?_set]
  split_ifs <;> rfl

theorem wellFormed_dictionaryOf {ds : Array Dictionary} (h : ∀ d ∈ ds, d.WellFormed) (slot : Nat) :
    (dictionaryOf ds slot).WellFormed := by
  by_cases hslot : slot < ds.size
  · rw [dictionaryOf_of_lt hslot]
    exact h _ (Array.getElem_mem hslot)
  · rw [dictionaryOf, Array.getElem?_eq_none (by omega)]
    exact Dictionary.wellFormed_empty

/-- What encoding a value in a slot gives. -/
structure EncodesAt (column : Column) (ds : Array Dictionary) (slot : Nat) (v : Value)
    (cell : Option Cell) (ds' : Array Dictionary) : Prop where
  allExtend : AllExtend ds ds'
  wellFormed : (∀ d ∈ ds, d.WellFormed) → ∀ d ∈ ds', d.WellFormed
  value : cell.map (decode (dictionaryOf ds' slot)) = v.present?
  kind : ∀ c ∈ cell, c.kind = column.kind
  known : ∀ c ∈ cell, c.Known (dictionaryOf ds' slot)

theorem encodeAt_of_lt (column : Column) {ds : Array Dictionary} {slot : Nat} (h : slot < ds.size)
    (v : Value) : column.encodeAt ds slot v =
      ((column.encode ds[slot] v).1, ds.set slot (column.encode ds[slot] v).2) := by
  rw [encodeAt, updateAt_of_lt _ _ _ _ h]

theorem encodeAt_of_accepts {column : Column} {v : Value} (h : column.kind.accepts v = true)
    {ds : Array Dictionary} {slot : Nat} (hslot : slot < ds.size) :
    ∃ cell ds', column.encodeAt ds slot v = (.ok cell, ds') ∧
      EncodesAt column ds slot v cell ds' := by
  obtain ⟨cell, d', hencode, hspec⟩ := encode_of_accepts h ds[slot]
  have hsame : dictionaryOf (ds.set slot d') slot = d' := by
    rw [dictionaryOf_set hslot, if_pos rfl]
  refine ⟨cell, ds.set slot d', by rw [encodeAt_of_lt column hslot, hencode], ?_⟩
  refine ⟨⟨Array.size_set .., fun other => ?_⟩, fun hwf d hd => ?_, ?_, hspec.kind, ?_⟩
  · rw [dictionaryOf_set hslot]
    split_ifs with heq
    · rw [← heq, dictionaryOf_of_lt hslot]
      exact hspec.extends_
    · exact Dictionary.Extends.refl _
  · rcases Array.mem_or_eq_of_mem_set hd with hmem | rfl
    · exact hwf d hmem
    · exact hspec.wellFormed (hwf _ (Array.getElem_mem hslot))
  · rw [hsame]
    exact hspec.value
  · rw [hsame]
    exact hspec.known

theorem encodeAt_of_not_accepts {column : Column} {v : Value} (h : column.kind.accepts v = false)
    (ds : Array Dictionary) (slot : Nat) :
    column.encodeAt ds slot v = (.error (column.mismatch v), ds) := by
  by_cases hslot : slot < ds.size
  · rw [encodeAt_of_lt column hslot, encode_of_not_accepts h, Array.set_getElem_self]
  · rw [encodeAt, updateAt_of_size_le _ _ _ _ (by omega), encode_of_not_accepts h]

end Column

end ColumnStore
