import ColumnStore.Dictionary
import Mathlib

/-!
# Interning

Results on the ids that a dictionary gives out:

* `get?_intern`: the id that interning gives for a text stands for that text;
* `extends_intern`: interning leaves every id that was given out with its text;
* `WellFormed.intern`: the texts still lie where their entries say.
-/

namespace ColumnStore

namespace Dictionary

/-! ## Looking up -/

theorem lookupBelow_spec (entries : Array Entry) (s : String) (n : Nat) :
    (∀ id, lookupBelow entries s n = some id → entries[id]?.map Entry.text = some s) ∧
      (lookupBelow entries s n = none → ∀ id < n, entries[id]?.map Entry.text ≠ some s) := by
  induction n with
  | zero => simp [lookupBelow]
  | succ n ih =>
    have hnext : ∀ id, id < n + 1 → id ≠ n → id < n := by omega
    rw [lookupBelow]
    cases hentry : entries[n]? with
    | none =>
      refine ⟨ih.1, fun hnone id hid => ?_⟩
      by_cases hn : id = n
      · subst hn
        simp [hentry]
      · exact ih.2 hnone id (hnext id hid hn)
    | some entry =>
      by_cases htext : entry.text = s
      · simp [htext, hentry]
      · simp only [htext, if_false]
        refine ⟨ih.1, fun hnone id hid => ?_⟩
        by_cases hn : id = n
        · subst hn
          simp [hentry, htext]
        · exact ih.2 hnone id (hnext id hid hn)

theorem get?_of_lookup {d : Dictionary} {s : String} {id : Nat} (h : d.lookup s = some id) :
    d.get? id = some s :=
  (lookupBelow_spec d.entries s d.size).1 id h

theorem get?_lt_size {d : Dictionary} {s : String} {id : Nat} (h : d.get? id = some s) :
    id < d.size := by
  rw [get?, Option.map_eq_some_iff] at h
  obtain ⟨entry, hentry, -⟩ := h
  exact (Array.getElem?_eq_some_iff.mp hentry).1

theorem get?_isSome_iff {d : Dictionary} {id : Nat} : (d.get? id).isSome ↔ id < d.size := by
  rw [get?, Option.isSome_map, size]
  simp

/-! ## Interning -/

/-- Every id keeps its text. -/
def Extends (d d' : Dictionary) : Prop := ∀ id s, d.get? id = some s → d'.get? id = some s

theorem Extends.refl (d : Dictionary) : d.Extends d := fun _ _ h => h

theorem Extends.trans {d d' d'' : Dictionary} (h : d.Extends d') (h' : d'.Extends d'') :
    d.Extends d'' :=
  fun id s hs => h' id s (h id s hs)

theorem get?_push (d : Dictionary) (s : String) (id : Nat) :
    (d.push s).get? id = if id = d.size then some s else d.get? id := by
  rw [get?, get?, push, size, Array.getElem?_push]
  split_ifs <;> rfl

theorem extends_push (d : Dictionary) (s : String) : d.Extends (d.push s) := by
  intro id t ht
  rw [get?_push, if_neg (Nat.ne_of_lt (get?_lt_size ht))]
  exact ht

theorem extends_intern (d : Dictionary) (s : String) : d.Extends (d.intern s).2 := by
  rw [intern]
  cases d.lookup s with
  | none => exact extends_push d s
  | some id => exact Extends.refl d

/-- Interning gives the id of a text that is there, or the next. -/
theorem fst_intern_le (d : Dictionary) (s : String) : (d.intern s).1 ≤ d.size := by
  rw [intern]
  cases hlookup : d.lookup s with
  | none => exact le_rfl
  | some id => exact (get?_lt_size (get?_of_lookup hlookup)).le

/-- The id given for a text stands for the text. -/
theorem get?_intern (d : Dictionary) (s : String) :
    (d.intern s).2.get? (d.intern s).1 = some s := by
  rw [intern]
  cases hlookup : d.lookup s with
  | none =>
    show (d.push s).get? d.size = some s
    rw [get?_push, if_pos rfl]
  | some id => exact get?_of_lookup hlookup

/-! ## Texts in their places -/

/-- Every entry is the one found at its place in the run of bytes. -/
def WellFormed (d : Dictionary) : Prop :=
  ∀ entry ∈ d.entries, entryAt d.data (entry.offset, entry.length) = .ok entry

theorem wellFormed_empty : empty.WellFormed := by
  intro entry h
  simp [empty] at h

theorem entryAt_eq_ok_iff {data : Array UInt8} {entry : Entry} :
    entryAt data (entry.offset, entry.length) = .ok entry ↔
      entry.offset + entry.length ≤ data.size ∧
        String.fromUTF8? ⟨data.extract entry.offset (entry.offset + entry.length)⟩ =
          some entry.text := by
  unfold entryAt
  simp only
  split_ifs with h
  · simp [show ¬ entry.offset + entry.length ≤ data.size by omega]
  · rw [and_iff_right (by omega)]
    cases htext : String.fromUTF8? ⟨data.extract entry.offset (entry.offset + entry.length)⟩ with
    | none => simp
    | some text =>
      rw [Option.some.injEq, Except.ok.injEq]
      constructor
      · intro heq
        rw [← heq]
      · rintro rfl
        rfl

/-- An entry keeps the place at which it was found. -/
theorem place_of_entryAt {data : Array UInt8} {place : Nat × Nat} {entry : Entry}
    (h : entryAt data place = .ok entry) : (entry.offset, entry.length) = place := by
  unfold entryAt at h
  simp only at h
  split_ifs at h
  split at h
  · cases h
    rfl
  · cases h

theorem fromUTF8?_toByteArray (s : String) : String.fromUTF8? s.toByteArray = some s := by
  unfold String.fromUTF8?
  rw [dif_pos s.isValidUTF8]
  rfl

/-- Bytes are those of the text that they are read as. -/
theorem toByteArray_of_fromUTF8? {bytes : ByteArray} {s : String}
    (h : String.fromUTF8? bytes = some s) : s.toByteArray = bytes := by
  unfold String.fromUTF8? at h
  split_ifs at h with hvalid
  cases h
  rfl

/-- Bytes appended to the run do not move an entry. -/
theorem entryAt_append {data more : Array UInt8} {entry : Entry}
    (h : entryAt data (entry.offset, entry.length) = .ok entry) :
    entryAt (data ++ more) (entry.offset, entry.length) = .ok entry := by
  obtain ⟨hle, htext⟩ := entryAt_eq_ok_iff.mp h
  apply entryAt_eq_ok_iff.mpr
  refine ⟨by rw [Array.size_append]; omega, ?_⟩
  rw [Array.extract_append, show entry.offset + entry.length - data.size = 0 by omega,
    Array.extract_zero, Array.append_empty, htext]

theorem WellFormed.push {d : Dictionary} (h : d.WellFormed) (s : String) :
    (d.push s).WellFormed := by
  intro entry hmem
  rcases Array.mem_push.mp hmem with hold | rfl
  · exact entryAt_append (h entry hold)
  · apply entryAt_eq_ok_iff.mpr
    have hsize : s.toByteArray.data.size = s.utf8ByteSize := s.size_toByteArray
    refine ⟨?_, ?_⟩
    · show d.data.size + s.utf8ByteSize ≤ (d.data ++ s.toUTF8.data).size
      rw [Array.size_append, String.toUTF8_eq_toByteArray, hsize]
    · show String.fromUTF8? ⟨(d.data ++ s.toUTF8.data).extract d.data.size
        (d.data.size + s.utf8ByteSize)⟩ = some s
      rw [String.toUTF8_eq_toByteArray, Array.extract_append, Nat.sub_self, Nat.add_sub_cancel_left,
        Array.extract_empty_of_size_le_start le_rfl, Array.empty_append, ← hsize,
        Array.extract_size]
      exact fromUTF8?_toByteArray s

theorem WellFormed.intern {d : Dictionary} (h : d.WellFormed) (s : String) :
    (d.intern s).2.WellFormed := by
  rw [Dictionary.intern]
  cases d.lookup s with
  | none => exact h.push s
  | some id => exact h

end Dictionary

end ColumnStore
