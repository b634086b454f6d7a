import ColumnStore.Proofs.Bitmap

/-!
# The algebra of bitmaps

A bitmap stands for the set of its positions (`Bitmap.toSet`), however many words it has. The
operations treat the words that both bitmaps have, those that one of them lacks and the last, partial
word differently; on the sets none of this shows:

* `toSet_and`, `toSet_andNot`, `toSet_or`: intersection, difference and union, for bitmaps of any two
  lengths;
* `toSet_set`, `toSet_clear`, `toSet_assign`: one position put in or taken out;
* `toSet_grow`, `toSet_withCapacity`, `toSet_filled`: room says nothing about positions;
* `set_algebra`: all of them together, with the laws that `and` and `or` take over from sets.
-/

namespace ColumnStore

namespace Word

theorem has_full {k : Nat} (hk : k < 64) : full.has k = true := by
  have hfull : full = ~~~ (0 : Word) := by decide
  rw [hfull, has_not _ hk, has_zero]
  rfl

/-- The word of a partial length has the bits below it. -/
theorem has_below {n k : Nat} (hn : n < 64) (hk : k < 64) : (below n).has k = decide (k < n) := by
  have hone : (1 : Word) ≤ bit n := by
    rw [UInt64.le_iff_toNat_le, toNat_bit hn]
    exact Nat.one_le_two_pow
  have hbelow : (below n).toNat = 2 ^ n - 1 := by
    rw [below, UInt64.toNat_sub_of_le _ _ hone, toNat_bit hn]
    rfl
  rw [has_eq_getLsbD _ hk, BitVec.getLsbD]
  show (below n).toNat.testBit k = _
  rw [hbelow, Nat.testBit_two_pow_sub_one]

end Word

namespace Bitmap

/-! ## Union and filling -/

/-- Past the end of a bitmap its words are zero, so a union takes the words of the other there. -/
theorem wordAt_or (a b : Bitmap) (j : Nat) : (a.or b).wordAt j = a.wordAt j ||| b.wordAt j := by
  have hsize : b.words.size ≤ (a.grow b.capacity).words.size := by
    rw [size_grow, wordCount, capacity]
    omega
  rw [← wordAt_grow a b.capacity j, wordAt, or, Array.getElem?_mapIdx, wordAt]
  cases hword : (a.grow b.capacity).words[j]? with
  | some w => rfl
  | none =>
    have hj : b.words.size ≤ j := hsize.trans (Array.getElem?_eq_none_iff.mp hword)
    rw [wordAt, Array.getElem?_eq_none hj]
    rfl

theorem contains_or (a b : Bitmap) (i : Nat) :
    (a.or b).contains i = (a.contains i || b.contains i) := by
  rw [contains_eq, contains_eq a, contains_eq b, wordAt_or, Word.has_or _ _ (by omega)]

/-- The words of a filled bitmap: full ones, and then perhaps a partial one. -/
theorem wordAt_filled (len j : Nat) :
    (filled len).wordAt j =
      if j < len / 64 then Word.full else if j = len / 64 then Word.below (len % 64) else 0 := by
  have hwhole : (filled len).words[j]? =
      if j < len / 64 then some Word.full
      else if j = len / 64 ∧ len % 64 ≠ 0 then some (Word.below (len % 64)) else none := by
    unfold filled
    simp only
    split_ifs with hrem hj hlast hj hlast
    · rw [Array.getElem?_replicate, if_pos hj]
    · exact absurd hrem hlast.2
    · rw [Array.getElem?_replicate, if_neg hj]
    · rw [Array.getElem?_push_lt (by simpa using hj), Array.getElem_replicate]
    · rw [Array.getElem?_push, if_pos (by simpa using hlast.1)]
    · rw [Array.getElem?_eq_none]
      simp only [Array.size_push, Array.size_replicate]
      omega
  rw [wordAt, hwhole]
  split_ifs with hj hlast hword hword
  · rfl
  · rfl
  · exact absurd hlast.1 hword
  · -- a partial word of no bits is not stored
    have hrem : len % 64 = 0 := by
      by_contra hne
      exact hlast ⟨hword, hne⟩
    rw [hrem]
    decide
  · rfl

theorem contains_filled (len i : Nat) : (filled len).contains i = decide (i < len) := by
  rw [contains_eq, wordAt_filled]
  split_ifs with hword hword
  · rw [Word.has_full (by omega), decide_eq_true (by omega)]
  · rw [Word.has_below (by omega) (by omega)]
    exact decide_eq_decide.mpr (by omega)
  · rw [Word.has_zero, decide_eq_false (by omega)]

/-! ## The positions as a set -/

/-- The positions of a bitmap. -/
def toSet (b : Bitmap) : Set Nat := {i | b.contains i = true}

@[simp]
theorem mem_toSet {b : Bitmap} {i : Nat} : i ∈ b.toSet ↔ b.contains i = true := Iff.rfl

theorem toSet_and (a b : Bitmap) : (a.and b).toSet = a.toSet ∩ b.toSet := by
  ext i
  simp [contains_and]

theorem toSet_andNot (a b : Bitmap) : (a.andNot b).toSet = a.toSet \ b.toSet := by
  ext i
  simp [contains_andNot]

theorem toSet_or (a b : Bitmap) : (a.or b).toSet = a.toSet ∪ b.toSet := by
  ext i
  simp [contains_or]

theorem toSet_set (b : Bitmap) (i : Nat) : (b.set i).toSet = insert i b.toSet := by
  ext j
  rw [mem_toSet, contains_set, Bool.or_eq_true, decide_eq_true_eq, Set.mem_insert_iff, eq_comm,
    mem_toSet]

theorem toSet_clear (b : Bitmap) (i : Nat) : (b.clear i).toSet = b.toSet \ {i} := by
  ext j
  rw [mem_toSet, contains_clear, Bool.and_eq_true, Bool.not_eq_true', decide_eq_false_iff_not,
    Set.mem_sdiff_singleton, ne_comm, mem_toSet]

theorem toSet_assign (b : Bitmap) (i : Nat) (value : Bool) :
    (b.assign i value).toSet = if value then insert i b.toSet else b.toSet \ {i} := by
  cases value
  · exact toSet_clear b i
  · exact toSet_set b i

theorem toSet_grow (b : Bitmap) (bits : Nat) : (b.grow bits).toSet = b.toSet := by
  ext i
  simp

theorem toSet_withCapacity (bits : Nat) : (withCapacity bits).toSet = ∅ := by
  ext i
  simp

theorem toSet_filled (len : Nat) : (filled len).toSet = Set.Iio len := by
  ext i
  simp [contains_filled]

theorem toSet_eq_empty_iff {b : Bitmap} : b.toSet = ∅ ↔ b.isEmpty = true := by
  rw [isEmpty_iff, Set.eq_empty_iff_forall_notMem]
  simp

/-- Past the end there is nothing to take out. -/
theorem clear_of_capacity_le {b : Bitmap} {i : Nat} (h : b.capacity ≤ i) : b.clear i = b := by
  refine ext_contains (show (b.clear i).words.size = _ from Array.size_modify ..) fun j => ?_
  rw [contains_clear]
  by_cases hij : i = j
  · rw [← hij, contains_of_size_le h, Bool.false_and]
  · rw [decide_eq_false hij, Bool.not_false, Bool.and_true]

/-- The operations on bitmaps are the operations on the sets of their positions, whatever the
    lengths: setting a position grows the bitmap if it has to, clearing one past the end does
    nothing, and room alone puts no position in or out. So `and` and `or` are associative,
    commutative and idempotent on the sets. -/
theorem set_algebra (a b c : Bitmap) (i n : Nat) (value : Bool) :
    -- two bitmaps
    (a.and b).toSet = a.toSet ∩ b.toSet ∧
    (a.andNot b).toSet = a.toSet \ b.toSet ∧
    (a.or b).toSet = a.toSet ∪ b.toSet ∧
    -- one position
    (a.set i).toSet = insert i a.toSet ∧
    (a.set i).words.size = max a.words.size (i / 64 + 1) ∧
    (a.clear i).toSet = a.toSet \ {i} ∧
    a.clear (a.capacity + i) = a ∧
    (a.assign i value).toSet = (if value then insert i a.toSet else a.toSet \ {i}) ∧
    -- room
    (a.grow n).toSet = a.toSet ∧
    (withCapacity n).toSet = ∅ ∧
    (filled n).toSet = Set.Iio n ∧
    (a.isEmpty = true ↔ a.toSet = ∅) ∧
    -- laws
    ((a.and b).and c).toSet = (a.and (b.and c)).toSet ∧
    ((a.or b).or c).toSet = (a.or (b.or c)).toSet ∧
    (a.and b).toSet = (b.and a).toSet ∧
    (a.or b).toSet = (b.or a).toSet ∧
    (a.and a).toSet = a.toSet ∧
    (a.or a).toSet = a.toSet := by
  have hwords : (a.set i).words.size = max a.words.size (i / 64 + 1) := by
    rw [size_set, wordCount, show (i + 1 + 63) / 64 = i / 64 + 1 by omega]
  refine ⟨toSet_and a b, toSet_andNot a b, toSet_or a b, toSet_set a i, hwords, toSet_clear a i,
    clear_of_capacity_le (Nat.le_add_right ..), toSet_assign a i value, toSet_grow a n,
    toSet_withCapacity n, toSet_filled n, toSet_eq_empty_iff.symm, ?_, ?_, ?_, ?_, ?_, ?_⟩
  · simp only [toSet_and, Set.inter_assoc]
  · simp only [toSet_or, Set.union_assoc]
  · rw [toSet_and, toSet_and, Set.inter_comm]
  · rw [toSet_or, toSet_or, Set.union_comm]
  · rw [toSet_and, Set.inter_self]
  · rw [toSet_or, Set.union_self]

end Bitmap

end ColumnStore
