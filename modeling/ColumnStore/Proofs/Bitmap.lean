import ColumnStore.Bitmap
import ColumnStore.Proofs.Word

/-!
# Bitmaps as sets of positions

`Bitmap.contains` is the meaning of a bitmap. The results:

* `contains_set`, `contains_clear`, `contains_and`, `contains_andNot`, …: every operation as an
  operation on sets, with its effect on the number of words beside it;
* `mem_toList`, `toList_pairwise`: the list of a bitmap holds exactly its positions, ascending;
  `count_eq` and `isEmpty_iff` follow;
* `toList_eq_iff`: two bitmaps list the same positions iff they are the same set.

`Bitmap.Fits` is the form in which a chunk keeps its bitmaps.
-/

namespace ColumnStore

namespace Bitmap

/-! ## Words -/

/-- The word that position `i` lies in; past the end it is zero. -/
def wordAt (b : Bitmap) (j : Nat) : Word := b.words[j]?.getD 0

theorem contains_eq (b : Bitmap) (i : Nat) : b.contains i = (b.wordAt (i / 64)).has (i % 64) := by
  rw [contains, wordAt]
  cases b.words[i / 64]? <;> simp

theorem contains_of_size_le {b : Bitmap} {i : Nat} (h : b.words.size * 64 ≤ i) :
    b.contains i = false := by
  rw [contains_eq, wordAt, Array.getElem?_eq_none (by omega)]
  simp

theorem lt_of_contains {b : Bitmap} {i : Nat} (h : b.contains i = true) :
    i < b.words.size * 64 := by
  by_contra hle
  rw [contains_of_size_le (by omega)] at h
  exact Bool.noConfusion h

theorem size_grow (b : Bitmap) (bits : Nat) :
    (b.grow bits).words.size = max b.words.size (wordCount bits) := by
  rw [grow]
  split_ifs with h
  · omega
  · simp
    omega

theorem wordAt_grow (b : Bitmap) (bits j : Nat) : (b.grow bits).wordAt j = b.wordAt j := by
  rw [grow]
  split_ifs with h
  · rfl
  · rw [wordAt, wordAt, Array.getElem?_append]
    split_ifs with hj
    · rfl
    · rw [Array.getElem?_eq_none (by omega : b.words.size ≤ j), Array.getElem?_replicate]
      split_ifs <;> rfl

theorem wordAt_modify (words : Array Word) (f : Word → Word) (k j : Nat) (h : k < words.size) :
    (⟨words.modify k f⟩ : Bitmap).wordAt j =
      if k = j then f ((⟨words⟩ : Bitmap).wordAt j) else (⟨words⟩ : Bitmap).wordAt j := by
  rw [wordAt, wordAt, Array.getElem?_modify]
  split_ifs with hk
  · subst hk
    rw [Array.getElem?_eq_getElem h]
    rfl
  · rfl

/-! ## Membership -/

@[simp]
theorem contains_empty (i : Nat) : empty.contains i = false := by
  simp [contains, empty]

@[simp]
theorem contains_withCapacity (bits i : Nat) : (withCapacity bits).contains i = false := by
  rw [contains_eq, wordAt, withCapacity, Array.getElem?_replicate]
  split_ifs <;> simp

@[simp]
theorem contains_grow (b : Bitmap) (bits i : Nat) : (b.grow bits).contains i = b.contains i := by
  rw [contains_eq, contains_eq, wordAt_grow]

theorem contains_set (b : Bitmap) (i j : Nat) :
    (b.set i).contains j = (decide (i = j) || b.contains j) := by
  have hroom : i / 64 < (b.grow (i + 1)).words.size := by
    rw [size_grow, wordCount]
    omega
  rw [contains_eq, set, wordAt_modify _ _ _ _ hroom]
  show (if i / 64 = j / 64 then (b.grow (i + 1)).wordAt (j / 64) ||| _
    else (b.grow (i + 1)).wordAt (j / 64)).has (j % 64) = _
  rw [wordAt_grow, contains_eq b j]
  split_ifs with hword
  · rw [Word.has_or _ _ (by omega), Word.has_bit (by omega) (by omega), Bool.or_comm]
    congr 2
    rw [eq_iff_iff]
    omega
  · rw [decide_eq_false (by rintro rfl; exact hword rfl), Bool.false_or]

theorem contains_clear (b : Bitmap) (i j : Nat) :
    (b.clear i).contains j = (b.contains j && !decide (i = j)) := by
  by_cases hroom : i / 64 < b.words.size
  · rw [contains_eq, clear, wordAt_modify _ _ _ _ hroom, contains_eq b j]
    split_ifs with hword
    · rw [Word.has_and _ _ (by omega), Word.has_not _ (by omega),
        Word.has_bit (by omega) (by omega)]
      congr 3
      rw [eq_iff_iff]
      omega
    · rw [decide_eq_false (by rintro rfl; exact hword rfl), Bool.not_false, Bool.and_true]
  · -- past the end nothing is there to remove
    have hsame : b.clear i = b := by
      rw [clear]
      congr 1
      apply Array.ext (by simp)
      intro k hk _
      rw [Array.getElem_modify, if_neg (by simp at hk; omega)]
    rw [hsame]
    by_cases hij : i = j
    · subst hij
      rw [contains_of_size_le (by omega), Bool.false_and]
    · rw [decide_eq_false hij, Bool.not_false, Bool.and_true]

theorem contains_assign (b : Bitmap) (i j : Nat) (value : Bool) :
    (b.assign i value).contains j = if i = j then value else b.contains j := by
  cases value
  · rw [assign, if_neg (by simp), contains_clear]
    split_ifs with h <;> simp [h]
  · rw [assign, if_pos rfl, contains_set]
    split_ifs with h <;> simp [h]

@[simp]
theorem contains_reset (b : Bitmap) (i : Nat) : b.reset.contains i = false := by
  rw [contains_eq, wordAt, reset, Array.getElem?_map]
  cases b.words[i / 64]? <;> simp

theorem contains_and (a b : Bitmap) (i : Nat) :
    (a.and b).contains i = (a.contains i && b.contains i) := by
  rw [contains_eq, contains_eq a, contains_eq b, wordAt, wordAt, wordAt, and, Array.getElem?_mapIdx]
  cases a.words[i / 64]? with
  | none => simp
  | some w =>
    rw [Option.map_some, Option.getD_some, Option.getD_some, Word.has_and _ _ (by omega)]

theorem contains_andNot (a b : Bitmap) (i : Nat) :
    (a.andNot b).contains i = (a.contains i && !b.contains i) := by
  rw [contains_eq, contains_eq a, contains_eq b, wordAt, wordAt, wordAt, andNot,
    Array.getElem?_mapIdx]
  cases a.words[i / 64]? with
  | none => simp
  | some w =>
    rw [Option.map_some, Option.getD_some, Option.getD_some, Word.has_and _ _ (by omega),
      Word.has_not _ (by omega)]

theorem contains_foldl_set (offsets : List Nat) (b : Bitmap) (i : Nat) :
    (offsets.foldl set b).contains i = (decide (i ∈ offsets) || b.contains i) := by
  induction offsets generalizing b with
  | nil => simp
  | cons o rest ih =>
    rw [List.foldl_cons, ih, contains_set]
    by_cases h : o = i
    · simp [h]
    · simp [h, Ne.symm h]

/-! ## Number of words -/

theorem size_set (b : Bitmap) (i : Nat) :
    (b.set i).words.size = max b.words.size (wordCount (i + 1)) := by
  rw [set, Array.size_modify, size_grow]

theorem size_assign_of_lt {b : Bitmap} {i : Nat} {value : Bool} (h : i < b.words.size * 64) :
    (b.assign i value).words.size = b.words.size := by
  rw [assign]
  split_ifs
  · rw [size_set, wordCount]
    omega
  · rw [clear, Array.size_modify]

@[simp]
theorem size_reset (b : Bitmap) : b.reset.words.size = b.words.size := Array.size_map ..

@[simp]
theorem size_and (a b : Bitmap) : (a.and b).words.size = a.words.size := Array.size_mapIdx ..

/-- Bitmaps of one length with the same positions are the same. -/
theorem ext_contains {a b : Bitmap} (hsize : a.words.size = b.words.size)
    (h : ∀ i, a.contains i = b.contains i) : a = b := by
  have hwords : a.words = b.words := by
    refine Array.ext hsize fun j hj hj' => Word.eq_of_has fun k hk => ?_
    have hbit := h (64 * j + k)
    rw [contains_eq, contains_eq, wordAt, wordAt, show (64 * j + k) / 64 = j by omega,
      show (64 * j + k) % 64 = k by omega, Array.getElem?_eq_getElem hj,
      Array.getElem?_eq_getElem hj'] at hbit
    exact hbit
  cases a
  cases b
  exact congrArg Bitmap.mk hwords

/-! ## Enumeration -/

theorem mem_positionsFrom {base i : Nat} {words : List Word} :
    i ∈ positionsFrom base words ↔
      base ≤ i ∧ (words[(i - base) / 64]?.getD 0).has ((i - base) % 64) = true := by
  induction words generalizing base with
  | nil => simp [positionsFrom]
  | cons w rest ih =>
    have hhead : i ∈ w.positions.map (base + ·) ↔
        base ≤ i ∧ i < base + 64 ∧ w.has (i - base) = true := by
      rw [List.mem_map]
      constructor
      · rintro ⟨k, hk, rfl⟩
        obtain ⟨hlt, hset⟩ := Word.mem_positions.mp hk
        exact ⟨by omega, by omega, by rwa [Nat.add_sub_cancel_left]⟩
      · rintro ⟨hle, hlt, hset⟩
        exact ⟨i - base, Word.mem_positions.mpr ⟨by omega, hset⟩, by omega⟩
    have hsplit : i ∈ positionsFrom base (w :: rest) ↔
        i ∈ w.positions.map (base + ·) ∨ i ∈ positionsFrom (base + 64) rest := by
      rw [positionsFrom]
      split_ifs with hw
      · subst hw
        rw [hhead]
        simp
      · rw [List.mem_append]
    rw [hsplit, hhead, ih]
    by_cases hlt : i < base + 64
    · rw [show (i - base) / 64 = 0 by omega, show (i - base) % 64 = i - base by omega]
      simp only [List.getElem?_cons_zero, Option.getD_some]
      constructor
      · rintro (⟨hle, -, hset⟩ | ⟨hle, -⟩)
        · exact ⟨hle, hset⟩
        · omega
      · rintro ⟨hle, hset⟩
        exact Or.inl ⟨hle, hlt, hset⟩
    · rw [show (i - base) / 64 = (i - (base + 64)) / 64 + 1 by omega,
        show (i - base) % 64 = (i - (base + 64)) % 64 by omega, List.getElem?_cons_succ]
      constructor
      · rintro (⟨-, h, -⟩ | ⟨hle, hset⟩)
        · omega
        · exact ⟨by omega, hset⟩
      · rintro ⟨hle, hset⟩
        exact Or.inr ⟨by omega, hset⟩

theorem positionsFrom_pairwise (base : Nat) (words : List Word) :
    (positionsFrom base words).Pairwise (· < ·) := by
  induction words generalizing base with
  | nil => exact List.Pairwise.nil
  | cons w rest ih =>
    rw [positionsFrom]
    split_ifs with hw
    · exact ih (base + 64)
    · rw [List.pairwise_append]
      refine ⟨?_, ih (base + 64), ?_⟩
      · rw [List.pairwise_map]
        exact (Word.positions_pairwise w).imp (by omega)
      · intro a ha b hb
        obtain ⟨k, hk, rfl⟩ := List.mem_map.mp ha
        have hlt := (Word.mem_positions.mp hk).1
        have hle := (mem_positionsFrom.mp hb).1
        omega

/-- The list of a bitmap holds exactly its positions. -/
theorem mem_toList {b : Bitmap} {i : Nat} : i ∈ b.toList ↔ b.contains i = true := by
  rw [toList, mem_positionsFrom, contains_eq, wordAt]
  simp

/-- The list of a bitmap ascends. -/
theorem toList_pairwise (b : Bitmap) : b.toList.Pairwise (· < ·) := positionsFrom_pairwise 0 _

theorem toList_nodup (b : Bitmap) : b.toList.Nodup := b.toList_pairwise.imp Nat.ne_of_lt

/-- An ascending list is settled by its elements. -/
theorem eq_of_pairwise_lt {xs ys : List Nat} (hx : xs.Pairwise (· < ·)) (hy : ys.Pairwise (· < ·))
    (h : ∀ i, i ∈ xs ↔ i ∈ ys) : xs = ys := by
  apply List.Perm.eq_of_pairwise (fun x y _ _ (hxy : x < y) (hyx : y < x) => by omega) hx hy
  rw [List.perm_ext_iff_of_nodup (hx.imp Nat.ne_of_lt) (hy.imp Nat.ne_of_lt)]
  exact h

theorem toList_eq_iff {a b : Bitmap} : a.toList = b.toList ↔ ∀ i, a.contains i = b.contains i := by
  constructor
  · intro h i
    rw [Bool.eq_iff_iff, ← mem_toList, ← mem_toList, h]
  · intro h
    apply eq_of_pairwise_lt a.toList_pairwise b.toList_pairwise
    intro i
    rw [mem_toList, mem_toList, h i]

/-- A bitmap that keeps some of the positions of another lists these. -/
theorem toList_eq_filter {a b : Bitmap} {keep : Nat → Bool}
    (h : ∀ i, b.contains i = (a.contains i && keep i)) : b.toList = a.toList.filter keep := by
  apply eq_of_pairwise_lt b.toList_pairwise (a.toList_pairwise.filter keep)
  intro i
  rw [List.mem_filter, mem_toList, mem_toList, h i, Bool.and_eq_true]

theorem count_eq (b : Bitmap) : b.count = b.toList.length := by
  have hfrom : ∀ (words : List Word) base,
      (words.map Word.count).sum = (positionsFrom base words).length := by
    intro words
    induction words with
    | nil => intro _; rfl
    | cons w rest ih =>
      intro base
      rw [List.map_cons, List.sum_cons, ih (base + 64), positionsFrom, Word.count_eq]
      split_ifs with hw
      · subst hw
        simp [Word.positions_eq]
      · simp
  exact hfrom _ 0

theorem count_le_capacity (b : Bitmap) : b.count ≤ b.capacity := by
  have hsubset : b.toList ⊆ List.range b.capacity := fun i hi =>
    List.mem_range.mpr (lt_of_contains (mem_toList.mp hi))
  have hle := (b.toList_nodup.subperm hsubset).length_le
  rwa [List.length_range, ← count_eq] at hle

/-- One position more is counted as one more. -/
theorem count_of_insert {a b : Bitmap} {i : Nat}
    (h : ∀ j, b.contains j = (decide (i = j) || a.contains j)) (hfresh : a.contains i = false) :
    b.count = a.count + 1 := by
  have hold : a.toList = b.toList.filter fun j => !decide (i = j) := by
    apply toList_eq_filter
    intro j
    rw [h]
    by_cases hij : i = j
    · rw [← hij, hfresh]
      simp
    · simp [hij]
  have hnew : (b.toList.filter fun j => decide (i = j)).length = 1 := by
    have hmem : i ∈ b.toList := by
      rw [mem_toList, h]
      simp
    rw [← List.count_eq_one_of_mem b.toList_nodup hmem, List.count, List.countP_eq_length_filter]
    congr 1
    apply List.filter_congr
    intro j _
    rw [Bool.eq_iff_iff, decide_eq_true_iff, beq_iff_eq, eq_comm]
  have hsplit := List.length_eq_length_filter_add (l := b.toList) fun j => decide (i = j)
  rw [count_eq, count_eq, hold]
  omega

theorem isEmpty_iff {b : Bitmap} : b.isEmpty = true ↔ ∀ i, b.contains i = false := by
  rw [isEmpty, Array.all_eq_true]
  constructor
  · intro h i
    rw [contains]
    cases hw : b.words[i / 64]? with
    | none => rfl
    | some w =>
      obtain ⟨hlt, rfl⟩ := Array.getElem?_eq_some_iff.mp hw
      simp [beq_iff_eq.mp (h _ hlt)]
  · intro h j hj
    rw [beq_iff_eq]
    apply Word.eq_of_has
    intro k hk
    have := h (64 * j + k)
    rw [contains_eq, wordAt, show (64 * j + k) / 64 = j by omega,
      show (64 * j + k) % 64 = k by omega, Array.getElem?_eq_getElem hj] at this
    simpa using this

/-! ## Fitting a capacity -/

/-- The bitmap has the words of a capacity and no position at or past it. -/
structure Fits (b : Bitmap) (capacity : Nat) : Prop where
  size : b.words.size = wordCount capacity
  lt : ∀ i, b.contains i = true → i < capacity

/-- Bitmaps of one capacity with the same positions below it are the same. -/
theorem Fits.eq_of_contains {a b : Bitmap} {capacity : Nat} (ha : a.Fits capacity)
    (hb : b.Fits capacity) (hsame : ∀ i < capacity, a.contains i = b.contains i) : a = b := by
  have hall : ∀ i, a.contains i = b.contains i := by
    intro i
    by_cases hi : i < capacity
    · exact hsame i hi
    · rw [Bool.eq_iff_iff]
      exact ⟨fun h => absurd (ha.lt i h) hi, fun h => absurd (hb.lt i h) hi⟩
  exact ext_contains (ha.size.trans hb.size.symm) hall

theorem fits_withCapacity (capacity : Nat) : (withCapacity capacity).Fits capacity where
  size := Array.size_replicate ..
  lt i h := by simp at h

theorem Fits.grow {b : Bitmap} {capacity capacity' : Nat} (h : b.Fits capacity)
    (hle : capacity ≤ capacity') : (b.grow capacity').Fits capacity' where
  size := by
    have := h.size
    simp only [size_grow, wordCount] at *
    omega
  lt i hi := by
    have := h.lt i (by rwa [contains_grow] at hi)
    omega

theorem Fits.set {b : Bitmap} {capacity i : Nat} (h : b.Fits capacity) (hi : i < capacity) :
    (b.set i).Fits capacity where
  size := by
    have := h.size
    simp only [size_set, wordCount] at *
    omega
  lt j hj := by
    rw [contains_set, Bool.or_eq_true, decide_eq_true_eq] at hj
    rcases hj with rfl | hj
    · exact hi
    · exact h.lt j hj

/-- Removing positions keeps a bitmap fitting. -/
theorem Fits.of_subset {a b : Bitmap} {capacity : Nat} (h : b.Fits capacity)
    (hsize : a.words.size = b.words.size) (hsub : ∀ i, a.contains i = true → b.contains i = true) :
    a.Fits capacity where
  size := hsize.trans h.size
  lt i hi := h.lt i (hsub i hi)

theorem Fits.clear {b : Bitmap} {capacity : Nat} (h : b.Fits capacity) (i : Nat) :
    (b.clear i).Fits capacity :=
  h.of_subset (Array.size_modify ..) fun j hj => by
    rw [contains_clear, Bool.and_eq_true] at hj
    exact hj.1

theorem Fits.assign {b : Bitmap} {capacity i : Nat} (h : b.Fits capacity) (hi : i < capacity)
    (value : Bool) : (b.assign i value).Fits capacity := by
  rw [Bitmap.assign]
  split_ifs
  · exact h.set hi
  · exact h.clear i

theorem Fits.andNot {a : Bitmap} {capacity : Nat} (h : a.Fits capacity) (b : Bitmap) :
    (a.andNot b).Fits capacity :=
  h.of_subset (Array.size_mapIdx ..) fun i hi => by
    rw [contains_andNot, Bool.and_eq_true] at hi
    exact hi.1

theorem Fits.foldl_set {b : Bitmap} {capacity : Nat} (h : b.Fits capacity) {offsets : List Nat}
    (hlt : ∀ o ∈ offsets, o < capacity) : (offsets.foldl Bitmap.set b).Fits capacity := by
  induction offsets generalizing b with
  | nil => exact h
  | cons o rest ih =>
    exact ih (h.set (hlt o List.mem_cons_self)) fun x hx => hlt x (List.mem_cons_of_mem o hx)

end Bitmap

end ColumnStore
