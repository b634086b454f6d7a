import ColumnStore.Word
import Mathlib

/-!
# Bits of a word

What a word means is which of its 64 bits are set. The results:

* `has_bit`, `has_and`, `has_or`, `has_not`: the operations bit by bit, and `eq_of_has`: a word is
  determined by its bits;
* `positions_eq`: taking the lowest set bit off again and again lists the set bits in order;
* `count_eq`: the count is the length of that list.
-/

namespace ColumnStore

namespace Word

/-! ## Single bits -/

theorem has_eq_getLsbD (w : Word) {k : Nat} (hk : k < 64) : w.has k = w.toBitVec.getLsbD k := by
  have hmod : k % 64 = k := Nat.mod_eq_of_lt hk
  have hofNat : (UInt64.ofNat k).toNat = k := by
    rw [UInt64.toNat_ofNat']
    omega
  have hmask : ((w >>> UInt64.ofNat k) &&& 1).toNat = (w.toNat >>> k) % 2 := by
    rw [UInt64.toNat_and, UInt64.toNat_shiftRight, hofNat, hmod]
    exact Nat.and_one_is_mod _
  have hbit : w.toBitVec.getLsbD k = decide ((w.toNat >>> k) % 2 = 1) := by
    rw [BitVec.getLsbD, Nat.testBit, Nat.and_comm, Nat.and_one_is_mod]
    show (w.toNat >>> k % 2 != 0) = _
    rcases Nat.mod_two_eq_zero_or_one (w.toNat >>> k) with h | h <;> simp [h]
  rw [has, hbit, beq_eq_decide]
  congr 1
  rw [← UInt64.toNat_inj, hmask]
  rfl

theorem has_and (v w : Word) {k : Nat} (hk : k < 64) : (v &&& w).has k = (v.has k && w.has k) := by
  simp only [has_eq_getLsbD _ hk, UInt64.toBitVec_and, BitVec.getLsbD_and]

theorem has_or (v w : Word) {k : Nat} (hk : k < 64) : (v ||| w).has k = (v.has k || w.has k) := by
  simp only [has_eq_getLsbD _ hk, UInt64.toBitVec_or, BitVec.getLsbD_or]

theorem has_not (w : Word) {k : Nat} (hk : k < 64) : (~~~ w).has k = !w.has k := by
  simp only [has_eq_getLsbD _ hk, UInt64.toBitVec_not, BitVec.getLsbD_not, hk, decide_true,
    Bool.true_and]

@[simp]
theorem has_zero (k : Nat) : (0 : Word).has k = false := by
  simp [has]

theorem toNat_bit {j : Nat} (hj : j < 64) : (bit j).toNat = 2 ^ j := by
  have hpow : 2 ^ j < 2 ^ 64 := Nat.pow_lt_pow_right (by omega) hj
  rw [bit, UInt64.toNat_shiftLeft, UInt64.toNat_ofNat',
    show j % 2 ^ 64 % 64 = j by omega, Nat.shiftLeft_eq]
  simpa using Nat.mod_eq_of_lt hpow

theorem has_bit {j k : Nat} (hj : j < 64) (hk : k < 64) : (bit j).has k = decide (j = k) := by
  rw [has_eq_getLsbD _ hk, BitVec.getLsbD]
  show (bit j).toNat.testBit k = _
  rw [toNat_bit hj, Nat.testBit_two_pow]

/-- A word is determined by its bits. -/
theorem eq_of_has {v w : Word} (h : ∀ k < 64, v.has k = w.has k) : v = w := by
  apply UInt64.toBitVec_inj.mp
  apply BitVec.eq_of_getLsbD_eq
  intro k hk
  rw [← has_eq_getLsbD v hk, ← has_eq_getLsbD w hk, h k hk]

theorem exists_has_of_ne_zero {w : Word} (h : w ≠ 0) : ∃ k < 64, w.has k = true := by
  by_contra hnone
  push Not at hnone
  apply h
  apply eq_of_has
  intro k hk
  simpa using hnone k hk

/-! ## The lowest set bit -/

/-- Negating keeps the lowest set bit and turns every higher one over. -/
theorem has_and_neg (w : Word) {k : Nat} (hk : k < 64) :
    (w &&& (0 - w)).has k = (w.has k && !decide (∃ j < k, w.has j = true)) := by
  have hex : (∃ j < k, w.toBitVec.getLsbD j = true) ↔ ∃ j < k, w.has j = true := by
    constructor <;> rintro ⟨j, hj, h⟩ <;> refine ⟨j, hj, ?_⟩
    · rwa [has_eq_getLsbD _ (by omega)]
    · rwa [← has_eq_getLsbD _ (by omega)]
  rw [has_and _ _ hk, has_eq_getLsbD (0 - w) hk, UInt64.zero_sub, UInt64.toBitVec_neg,
    BitVec.getLsbD_neg, ← has_eq_getLsbD w hk]
  simp only [hk, hex, decide_true, Bool.true_and]
  cases w.has k <;> simp

theorem has_dropLowest (w : Word) {k : Nat} (hk : k < 64) :
    w.dropLowest.has k = (w.has k && decide (∃ j < k, w.has j = true)) := by
  -- `w - 1` is the complement of `-w`
  have hsub : w - 1 = ~~~ (0 - w) := by
    rw [UInt64.zero_sub]
    apply UInt64.toBitVec_inj.mp
    simp [BitVec.not_neg]
  have hneg := has_and_neg w hk
  rw [has_and _ _ hk] at hneg
  rw [dropLowest, hsub, has_and _ _ hk, has_not _ hk]
  revert hneg
  cases w.has k <;> cases (0 - w).has k <;> simp

/-- The lowest set bit of a word that is not zero is set, and none below it is. -/
theorem lowest_spec {w : Word} (h : w ≠ 0) :
    w.lowest < 64 ∧ w.has w.lowest = true ∧ ∀ j < w.lowest, w.has j = false := by
  classical
  obtain ⟨k, ⟨hk, hset⟩, hmin⟩ : ∃ k, (k < 64 ∧ w.has k = true) ∧
      ∀ j < k, ¬(j < 64 ∧ w.has j = true) :=
    ⟨Nat.find (exists_has_of_ne_zero h), Nat.find_spec (exists_has_of_ne_zero h),
      fun j hj => Nat.find_min (exists_has_of_ne_zero h) hj⟩
  have hbelow : ∀ j < k, w.has j = false := fun j hj => by
    have := hmin j hj
    simpa [show j < 64 by omega] using this
  have hbit : w &&& (0 - w) = bit k := by
    apply eq_of_has
    intro i hi
    rw [has_and_neg w hi, has_bit hk hi]
    rcases Nat.lt_trichotomy i k with hik | rfl | hik
    · rw [hbelow i hik, Bool.false_and, decide_eq_false (show ¬ k = i by omega)]
    · rw [hset, decide_eq_true rfl, Bool.true_and, Bool.not_eq_true', decide_eq_false_iff_not]
      rintro ⟨j, hj, hhas⟩
      rw [hbelow j hj] at hhas
      exact Bool.noConfusion hhas
    · rw [decide_eq_true (⟨k, hik, hset⟩ : ∃ j < i, w.has j = true),
        decide_eq_false (show ¬ k = i by omega)]
      simp
  have hlowest : w.lowest = k := by
    rw [lowest, hbit]
    show (bit k).toNat.log2 = k
    rw [toNat_bit hk, Nat.log2_two_pow]
  rw [hlowest]
  exact ⟨hk, hset, hbelow⟩

/-! ## Enumeration -/

theorem filter_range_cons {p : Nat → Bool} {n k : Nat} (hk : k < n) (hp : p k = true)
    (hbelow : ∀ j < k, p j = false) :
    (List.range n).filter p = k :: (List.range n).filter (fun i => p i && decide (k < i)) := by
  obtain ⟨m, rfl⟩ : ∃ m, n = k + 1 + m := ⟨n - (k + 1), by omega⟩
  have hlow : ∀ q : Nat → Bool, (∀ j < k, q j = false) → (List.range k).filter q = [] := by
    intro q hq
    rw [List.filter_eq_nil_iff]
    intro j hj
    simp [hq j (List.mem_range.mp hj)]
  rw [List.range_add, List.range_succ, List.filter_append, List.filter_append,
    List.filter_append, List.filter_append, hlow p hbelow,
    hlow _ (fun j hj => by simp [hbelow j hj])]
  simp only [List.filter_cons, List.filter_nil, hp, List.nil_append, if_true, lt_irrefl,
    decide_false, Bool.and_false, Bool.false_eq_true, if_false, List.singleton_append]
  congr 1
  apply List.filter_congr
  intro i hi
  obtain ⟨j, -, rfl⟩ := List.mem_map.mp hi
  simp [show k < k + 1 + j by omega]

theorem positionsUpTo_eq (fuel : Nat) (w : Word)
    (h : ((List.range 64).filter w.has).length ≤ fuel) :
    positionsUpTo fuel w = (List.range 64).filter w.has := by
  induction fuel generalizing w with
  | zero => rw [positionsUpTo, List.eq_nil_of_length_eq_zero (Nat.le_zero.mp h)]
  | succ fuel ih =>
    rw [positionsUpTo]
    split_ifs with hw
    · subst hw
      simp
    · obtain ⟨hlt, hset, hbelow⟩ := lowest_spec hw
      have hdrop : (List.range 64).filter w.dropLowest.has =
          (List.range 64).filter fun i => w.has i && decide (w.lowest < i) := by
        apply List.filter_congr
        intro i hi
        rw [has_dropLowest w (List.mem_range.mp hi)]
        congr 2
        rw [eq_iff_iff]
        constructor
        · rintro ⟨j, hj, hhas⟩
          by_contra hle
          rw [hbelow j (by omega)] at hhas
          exact Bool.noConfusion hhas
        · intro hi
          exact ⟨w.lowest, hi, hset⟩
      rw [filter_range_cons hlt hset hbelow] at h ⊢
      rw [ih w.dropLowest (by rw [hdrop]; simpa using h), hdrop]

/-- The positions of a word are its set bits, lowest first. -/
theorem positions_eq (w : Word) : w.positions = (List.range 64).filter w.has := by
  apply positionsUpTo_eq
  have := List.length_filter_le w.has (List.range 64)
  simpa [width] using this

theorem countBelow_eq (w : Word) (n : Nat) :
    w.countBelow n = ((List.range n).filter w.has).length := by
  induction n with
  | zero => rfl
  | succ n ih =>
    rw [countBelow, ih, List.range_succ, List.filter_append, List.length_append]
    cases h : w.has n <;> simp [h]

/-- The count of a word is the number of its positions. -/
theorem count_eq (w : Word) : w.count = w.positions.length := by
  rw [count, positions_eq, countBelow_eq]
  split_ifs with h
  · subst h
    rw [List.filter_eq_nil_iff.mpr fun k _ => by simp]
    rfl
  · rfl

theorem mem_positions {w : Word} {k : Nat} : k ∈ w.positions ↔ k < 64 ∧ w.has k = true := by
  rw [positions_eq, List.mem_filter, List.mem_range]

theorem positions_pairwise (w : Word) : w.positions.Pairwise (· < ·) := by
  rw [positions_eq]
  exact List.pairwise_lt_range.filter _

end Word

end ColumnStore
