import ColumnStore.Binary64
import Mathlib

/-!
# Sums of doubles

A sum that begins with positive zero never comes to negative zero and never to a not-a-number that
is not quiet (`Binary64.Total`, `Total.add`). Of the others every double is the one nearest to its
own value (`ofUnits_units`), so that zero can be added to such a sum without changing it
(`Total.add_zero`): a row without a number leaves no trace in a sum.
-/

namespace ColumnStore

namespace Binary64

variable {x y : Binary64}

/-! ## Sign and magnitude -/

theorem eq_of_toNat (h : x.bits.toNat = y.bits.toNat) : x = y := by
  obtain ⟨a⟩ := x
  obtain ⟨b⟩ := y
  exact congrArg Binary64.mk (UInt64.toNat_inj.mp h)

theorem toNat_magnitude (x : Binary64) : x.magnitude.toNat = x.bits.toNat % 2 ^ 63 := by
  rw [magnitude, UInt64.toNat_and]
  exact Nat.and_two_pow_sub_one_eq_mod _ 63

theorem toNat_neg_mod (x : Binary64) : x.neg.bits.toNat % 2 ^ 63 = x.bits.toNat % 2 ^ 63 := by
  show (x.bits.toNat ^^^ 2 ^ 63) % 2 ^ 63 = _
  rw [Nat.xor_mod_two_pow, Nat.mod_self, Nat.xor_zero]

/-- Negating gives a number without sign the sign. -/
theorem toNat_neg_of_lt (h : x.bits.toNat < 2 ^ 63) :
    x.neg.bits.toNat = x.bits.toNat + 2 ^ 63 := by
  have hmod := x.toNat_neg_mod
  have hdiv : x.neg.bits.toNat / 2 ^ 63 = 1 := by
    show (x.bits.toNat ^^^ 2 ^ 63) / 2 ^ 63 = 1
    rw [Nat.xor_div_two_pow, Nat.div_eq_of_lt h, Nat.div_self (Nat.two_pow_pos 63), Nat.zero_xor]
  omega

theorem isNegative_eq (x : Binary64) : x.isNegative = decide (2 ^ 63 ≤ x.bits.toNat) := by
  have hlt := x.bits.toNat_lt
  have hmag := x.toNat_magnitude
  rw [isNegative, bne, Bool.eq_iff_iff, decide_eq_true_iff, Bool.not_eq_true', beq_eq_false_iff_ne,
    ne_eq, ← UInt64.toNat_inj, hmag]
  omega

theorem isNaN_eq (x : Binary64) :
    x.isNaN = decide (infinity.bits.toNat < x.bits.toNat % 2 ^ 63) := by
  rw [isNaN, ← toNat_magnitude]
  rfl

/-! ## Rounding -/

theorem roundQuotient_mul (s : Nat) {den : Nat} (h : 0 < den) :
    roundQuotient (s * den) den = s := by
  rw [roundQuotient, Nat.mul_div_cancel s h, Nat.mul_mod_left]
  exact if_pos h

theorem roundQuotient_pos {num den : Nat} (hden : 0 < den) (h : den ≤ num) :
    0 < roundQuotient num den := by
  have := Nat.div_pos h hden
  unfold roundQuotient
  dsimp only
  split_ifs <;> omega

/-- What a fraction is written as: the fraction itself, or a double past which it is infinity. -/
theorem toNat_ofFraction (fraction : Nat) (e : Int) :
    (ofFraction fraction e).bits.toNat = min infinity.bits.toNat
      (if fraction < 2 ^ 52 then fraction else (e + 1074).toNat * 2 ^ 52 + fraction) := by
  have hinf : infinity.bits.toNat < 2 ^ 64 := infinity.bits.toNat_lt
  unfold ofFraction
  simp only [Nat.shiftLeft_eq, Nat.one_mul]
  split_ifs with hfraction hle hle
  · exact (Nat.min_eq_left hle).symm
  · rw [UInt64.toNat_ofNat', Nat.min_eq_right (by omega)]
    omega
  · exact (Nat.min_eq_left hle).symm
  · rw [UInt64.toNat_ofNat', Nat.min_eq_right (by omega)]
    omega

theorem toNat_ofRatio_le (num den : Nat) :
    (ofRatio num den).bits.toNat ≤ infinity.bits.toNat := by
  unfold ofRatio
  split_ifs
  · exact Nat.zero_le _
  · rw [toNat_ofFraction]
    exact Nat.min_le_left ..

theorem log2_shiftLeft {s : Nat} (hs : s ≠ 0) (k : Nat) : (s <<< k).log2 = s.log2 + k := by
  have hpos : 0 < 2 ^ k := Nat.two_pow_pos k
  obtain ⟨hle, hlt⟩ := (Nat.log2_eq_iff hs).mp rfl
  rw [Nat.shiftLeft_eq, Nat.log2_eq_iff (by positivity), Nat.pow_add, Nat.add_right_comm,
    Nat.pow_add]
  exact ⟨Nat.mul_le_mul_right _ hle, Nat.mul_lt_mul_of_pos_right hlt hpos⟩

theorem log2_one_shiftLeft (j : Nat) : (1 <<< j).log2 = j := by
  rw [log2_shiftLeft Nat.one_ne_zero]
  exact Nat.zero_add j

theorem one_shiftLeft_pos (j : Nat) : 0 < 1 <<< j := by
  rw [Nat.shiftLeft_eq, Nat.one_mul]
  exact Nat.two_pow_pos j

/-- `s * 2 ^ k` in units of `2 ^ -j` is `s` in units of `2 ^ (k - j)`. -/
theorem scaled_shiftLeft (s k j : Nat) :
    ∃ d, 0 < d ∧ scaled (s <<< k) (1 <<< j) (k - j) = (s * d, d) := by
  unfold scaled
  split_ifs with hk
  · refine ⟨2 ^ k, Nat.two_pow_pos k, ?_⟩
    rw [← Nat.shiftLeft_add, Nat.shiftLeft_eq, Nat.shiftLeft_eq, Nat.one_mul,
      show j + ((k : Int) - j).toNat = k by omega]
  · refine ⟨1 <<< j, one_shiftLeft_pos j, ?_⟩
    rw [← Nat.shiftLeft_add, Nat.shiftLeft_eq, Nat.shiftLeft_eq, Nat.one_mul,
      show k + (-((k : Int) - j)).toNat = j by omega]

/-- A significand and the power of two that it counts for: it has all its 53 digits or counts
    units. -/
structure Normal (s k : Nat) : Prop where
  ne_zero : s ≠ 0
  lt : s < 2 ^ 53
  cases : 2 ^ 52 ≤ s ∨ k = 0

/-- A significand is rounded to the units that it counts. -/
theorem Normal.unitExponent {s k : Nat} (h : Normal s k) :
    Binary64.unitExponent (s <<< k) unitsInOne = k - 1074 := by
  have hone : unitsInOne.log2 = 1074 := log2_one_shiftLeft 1074
  have hleast : (-1074 : Int) ≤ k - 1074 := by omega
  unfold Binary64.unitExponent
  simp only [log2_shiftLeft h.ne_zero, hone]
  by_cases hs : 2 ^ 52 ≤ s
  · have hlog : s.log2 = 52 := (Nat.log2_eq_iff h.ne_zero).mpr ⟨hs, h.lt⟩
    obtain ⟨d, hd, hscaled⟩ : ∃ d, 0 < d ∧ scaled (s <<< k) unitsInOne (k - 1074) = (s * d, d) :=
      scaled_shiftLeft s k 1074
    have hguess : ((s.log2 + k : Nat) : Int) - (1074 : Nat) - 52 = k - 1074 := by omega
    have hlarge : ¬s * d < d <<< 52 := by
      rw [Nat.shiftLeft_eq, Nat.mul_comm d, Nat.not_lt]
      exact Nat.mul_le_mul_right d hs
    simp only [hguess, hscaled, hlarge, if_false]
    exact max_eq_left hleast
  · have hk : k = 0 := h.cases.resolve_left hs
    have hlog : s.log2 < 52 := (Nat.log2_lt h.ne_zero).mpr (Nat.lt_of_not_le hs)
    have hguess : ((s.log2 + k : Nat) : Int) - (1074 : Nat) - 52 ≤ -1075 := by omega
    rw [hk, max_eq_right]
    · rfl
    · rw [hk] at hguess
      split_ifs
      · exact (Int.sub_le_self _ Int.one_nonneg).trans (hguess.trans (by decide))
      · exact hguess.trans (by decide)

/-- A significand is nearest to itself. -/
theorem Normal.toNat_ofRatio {s k : Nat} (h : Normal s k) :
    (ofRatio (s <<< k) unitsInOne).bits.toNat =
      min infinity.bits.toNat (if s < 2 ^ 52 then s else k * 2 ^ 52 + s) := by
  have hnum : s <<< k ≠ 0 := by
    rw [Nat.shiftLeft_eq]
    exact Nat.mul_ne_zero h.ne_zero (Nat.two_pow_pos k).ne'
  obtain ⟨d, hd, hscaled⟩ : ∃ d, 0 < d ∧ scaled (s <<< k) unitsInOne (k - 1074) = (s * d, d) :=
    scaled_shiftLeft s k 1074
  unfold ofRatio
  rw [if_neg hnum, h.unitExponent]
  simp only [hscaled]
  rw [roundQuotient_mul s hd, toNat_ofFraction, show ((k : Int) - 1074 + 1074).toNat = k by omega]

theorem scaled_le {num j : Nat} (h : num ≠ 0) {e : Int} (he : e ≤ num.log2 - j) :
    0 < (scaled num (1 <<< j) e).2 ∧ (scaled num (1 <<< j) e).2 ≤ (scaled num (1 <<< j) e).1 := by
  have hlog : 2 ^ num.log2 ≤ num := Nat.log2_self_le h
  unfold scaled
  split_ifs with hsign
  · rw [← Nat.shiftLeft_add]
    refine ⟨one_shiftLeft_pos _, ?_⟩
    rw [Nat.shiftLeft_eq, Nat.one_mul]
    exact (Nat.pow_le_pow_right Nat.two_pos (by omega)).trans hlog
  · refine ⟨one_shiftLeft_pos _, ?_⟩
    rw [Nat.shiftLeft_eq, Nat.shiftLeft_eq, Nat.one_mul]
    calc 2 ^ j ≤ 2 ^ (num.log2 + (-e).toNat) := Nat.pow_le_pow_right Nat.two_pos (by omega)
      _ = 2 ^ num.log2 * 2 ^ (-e).toNat := Nat.pow_add ..
      _ ≤ num * 2 ^ (-e).toNat := Nat.mul_le_mul_right _ hlog

/-- No whole number of units but zero is rounded to zero. -/
theorem toNat_ofRatio_pos {num : Nat} (h : num ≠ 0) :
    0 < (ofRatio num unitsInOne).bits.toNat := by
  have hone : unitsInOne.log2 = 1074 := log2_one_shiftLeft 1074
  have hexponent : unitExponent num unitsInOne ≤ num.log2 - (1074 : Nat) := by
    have hguess : (num.log2 : Int) - (1074 : Nat) - 52 ≤ num.log2 - (1074 : Nat) := by omega
    unfold unitExponent
    rw [hone]
    refine max_le ?_ (by omega)
    split_ifs
    · exact (Int.sub_le_self _ Int.one_nonneg).trans hguess
    · exact hguess
  obtain ⟨hpos, hle⟩ : 0 < (scaled num unitsInOne (unitExponent num unitsInOne)).2 ∧
      (scaled num unitsInOne (unitExponent num unitsInOne)).2 ≤
        (scaled num unitsInOne (unitExponent num unitsInOne)).1 := scaled_le h hexponent
  have hfraction := roundQuotient_pos hpos hle
  have hinf : 0 < infinity.bits.toNat := by decide
  unfold ofRatio
  rw [if_neg h, toNat_ofFraction]
  split_ifs
  · exact Nat.lt_min.mpr ⟨hinf, hfraction⟩
  · exact Nat.lt_min.mpr ⟨hinf, Nat.add_pos_right _ hfraction⟩

/-! ## Doubles as units -/

theorem exponent_eq (x : Binary64) : x.exponent = x.magnitude.toNat / 2 ^ 52 :=
  Nat.shiftRight_eq_div_pow ..

theorem significand_eq (x : Binary64) :
    x.significand = (if x.exponent = 0 then 0 else 2 ^ 52) + x.magnitude.toNat % 2 ^ 52 := by
  unfold significand
  simp only [Nat.shiftLeft_eq, Nat.one_mul]
  split_ifs
  · exact (Nat.zero_add _).symm
  · rfl

/-- A finite magnitude that is not zero is that of its significand. -/
theorem ofRatio_significand (hfinite : x.magnitude.toNat < infinity.bits.toNat)
    (hne : x.magnitude.toNat ≠ 0) :
    (ofRatio (x.significand <<< (max x.exponent 1 - 1)) unitsInOne).bits.toNat =
      x.magnitude.toNat := by
  have hinf : infinity.bits.toNat = 2047 * 2 ^ 52 := rfl
  have hexponent := x.exponent_eq
  have hsignificand := x.significand_eq
  have hnormal : Normal x.significand (max x.exponent 1 - 1) := by
    split_ifs at hsignificand with hfield
    · exact ⟨by omega, by omega, Or.inr (by omega)⟩
    · exact ⟨by omega, by omega, Or.inl (by omega)⟩
  rw [hnormal.toNat_ofRatio, hsignificand]
  split_ifs <;> omega

theorem toNat_zero_neg : zero.neg.bits.toNat = 2 ^ 63 := rfl

/-- Of the finite doubles all but negative zero are nearest to their own value. -/
theorem ofUnits_units (hfinite : x.magnitude.toNat < infinity.bits.toNat) (hzero : x ≠ zero.neg) :
    ofUnits x.units = x := by
  have hlt := x.bits.toNat_lt
  have hmag := x.toNat_magnitude
  by_cases hne : x.magnitude.toNat = 0
  · have hbits : x.bits.toNat ≠ 2 ^ 63 := fun heq =>
      hzero (eq_of_toNat (heq.trans toNat_zero_neg.symm))
    have hx : x = zero := eq_of_toNat (show x.bits.toNat = 0 by omega)
    rw [hx]
    decide +kernel
  · have hratio := ofRatio_significand hfinite hne
    have hsize : x.significand <<< (max x.exponent 1 - 1) ≠ 0 := by
      intro hnone
      rw [hnone] at hratio
      exact hne hratio.symm
    apply eq_of_toNat
    unfold ofUnits units
    rw [isNegative_eq]
    by_cases hsign : 2 ^ 63 ≤ x.bits.toNat
    · simp only [hsign, decide_true, if_true, Int.natAbs_neg, Int.natAbs_natCast,
        Int.neg_neg_iff_pos, Int.natCast_pos, Nat.pos_of_ne_zero hsize]
      rw [toNat_neg_of_lt (by omega), hratio]
      omega
    · simp only [hsign, decide_false, Bool.false_eq_true, if_false, Int.natAbs_natCast,
        Int.not_lt.mpr (Int.natCast_nonneg _)]
      omega

/-! ## Totals -/

/-- What a sum that begins with positive zero comes to. -/
structure Total (x : Binary64) : Prop where
  ne_zero : x ≠ zero.neg
  quiet : x.isNaN = true → x.quiet = x

theorem total_zero : zero.Total := ⟨by decide, by decide⟩

theorem total_ofUnits (n : Int) : (ofUnits n).Total := by
  have hinf : infinity.bits.toNat = 2047 * 2 ^ 52 := rfl
  have hle := toNat_ofRatio_le n.natAbs unitsInOne
  unfold ofUnits
  dsimp only
  split_ifs with hsign
  · have hpos : 0 < (ofRatio n.natAbs unitsInOne).bits.toNat := toNat_ofRatio_pos (by omega)
    have hneg := toNat_neg_of_lt (x := ofRatio n.natAbs unitsInOne) (by omega)
    refine ⟨fun heq => ?_, fun hnan => ?_⟩
    · rw [heq, toNat_zero_neg] at hneg
      omega
    · rw [isNaN_eq, toNat_neg_mod, decide_eq_true_iff] at hnan
      omega
  · refine ⟨fun heq => ?_, fun hnan => ?_⟩
    · rw [heq, toNat_zero_neg] at hle
      omega
    · rw [isNaN_eq, decide_eq_true_iff] at hnan
      omega

theorem total_quiet (y : Binary64) : y.quiet.Total := by
  refine ⟨fun heq => ?_, fun _ => ?_⟩
  · have hbit := congrArg (fun x : Binary64 => x.bits.toNat.testBit 51) heq
    have hset : (y.bits.toNat ||| 2 ^ 51).testBit 51 = true := by
      rw [Nat.testBit_or, Nat.testBit_two_pow_self, Bool.or_true]
    exact absurd (hset.symm.trans hbit) (by decide)
  · rw [quiet, quiet, UInt64.or_assoc, UInt64.or_self]

theorem Total.add (h : x.Total) (y : Binary64) : (x.add y).Total := by
  unfold Binary64.add
  split_ifs with hx hy hinf hinvalid hinf' hzero
  · rw [h.quiet hx]
    exact h
  · exact total_quiet y
  · exact ⟨by decide, by decide⟩
  · exact h
  · refine ⟨?_, fun hnan => absurd hnan hy⟩
    rintro rfl
    exact absurd hinf' (by decide)
  · exact absurd (beq_iff_eq.mp (Bool.and_eq_true_iff.mp hzero).1) h.ne_zero
  · exact total_ofUnits _

/-- Adding zero to a sum does not change it. -/
theorem Total.add_zero (h : x.Total) : x.add zero = x := by
  have hunits : zero.units = 0 := by decide +kernel
  unfold Binary64.add
  split_ifs with hx hy hinf hinvalid hinf' hzero
  · exact h.quiet hx
  · exact absurd hy (by decide)
  · -- the opposite of an infinity is not zero
    have hneg := x.toNat_neg_mod
    rw [← beq_iff_eq.mp hinvalid, ← x.toNat_magnitude, beq_iff_eq.mp hinf] at hneg
    exact absurd hneg (by decide)
  · rfl
  · exact absurd hinf' (by decide)
  · exact absurd (beq_iff_eq.mp (Bool.and_eq_true_iff.mp hzero).1) h.ne_zero
  · rw [hunits, Int.add_zero]
    refine ofUnits_units ?_ h.ne_zero
    rw [isNaN_eq, ← toNat_magnitude, decide_eq_true_iff] at hx
    have hne : x.magnitude.toNat ≠ infinity.bits.toNat :=
      fun heq => hinf (beq_iff_eq.mpr (UInt64.toNat_inj.mp heq))
    omega

end Binary64

end ColumnStore
