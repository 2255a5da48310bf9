import Mathlib.Algebra.Order.Field.Rat
import Mathlib.Tactic.Linarith
import ExtensionHost.Json.Number

namespace ExtensionHost

theorem ratio_eq_intCast_iff {num den : ℕ} (hden : 0 < den) (n : ℤ) :
    (num : ℚ) / den = n ↔ num % den = 0 ∧ ((num / den : ℕ) : ℤ) = n := by
  have hq : (den : ℚ) ≠ 0 := by exact_mod_cast hden.ne'
  have hz : (den : ℤ) ≠ 0 := by exact_mod_cast hden.ne'
  rw [div_eq_iff hq]
  constructor
  · intro h
    have hint : (num : ℤ) = n * den := by exact_mod_cast h
    have hdvd : den ∣ num := by
      rw [← Int.natCast_dvd_natCast, hint]
      exact dvd_mul_left ..
    refine ⟨Nat.mod_eq_zero_of_dvd hdvd, ?_⟩
    rw [Int.natCast_ediv, hint, Int.mul_ediv_cancel _ hz]
  · rintro ⟨hmod, rfl⟩
    have hmul : num / den * den = num := Nat.div_mul_cancel (Nat.dvd_of_mod_eq_zero hmod)
    exact_mod_cast hmul.symm

namespace Double

/-- The number that a double stands for. -/
def value (d : Double) : ℚ := (if d.negative then -1 else 1) * (d.mantissa * 2 ^ d.exponent)

theorem denominator_pos (d : Double) : 0 < d.denominator := Nat.pow_pos (by decide)

theorem ratio_eq (d : Double) :
    (d.numerator : ℚ) / d.denominator = d.mantissa * 2 ^ d.exponent := by
  unfold numerator denominator
  rcases le_total 0 d.exponent with he | he
  · obtain ⟨k, hk⟩ := Int.eq_ofNat_of_zero_le he
    simp [hk]
  · obtain ⟨k, hk⟩ := Int.eq_ofNat_of_zero_le (neg_nonneg.2 he)
    have hexp : d.exponent = -k := by omega
    simp [hexp, div_eq_mul_inv]

theorem value_eq_intCast_iff (d : Double) (n : ℤ) : d.value = n ↔ d.isIntegral ∧ d.trunc = n := by
  rw [value, ← ratio_eq, isIntegral, beq_iff_eq, trunc]
  split
  · have hneg : -1 * ((d.numerator : ℚ) / d.denominator) = n ↔
        (d.numerator : ℚ) / d.denominator = (-n : ℤ) := by
      push_cast
      rw [neg_one_mul, neg_eq_iff_eq_neg]
    rw [hneg, ratio_eq_intCast_iff d.denominator_pos]
    omega
  · rw [one_mul, ratio_eq_intCast_iff d.denominator_pos]

theorem value_eq_zero_iff (d : Double) : d.value = 0 ↔ d.isZero := by
  have hpow : (2 : ℚ) ^ d.exponent ≠ 0 := zpow_ne_zero _ two_ne_zero
  rw [value, isZero, beq_iff_eq]
  split <;> simp [hpow]

theorem value_nonneg_iff (d : Double) : 0 ≤ d.value ↔ d.isZero ∨ d.negative = false := by
  have hpow : (0 : ℚ) < 2 ^ d.exponent := zpow_pos two_pos _
  have hmantissa : (0 : ℚ) ≤ d.mantissa := Nat.cast_nonneg _
  rw [← value_eq_zero_iff, value]
  cases d.negative with
  | false => simp [mul_nonneg hmantissa hpow.le]
  | true =>
    have hle := mul_nonneg hmantissa hpow.le
    constructor
    · intro h
      left
      simp only [if_true] at h ⊢
      linarith
    · rintro (h | h)
      · exact h.ge
      · cases h

end Double

namespace Number

/-- The number that a JSON number stands for, whatever way it is written. -/
def value : Number → ℚ
  | .integer n _ => n
  | .double d => d.value

end Number

theorem ratioLog2_one_nonneg {num : ℕ} (hnum : num ≠ 0) : 0 ≤ ratioLog2 num 1 := by
  have hle : 2 ^ num.log2 ≤ num := Nat.log2_self_le hnum
  have hlog : (1 : ℕ).log2 = 0 := by decide
  unfold ratioLog2
  simp [hlog, hle]

namespace Binary64

theorem ofInt_eq_finite {n : ℤ} {d : Double} (h : ofInt n = .finite d) :
    d.negative = decide (n < 0) ∧ (d.isZero → n = 0) := by
  unfold ofInt ofRatio at h
  split at h
  · rename_i hzero
    cases h
    have hn : n = 0 := Int.natAbs_eq_zero.1 hzero
    exact ⟨rfl, fun _ => hn⟩
  · rename_i hnum
    have hlog := ratioLog2_one_nonneg hnum
    dsimp only at h
    split at h
    · rename_i hcanonical
      cases h
      refine ⟨rfl, fun hz => ?_⟩
      simp only [Double.isZero, beq_iff_eq] at hz
      -- A canonical mantissa of zero needs the least exponent, which an integer never gets.
      rcases hcanonical.2.2.2 with hm | he
      · omega
      · omega
    · split at h
      · cases h
        exact ⟨rfl, fun hz => by simp [Double.isZero] at hz⟩
      · cases h

end Binary64

end ExtensionHost
