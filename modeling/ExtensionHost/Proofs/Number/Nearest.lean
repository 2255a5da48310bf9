import Mathlib.Tactic.FieldSimp
import Mathlib.Tactic.Positivity
import Mathlib.Tactic.Ring
import ExtensionHost.Proofs.Number.Value

namespace ExtensionHost

theorem two_zpow_eq (k : ℤ) : (2 : ℚ) ^ k = 2 ^ k.toNat / 2 ^ (-k).toNat := by
  rcases le_total 0 k with hk | hk
  · obtain ⟨j, rfl⟩ := Int.eq_ofNat_of_zero_le hk
    simp
  · obtain ⟨j, hj⟩ := Int.eq_ofNat_of_zero_le (neg_nonneg.2 hk)
    obtain rfl : k = -j := by omega
    simp

/-- Counted in parts of the denominator, rounding a ratio is at most half of it off, and exactly
half only towards an even number. -/
theorem nearestEven_off (num : ℕ) {den : ℕ} (hden : 0 < den) :
    2 * |(nearestEven num den : ℤ) * den - num| ≤ den ∧
      (2 * |(nearestEven num den : ℤ) * den - num| = den → nearestEven num den % 2 = 0) := by
  have hsplit := Nat.div_add_mod num den
  have hmod := Nat.mod_lt num hden
  have hbelow : ((num / den : ℕ) : ℤ) * den - num = -(num % den : ℕ) := by
    rw [← Int.natCast_mul, mul_comm]
    omega
  have hdown : |((num / den : ℕ) : ℤ) * den - num| = (num % den : ℕ) := by
    rw [hbelow, abs_neg, Nat.abs_cast]
  have hup : |((num / den + 1 : ℕ) : ℤ) * den - num| = den - (num % den : ℕ) := by
    rw [← abs_of_nonneg (a := (den : ℤ) - (num % den : ℕ)) (by omega)]
    push_cast at hbelow ⊢
    congr 1
    linarith
  unfold nearestEven
  dsimp only
  split
  · rw [hdown]
    omega
  · split
    · rw [hup]
      omega
    · rcases Nat.mod_two_eq_zero_or_one (num / den) with he | ho
      · rw [he, Nat.add_zero, hdown]
        omega
      · rw [ho, hup]
        omega

theorem nearestEven_near (num : ℕ) {den : ℕ} (hden : 0 < den) :
    2 * |(nearestEven num den : ℚ) - num / den| ≤ 1 ∧
      (2 * |(nearestEven num den : ℚ) - num / den| = 1 → nearestEven num den % 2 = 0) := by
  have hq : (0 : ℚ) < den := by exact_mod_cast hden
  have hscale : 2 * |(nearestEven num den : ℚ) - num / den| =
      ((2 * |(nearestEven num den : ℤ) * den - num| : ℤ) : ℚ) / den := by
    push_cast
    rw [mul_div_assoc, ← abs_of_pos hq, ← abs_div, abs_of_pos hq, sub_div,
      mul_div_cancel_right₀ _ hq.ne']
  rw [hscale, div_le_one hq, div_eq_one_iff_eq hq.ne']
  exact_mod_cast nearestEven_off num hden

/-- The exponent of a rounded ratio. -/
def ratioExponent (num den : ℕ) : ℤ := max (-1074) (ratioLog2 num den - 52)

/-- The mantissa of a rounded ratio. It may be one too large for a double. -/
def ratioMantissa (num den : ℕ) : ℕ :=
  nearestEven (num * 2 ^ (-ratioExponent num den).toNat) (den * 2 ^ (ratioExponent num den).toNat)

section Ratio

variable {num den : ℕ}

theorem two_zpow_le_ratio_iff (hden : 0 < den) (k : ℤ) :
    (2 : ℚ) ^ k ≤ num / den ↔ den * 2 ^ k.toNat ≤ num * 2 ^ (-k).toNat := by
  have hq : (0 : ℚ) < den := by exact_mod_cast hden
  rw [two_zpow_eq, div_le_div_iff₀ (by positivity) hq, mul_comm _ (den : ℚ)]
  norm_cast

theorem ratioLog2_spec (hnum : 0 < num) (hden : 0 < den) :
    (2 : ℚ) ^ ratioLog2 num den ≤ num / den ∧ (num / den : ℚ) < 2 ^ (ratioLog2 num den + 1) := by
  have hq : (0 : ℚ) < den := by exact_mod_cast hden
  have hlow : (2 : ℚ) ^ num.log2 ≤ num := by exact_mod_cast Nat.log2_self_le hnum.ne'
  have hhigh : (num : ℚ) < 2 ^ (num.log2 + 1) := by exact_mod_cast Nat.lt_log2_self
  have hlow' : (2 : ℚ) ^ den.log2 ≤ den := by exact_mod_cast Nat.log2_self_le hden.ne'
  have hhigh' : (den : ℚ) < 2 ^ (den.log2 + 1) := by exact_mod_cast Nat.lt_log2_self
  have hpow : ∀ a b : ℕ, (2 : ℚ) ^ ((a : ℤ) - b) = 2 ^ a / 2 ^ b := fun a b => by
    rw [zpow_sub₀ two_ne_zero, zpow_natCast, zpow_natCast]
  -- The logarithms of both sides give the one of the ratio up to one.
  have hbelow : (2 : ℚ) ^ ((num.log2 : ℤ) - den.log2 - 1) ≤ num / den := by
    have hexp : (num.log2 : ℤ) - den.log2 - 1 = num.log2 - (den.log2 + 1 : ℕ) := by push_cast; ring
    rw [hexp, hpow]
    exact div_le_div₀ (by positivity) hlow hq hhigh'.le
  have habove : (num / den : ℚ) < 2 ^ ((num.log2 : ℤ) - den.log2 + 1) := by
    have hexp : (num.log2 : ℤ) - den.log2 + 1 = (num.log2 + 1 : ℕ) - den.log2 := by push_cast; ring
    rw [hexp, hpow]
    exact div_lt_div₀ hhigh hlow' (by positivity) (by positivity)
  unfold ratioLog2
  dsimp only
  split
  · rename_i h
    exact ⟨(two_zpow_le_ratio_iff hden _).2 h, habove⟩
  · rename_i h
    refine ⟨hbelow, ?_⟩
    rw [sub_add_cancel]
    exact lt_of_not_ge (mt (two_zpow_le_ratio_iff hden _).1 h)

theorem ratioMantissa_near (num : ℕ) (hden : 0 < den) :
    2 * |(ratioMantissa num den : ℚ) * 2 ^ ratioExponent num den - num / den| ≤
        2 ^ ratioExponent num den ∧
      (2 * |(ratioMantissa num den : ℚ) * 2 ^ ratioExponent num den - num / den| =
        2 ^ ratioExponent num den → ratioMantissa num den % 2 = 0) := by
  unfold ratioMantissa
  generalize ratioExponent num den = e
  have hunit : (0 : ℚ) < 2 ^ e := zpow_pos two_pos _
  have hq : (0 : ℚ) < den := by exact_mod_cast hden
  have hratio : ((num * 2 ^ (-e).toNat : ℕ) : ℚ) / (den * 2 ^ e.toNat : ℕ) = num / den / 2 ^ e := by
    rw [two_zpow_eq]
    push_cast
    field_simp
  have hscale : ∀ x : ℚ, 2 * |x * 2 ^ e - num / den| = 2 * |x - num / den / 2 ^ e| * 2 ^ e := by
    intro x
    rw [mul_assoc, ← abs_of_pos hunit, ← abs_mul, abs_of_pos hunit, sub_mul,
      div_mul_cancel₀ _ hunit.ne']
  have hscaled : 0 < den * 2 ^ e.toNat := by positivity
  have hnear := nearestEven_near (num * 2 ^ (-e).toNat) hscaled
  rw [hratio] at hnear
  rw [hscale, mul_le_iff_le_one_left hunit, mul_eq_right₀ hunit.ne']
  exact hnear

theorem ratio_lt (hnum : 0 < num) (hden : 0 < den) :
    (num / den : ℚ) < 2 ^ 53 * 2 ^ ratioExponent num den := by
  refine (ratioLog2_spec hnum hden).2.trans_le ?_
  have hle : ratioLog2 num den + 1 ≤ (53 : ℕ) + ratioExponent num den := by
    unfold ratioExponent
    omega
  rw [← zpow_natCast, ← zpow_add₀ two_ne_zero]
  exact zpow_le_zpow_right₀ one_le_two hle

theorem le_ratio (hnum : 0 < num) (hden : 0 < den) (he : -1074 < ratioExponent num den) :
    2 ^ 52 * 2 ^ ratioExponent num den ≤ (num / den : ℚ) := by
  refine le_trans ?_ (ratioLog2_spec hnum hden).1
  have hle : (52 : ℕ) + ratioExponent num den ≤ ratioLog2 num den := by
    unfold ratioExponent at he ⊢
    omega
  rw [← zpow_natCast, ← zpow_add₀ two_ne_zero]
  exact zpow_le_zpow_right₀ one_le_two hle

theorem ratioMantissa_le (hnum : 0 < num) (hden : 0 < den) : ratioMantissa num den ≤ 2 ^ 53 := by
  have hunit : (0 : ℚ) < 2 ^ ratioExponent num den := zpow_pos two_pos _
  have hlt := ratio_lt hnum hden
  have hnear := (abs_le.1 (le_div_iff₀' two_pos |>.2 (ratioMantissa_near num hden).1)).2
  by_contra hmore
  have hcast : (2 : ℚ) ^ 53 + 1 ≤ ratioMantissa num den := by exact_mod_cast Nat.lt_of_not_le hmore
  have hscaled := mul_le_mul_of_nonneg_right hcast hunit.le
  linarith

theorem le_ratioMantissa (hnum : 0 < num) (hden : 0 < den) (he : -1074 < ratioExponent num den) :
    2 ^ 52 ≤ ratioMantissa num den := by
  have hunit : (0 : ℚ) < 2 ^ ratioExponent num den := zpow_pos two_pos _
  have hle := le_ratio hnum hden he
  have hnear := (abs_le.1 (le_div_iff₀' two_pos |>.2 (ratioMantissa_near num hden).1)).1
  by_contra hless
  have hcast : (ratioMantissa num den : ℚ) + 1 ≤ 2 ^ 52 := by exact_mod_cast Nat.lt_of_not_le hless
  have hscaled := mul_le_mul_of_nonneg_right hcast hunit.le
  linarith

theorem ratioMantissa_closest (num : ℕ) (hden : 0 < den) {k : ℤ}
    (hk : k ≠ ratioMantissa num den) :
    |(ratioMantissa num den : ℚ) * 2 ^ ratioExponent num den - num / den| ≤
        |(k : ℚ) * 2 ^ ratioExponent num den - num / den| ∧
      (|(k : ℚ) * 2 ^ ratioExponent num den - num / den| =
        |(ratioMantissa num den : ℚ) * 2 ^ ratioExponent num den - num / den| →
          ratioMantissa num den % 2 = 0) := by
  obtain ⟨hnear, heven⟩ := ratioMantissa_near num hden
  have hunit : (0 : ℚ) < 2 ^ ratioExponent num den := zpow_pos two_pos _
  have happart : (2 : ℚ) ^ ratioExponent num den ≤
      |(k : ℚ) * 2 ^ ratioExponent num den -
        ratioMantissa num den * 2 ^ ratioExponent num den| := by
    rw [← sub_mul, abs_mul, abs_of_pos hunit]
    refine le_mul_of_one_le_left hunit.le ?_
    exact_mod_cast Int.one_le_abs (sub_ne_zero.2 hk)
  have htriangle := abs_sub_le (k * 2 ^ ratioExponent num den : ℚ) (num / den)
    (ratioMantissa num den * 2 ^ ratioExponent num den)
  rw [abs_sub_comm (num / den : ℚ)] at htriangle
  exact ⟨by linarith, fun htie => heven (by linarith)⟩

theorem ratioMantissa_closer (hnum : 0 < num) (hden : 0 < den)
    (he : -1074 < ratioExponent num den) {w : ℚ} (hw : w < 2 ^ 52 * 2 ^ ratioExponent num den) :
    |(ratioMantissa num den : ℚ) * 2 ^ ratioExponent num den - num / den| < |w - num / den| := by
  have hle := le_ratio hnum hden he
  have hleast : |(ratioMantissa num den : ℚ) * 2 ^ ratioExponent num den - num / den| ≤
      |(2 : ℚ) ^ 52 * 2 ^ ratioExponent num den - num / den| := by
    by_cases hsame : ((2 ^ 52 : ℤ)) = ratioMantissa num den
    · have hcast : (2 ^ 52 : ℚ) = ratioMantissa num den := by exact_mod_cast hsame
      rw [hcast]
    · have hclosest := (ratioMantissa_closest num hden hsame).1
      push_cast at hclosest
      exact hclosest
  refine hleast.trans_lt ?_
  rw [abs_sub_comm, abs_of_nonneg (sub_nonneg.2 hle), abs_sub_comm,
    abs_of_pos (sub_pos.2 (hw.trans_le hle))]
  linarith

end Ratio

namespace Double

theorem abs_value (d : Double) : |d.value| = d.mantissa * 2 ^ d.exponent := by
  have hpow : (0 : ℚ) < 2 ^ d.exponent := zpow_pos two_pos _
  rw [value, abs_mul, abs_of_nonneg (mul_nonneg (Nat.cast_nonneg _) hpow.le)]
  split <;> simp

theorem abs_value_lt (d : Double) : |d.value| < 2 ^ 53 * 2 ^ d.exponent := by
  have hpow : (0 : ℚ) < 2 ^ d.exponent := zpow_pos two_pos _
  rw [abs_value]
  refine mul_lt_mul_of_pos_right ?_ hpow
  exact_mod_cast d.canonical.1

theorem exists_multiple (d : Double) {e : ℤ} (h : e = -1074 ∨ 2 ^ 52 * 2 ^ e ≤ |d.value|) :
    ∃ k : ℤ, d.value = k * 2 ^ e := by
  have hle : e ≤ d.exponent := by
    rcases h with rfl | hlarge
    · exact d.canonical.2.1
    · have hlt := hlarge.trans_lt d.abs_value_lt
      rw [← zpow_natCast, ← zpow_natCast, ← zpow_add₀ two_ne_zero, ← zpow_add₀ two_ne_zero,
        zpow_lt_zpow_iff_right₀ one_lt_two] at hlt
      push_cast at hlt
      omega
  obtain ⟨j, hj⟩ := Int.eq_ofNat_of_zero_le (sub_nonneg.2 hle)
  have hexp : (2 : ℚ) ^ d.exponent = 2 ^ j * 2 ^ e := by
    rw [← zpow_natCast, ← zpow_add₀ two_ne_zero]
    congr 1
    omega
  refine ⟨(if d.negative then -1 else 1) * (d.mantissa * 2 ^ j), ?_⟩
  rw [value, hexp]
  push_cast
  ring

theorem multiple_or_small (d : Double) {e : ℤ} (he : -1074 ≤ e) :
    (∃ k : ℤ, d.value = k * 2 ^ e) ∨ -1074 < e ∧ |d.value| < 2 ^ 52 * 2 ^ e := by
  by_cases hlarge : e = -1074 ∨ 2 ^ 52 * 2 ^ e ≤ |d.value|
  · exact .inl (d.exists_multiple hlarge)
  · obtain ⟨hmin, hsmall⟩ := not_or.1 hlarge
    exact .inr ⟨lt_of_le_of_ne he (Ne.symm hmin), lt_of_not_ge hsmall⟩

/-- The double is closest to a number; of two that are equally close it is the even one. -/
structure Nearest (d : Double) (x : ℚ) : Prop where
  closest : ∀ d' : Double, |d.value - x| ≤ |d'.value - x|
  even : ∀ d' : Double, d'.value ≠ d.value → |d'.value - x| = |d.value - x| → d.mantissa % 2 = 0

end Double

namespace Binary64

variable {num den : ℕ} {negative : Bool}

theorem ofRatio_eq (hnum : 0 < num) : ofRatio negative num den =
    if h : Double.Canonical (ratioMantissa num den) (ratioExponent num den) then
      .finite ⟨negative, ratioMantissa num den, ratioExponent num den, h⟩
    else if h : Double.Canonical 0x10000000000000 (ratioExponent num den + 1) then
      .finite ⟨negative, 0x10000000000000, ratioExponent num den + 1, h⟩
    else .infinity negative := by
  rw [ofRatio, if_neg hnum.ne']
  rfl

theorem exists_ofRatio (negative : Bool) (hnum : 0 < num) (hden : 0 < den)
    (hlog : ratioLog2 num den < 1023) : ∃ d, ofRatio negative num den = .finite d := by
  have hle := ratioMantissa_le hnum hden
  have hmin : -1074 ≤ ratioExponent num den := le_max_left ..
  have hmax : ratioExponent num den ≤ 970 := by
    unfold ratioExponent
    omega
  rw [ofRatio_eq hnum]
  split
  · exact ⟨_, rfl⟩
  · rename_i hnot
    have hfull : Double.Canonical 0x10000000000000 (ratioExponent num den + 1) :=
      ⟨by omega, by omega, by omega, .inl (by omega)⟩
    rw [dif_pos hfull]
    exact ⟨_, rfl⟩

/-- What a ratio is rounded to is the rounded mantissa with its exponent, even if the mantissa is
one too large. -/
theorem ofRatio_eq_finite (hnum : 0 < num) (hden : 0 < den) {d : Double}
    (h : ofRatio negative num den = .finite d) :
    d.negative = negative ∧
      (d.mantissa : ℚ) * 2 ^ d.exponent = ratioMantissa num den * 2 ^ ratioExponent num den ∧
      (ratioMantissa num den % 2 = 0 → d.mantissa % 2 = 0) := by
  rw [ofRatio_eq hnum] at h
  split at h
  · cases h
    exact ⟨rfl, rfl, id⟩
  · rename_i hnot
    split at h
    · rename_i hfull
      cases h
      have hmantissa : ratioMantissa num den = 2 ^ 53 := by
        have hle := ratioMantissa_le hnum hden
        by_contra hne
        refine hnot ⟨by omega, le_max_left .., by have := hfull.2.2.1; omega, ?_⟩
        rcases (le_max_left (-1074) (ratioLog2 num den - 52)).eq_or_lt with hmin | hmore
        · exact .inr hmin.symm
        · exact .inl (by have := le_ratioMantissa hnum hden hmore; omega)
      refine ⟨rfl, ?_, fun _ => by norm_num⟩
      rw [hmantissa, zpow_add_one₀ two_ne_zero]
      push_cast
      ring
    · cases h

theorem nearest_ofRatio (hnum : 0 < num) (hden : 0 < den) {d : Double}
    (h : ofRatio negative num den = .finite d) :
    d.Nearest ((if negative then -1 else 1) * (num / den)) := by
  obtain ⟨rfl, hmagnitude, heven⟩ := ofRatio_eq_finite hnum hden h
  let sign : ℚ := if d.negative then -1 else 1
  have hsign : sign * sign = 1 ∧ |sign| = 1 := by
    dsimp only [sign]
    split <;> simp
  have hvalue : sign * d.value = ratioMantissa num den * 2 ^ ratioExponent num den := by
    rw [← hmagnitude, Double.value, ← mul_assoc, hsign.1, one_mul]
  -- All is seen from the side of the ratio, where it is positive.
  have hdistance : ∀ d' : Double, |d'.value - sign * (num / den)| =
      |sign * d'.value - num / den| := fun d' => by
    rw [← one_mul |d'.value - sign * (num / den)|, ← hsign.2, ← abs_mul, mul_sub, ← mul_assoc,
      hsign.1, one_mul]
  have hgrid : ∀ d' : Double, (∃ k : ℤ, sign * d'.value = k * 2 ^ ratioExponent num den) ∨
      -1074 < ratioExponent num den ∧ sign * d'.value < 2 ^ 52 * 2 ^ ratioExponent num den := by
    intro d'
    rcases d'.multiple_or_small (le_max_left ..) with ⟨k, hk⟩ | ⟨he, hsmall⟩
    · refine .inl ⟨(if d.negative then -1 else 1) * k, ?_⟩
      rw [hk, ← mul_assoc]
      push_cast
      rfl
    · refine .inr ⟨he, (le_abs_self _).trans_lt ?_⟩
      rwa [abs_mul, hsign.2, one_mul]
  refine ⟨fun d' => ?_, fun d' hne htie => heven ?_⟩
  · rw [hdistance, hdistance, hvalue]
    rcases hgrid d' with ⟨k, hk⟩ | ⟨he, hsmall⟩
    · rw [hk]
      by_cases hsame : k = ratioMantissa num den
      · rw [hsame, Int.cast_natCast]
      · exact (ratioMantissa_closest num hden hsame).1
    · exact (ratioMantissa_closer hnum hden he hsmall).le
  · rw [hdistance, hdistance, hvalue] at htie
    rcases hgrid d' with ⟨k, hk⟩ | ⟨he, hsmall⟩
    · rw [hk] at htie
      refine (ratioMantissa_closest num hden ?_).2 htie
      rintro rfl
      refine hne (mul_left_cancel₀ (left_ne_zero_of_mul_eq_one hsign.1) ?_)
      rw [hk, hvalue, Int.cast_natCast]
    · exact absurd htie (ratioMantissa_closer hnum hden he hsmall).ne'

end Binary64

end ExtensionHost
