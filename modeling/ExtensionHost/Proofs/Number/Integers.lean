import ExtensionHost.Proofs.Number.Nearest

namespace ExtensionHost

/-- Integers that need at most 53 bits if zeros at the end are left out. -/
def Short (n : ℤ) : Prop := ∃ (c : ℤ) (k : ℕ), c.natAbs < 2 ^ 53 ∧ n = c * 2 ^ k

namespace Double

theorem value_of_natAbs {c e : ℤ} (h : Canonical c.natAbs e) :
    value ⟨c < 0, c.natAbs, e, h⟩ = c * 2 ^ e := by
  rw [value, ← mul_assoc]
  congr 1
  rcases lt_or_ge c 0 with hc | hc
  · simp [hc, Nat.cast_natAbs, abs_of_neg hc]
  · simp [not_lt.2 hc, Nat.cast_natAbs, abs_of_nonneg hc]

theorem exists_value_eq {c : ℤ} (hc : c.natAbs < 2 ^ 53) {k : ℕ} (hk : k ≤ 2045) :
    ∃ d : Double, d.value = c * 2 ^ ((k : ℤ) - 1074) := by
  induction k generalizing c with
  | zero => exact ⟨_, value_of_natAbs ⟨by omega, by omega, by omega, .inr (by omega)⟩⟩
  | succ k ih =>
    by_cases hfull : 2 ^ 52 ≤ c.natAbs
    · exact ⟨_, value_of_natAbs ⟨by omega, by omega, by omega, .inl (by omega)⟩⟩
    · obtain ⟨d, hd⟩ := ih (c := 2 * c) (by omega) (by omega)
      have hexp : ((k + 1 : ℕ) : ℤ) - 1074 = 1 + (k - 1074) := by push_cast; ring
      refine ⟨d, ?_⟩
      rw [hd, hexp, zpow_add₀ two_ne_zero, zpow_one]
      push_cast
      ring

theorem exists_value_of_short {n : ℤ} (h : Short n) (hn : n.natAbs ≤ 2 ^ 63) :
    ∃ d : Double, d.value = n := by
  obtain ⟨c, k, hc, rfl⟩ := h
  by_cases hzero : c = 0
  · obtain ⟨d, hd⟩ := exists_value_eq hc (k := 0) (by decide)
    exact ⟨d, by simp [hd, hzero]⟩
  · have hpow : 2 ^ k ≤ 2 ^ 63 := by
      rw [Int.natAbs_mul, Int.natAbs_pow] at hn
      exact (Nat.le_mul_of_pos_left _ (Int.natAbs_pos.2 hzero)).trans hn
    have hk : k ≤ 63 := (Nat.pow_le_pow_iff_right (by decide)).1 hpow
    obtain ⟨d, hd⟩ := exists_value_eq hc (k := k + 1074) (by omega)
    refine ⟨d, ?_⟩
    rw [hd]
    push_cast
    rw [add_sub_cancel_right, zpow_natCast]

theorem short_of_value {d : Double} {n : ℤ} (h : d.value = n) : Short n := by
  rcases le_total 0 d.exponent with he | he
  · obtain ⟨k, hk⟩ := Int.eq_ofNat_of_zero_le he
    refine ⟨(if d.negative then -1 else 1) * d.mantissa, k, ?_, ?_⟩
    · have hlt := d.canonical.1
      split <;> omega
    · rw [value, hk, zpow_natCast] at h
      rw [mul_assoc]
      exact_mod_cast h.symm
  · refine ⟨n, 0, ?_, by simp⟩
    have hlt := d.abs_value_lt
    have hone : (2 : ℚ) ^ d.exponent ≤ 1 := zpow_le_one_of_nonpos₀ one_le_two he
    have hle := hlt.trans_le (mul_le_of_le_one_right (by positivity) hone)
    rw [h] at hle
    have hcast : |n| < 2 ^ 53 := by exact_mod_cast hle
    rw [Int.abs_eq_natAbs] at hcast
    exact_mod_cast hcast

namespace Nearest

variable {d d' : Double} {x : ℚ}

theorem le_of_le (h : d.Nearest x) (hle : d'.value ≤ x) : d'.value ≤ d.value := by
  by_contra hlt
  have hclosest := h.closest d'
  rw [abs_of_neg (by linarith), abs_of_nonpos (by linarith)] at hclosest
  linarith

theorem ge_of_ge (h : d.Nearest x) (hge : x ≤ d'.value) : d.value ≤ d'.value := by
  by_contra hlt
  have hclosest := h.closest d'
  rw [abs_of_pos (by linarith), abs_of_nonneg (by linarith)] at hclosest
  linarith

theorem eq_of_eq (h : d.Nearest x) (heq : d'.value = x) : d.value = x :=
  le_antisymm (heq ▸ h.ge_of_ge heq.ge) (heq ▸ h.le_of_le heq.le)

end Nearest

section Integer

variable {d : Double} {m n : ℤ}

theorem Nearest.le_of_short (h : d.Nearest n) (hm : Short m) (hsize : m.natAbs ≤ 2 ^ 63)
    (hle : m ≤ n) : m ≤ d.value := by
  obtain ⟨d', hd'⟩ := exists_value_of_short hm hsize
  rw [← hd']
  exact h.le_of_le (hd' ▸ Int.cast_le.2 hle)

theorem Nearest.ge_of_short (h : d.Nearest n) (hm : Short m) (hsize : m.natAbs ≤ 2 ^ 63)
    (hge : n ≤ m) : d.value ≤ m := by
  obtain ⟨d', hd'⟩ := exists_value_of_short hm hsize
  rw [← hd']
  exact h.ge_of_ge (hd' ▸ Int.cast_le.2 hge)

/-- An integer is rounded to an integer: there are fractions only between small ones, and these are
not changed. -/
theorem Nearest.exists_int (h : d.Nearest n) (hn : n.natAbs ≤ 2 ^ 63) : ∃ k : ℤ, d.value = k := by
  by_cases hsmall : n.natAbs < 2 ^ 53
  · obtain ⟨d', hd'⟩ := exists_value_of_short ⟨n, 0, hsmall, by simp⟩ hn
    exact ⟨n, h.eq_of_eq hd'⟩
  · have hlarge : 2 ^ 53 ≤ |d.value| := by
      rcases le_total 0 n with hpos | hneg
      · have hle := h.le_of_short ⟨1, 53, by decide, rfl⟩ (by decide) (m := 2 ^ 53) (by omega)
        push_cast at hle
        exact hle.trans (le_abs_self _)
      · have hge := h.ge_of_short ⟨-1, 53, by decide, rfl⟩ (by decide) (m := -2 ^ 53) (by omega)
        push_cast at hge
        exact (le_neg_of_le_neg hge).trans (neg_le_abs _)
    obtain ⟨k, hk⟩ := d.exists_multiple (e := 0) (.inr (by linarith))
    exact ⟨k, by simpa using hk⟩

theorem Nearest.toSigned_eq (h : d.Nearest n) (hlow : -2 ^ 63 ≤ n) (hhigh : n < 2 ^ 63) :
    ((Binary64.finite d).toSigned : ℚ) = min d.value (2 ^ 63 - 1) := by
  obtain ⟨k, hk⟩ := h.exists_int (by omega)
  have hle := h.le_of_short ⟨-1, 63, by decide, rfl⟩ (by decide) (m := -2 ^ 63) hlow
  rw [hk] at hle ⊢
  have hk63 : -2 ^ 63 ≤ k := by exact_mod_cast hle
  have hsigned : (Binary64.finite d).toSigned = min k (2 ^ 63 - 1) := by
    rw [Binary64.toSigned, ((d.value_eq_intCast_iff k).1 hk).2]
    omega
  rw [hsigned]
  push_cast
  norm_num

theorem Nearest.largest_le (h : d.Nearest ((2 ^ 63 - 1 : ℤ) : ℚ)) : 2 ^ 63 - 1 ≤ d.value := by
  obtain ⟨d', hd'⟩ := exists_value_of_short (n := 2 ^ 63) ⟨1, 63, by decide, rfl⟩ (by decide)
  have hnear : (2 : ℚ) ^ 63 - 2 ≤ d.value := by
    have hclosest := (abs_le.1 (h.closest d')).1
    rw [hd', abs_of_nonneg (by norm_num)] at hclosest
    norm_num at hclosest ⊢
    linarith
  obtain ⟨k, hk⟩ := d.exists_multiple (e := (10 : ℕ))
    (.inr (le_trans (by norm_num at hnear ⊢; linarith) (le_abs_self _)))
  rw [hk, zpow_natCast] at hnear ⊢
  have hmultiple : (2 : ℤ) ^ 63 - 2 ≤ k * 2 ^ 10 := by exact_mod_cast hnear
  have hle : (2 : ℤ) ^ 63 - 1 ≤ k * 2 ^ 10 := by omega
  exact_mod_cast hle

theorem Nearest.toSigned_eq_iff (h : d.Nearest n) (hlow : -2 ^ 63 ≤ n) (hhigh : n < 2 ^ 63) :
    (Binary64.finite d).toSigned = n ↔ n = 2 ^ 63 - 1 ∨ Short n := by
  have hsigned := h.toSigned_eq hlow hhigh
  constructor
  · intro hn
    rw [hn] at hsigned
    rcases min_choice d.value (2 ^ 63 - 1) with hmin | hmin
    · exact .inr (short_of_value (hsigned.trans hmin).symm)
    · left
      exact_mod_cast hsigned.trans hmin
  · intro hn
    have hvalue : min d.value (2 ^ 63 - 1) = n := by
      rcases hn with rfl | hshort
      · rw [min_eq_right h.largest_le]
        norm_num
      · obtain ⟨d', hd'⟩ := exists_value_of_short hshort (by omega)
        rw [h.eq_of_eq hd', min_eq_left]
        exact_mod_cast Int.le_sub_one_of_lt hhigh
    exact_mod_cast hsigned.trans hvalue

end Integer

end Double

namespace Binary64

theorem exists_nearest_ofInt {n : ℤ} (hn : n.natAbs < 2 ^ 64) :
    ∃ d, ofInt n = .finite d ∧ d.Nearest n := by
  rcases n.natAbs.eq_zero_or_pos with hzero | hpos
  · obtain rfl : n = 0 := Int.natAbs_eq_zero.1 hzero
    have hvalue : (Double.zero false).value = ((0 : ℤ) : ℚ) := by simp [Double.value, Double.zero]
    refine ⟨Double.zero false, rfl, fun d' => ?_, fun _ _ _ => rfl⟩
    rw [hvalue, sub_self, abs_zero]
    exact abs_nonneg _
  · have hlog : ratioLog2 n.natAbs 1 < 1023 := by
      have hle := (ratioLog2_spec hpos one_pos).1
      rw [Nat.cast_one, div_one] at hle
      have hlt : (n.natAbs : ℚ) < 2 ^ (64 : ℤ) := by exact_mod_cast hn
      have hlog := (zpow_lt_zpow_iff_right₀ one_lt_two).1 (hle.trans_lt hlt)
      omega
    obtain ⟨d, hd⟩ := exists_ofRatio (decide (n < 0)) hpos one_pos hlog
    have hvalue : ((if decide (n < 0) then -1 else 1) * ((n.natAbs : ℚ) / (1 : ℕ))) = n := by
      rw [Nat.cast_one, div_one, Nat.cast_natAbs]
      rcases lt_or_ge n 0 with hneg | hnonneg
      · simp [hneg, abs_of_neg hneg]
      · simp [not_lt.2 hnonneg, abs_of_nonneg hnonneg]
    exact ⟨d, hd, hvalue ▸ nearest_ofRatio hpos one_pos hd⟩

end Binary64

end ExtensionHost
