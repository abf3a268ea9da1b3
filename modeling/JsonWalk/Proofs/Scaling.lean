import JsonWalk.Proofs.Rounding

/-!
# Multiplying by powers of ten

A power of ten in range costs two roundings, its own and that of the product or quotient; a smaller
one is divided by in two steps. Up to the exponent twenty-two the powers are exact.
-/

namespace JsonWalk.Binary64

section

variable {x y : Binary64} {n k : Nat} {e : Int}

theorem smallest_le_one : smallest ≤ 1 := zpow_le_one_of_nonpos₀ one_le_two (by decide)

theorem cast_pow_le_cast_pow {a b i j : Nat} (h : a ^ i ≤ b ^ j) : (a : ℚ) ^ i ≤ b ^ j := by
  exact_mod_cast h

theorem ten_zpow_le_smallest : (10 : ℚ) ^ (-maxPower : Int) ≤ smallest := by
  have hle := cast_pow_le_cast_pow (by decide +kernel : 2 ^ 1022 ≤ 10 ^ 308)
  rw [Nat.cast_ofNat, Nat.cast_ofNat] at hle
  have hexponent : minExponent + 52 = -(1022 : Nat) := rfl
  rw [smallest, hexponent, zpow_neg, zpow_neg, zpow_natCast, zpow_natCast]
  exact inv_anti₀ (pow_pos two_pos _) hle

theorem greatest_lt_ten_zpow : greatest < 10 ^ (maxPower + 1 : Int) := by
  have hle := cast_pow_le_cast_pow (by decide +kernel : 2 ^ 1024 ≤ 10 ^ 309)
  rw [Nat.cast_ofNat, Nat.cast_ofNat] at hle
  refine greatest_lt.trans_le ?_
  have hexponent : maxExponent + 53 = (1024 : Nat) := rfl
  have hpower : (maxPower + 1 : Int) = (309 : Nat) := rfl
  rw [hexponent, hpower, zpow_natCast, zpow_natCast]
  exact hle

theorem within_nearest_one (n : Nat) : Within 1 (nearest false n 1).magnitude n := by
  rcases n.eq_zero_or_pos with rfl | hn
  · rw [Nat.cast_zero, magnitude_nearest_zero]
    exact .refl 1 le_rfl
  · have hone : (n : ℚ) / (1 : Nat) = n := by rw [Nat.cast_one, div_one]
    rw [← hone]
    refine within_nearest (smallest_le_one.trans ?_)
    rw [hone]
    exact_mod_cast hn

theorem within_powerOfTen (k : Nat) : Within 1 (powerOfTen k).magnitude (10 ^ k) := by
  have hcast : ((Nat.pow 10 k : Nat) : ℚ) = 10 ^ k := Nat.cast_pow 10 k
  rw [← hcast]
  exact within_nearest_one _

theorem powerOfTen_pos (k : Nat) : 0 < (powerOfTen k).magnitude :=
  (within_powerOfTen k).symm.pos (pow_pos (by norm_num) k)

/-! ### Powers of ten -/

theorem within_mul_powerOfTen (h : x.mul (powerOfTen k) = some y)
    (hnormal : smallest ≤ x.magnitude * 10 ^ k * cut) :
    Within 2 y.magnitude (x.magnitude * 10 ^ k) := by
  have hpower : Within 1 (x.magnitude * (powerOfTen k).magnitude) (x.magnitude * 10 ^ k) := by
    simpa using (Within.refl 0 x.magnitude_nonneg).mul (within_powerOfTen k) x.magnitude_nonneg
      (powerOfTen_pos k).le
  exact (within_mul h (hnormal.trans hpower.symm.mul_cut_le)).trans hpower

theorem within_div_powerOfTen (hnormal : smallest ≤ x.magnitude / 10 ^ k * cut) :
    Within 2 (x.div (powerOfTen k)).magnitude (x.magnitude / 10 ^ k) := by
  have hpower : Within 1 (x.magnitude / (powerOfTen k).magnitude) (x.magnitude / 10 ^ k) := by
    simpa using (Within.refl 0 x.magnitude_nonneg).div (within_powerOfTen k) x.magnitude_nonneg
      (powerOfTen_pos k)
  exact (within_div (hnormal.trans hpower.symm.mul_cut_le)).trans hpower

theorem timesTenTo_of_nonneg (he : 0 ≤ e) (hmax : e ≤ maxPower) :
    x.timesTenTo e = x.mul (powerOfTen e.natAbs) := by
  rw [timesTenTo, if_pos (by omega), if_pos he]

theorem timesTenTo_of_neg (he : e < 0) (hmax : -maxPower ≤ e) :
    x.timesTenTo e = some (x.div (powerOfTen e.natAbs)) := by
  rw [timesTenTo, if_pos (by omega), if_neg (by omega)]

theorem timesTenTo_of_gt (hmax : maxPower < e) (hx : x.mantissa ≠ 0) : x.timesTenTo e = none := by
  rw [timesTenTo, if_neg (by omega), if_neg hx, if_pos (by omega)]

theorem timesTenTo_of_lt (hmax : e < -maxPower) (hx : x.mantissa ≠ 0) :
    x.timesTenTo e = (x.div (powerOfTen maxPower)).timesTenTo (e + maxPower) := by
  rw [timesTenTo, if_neg (by omega), if_neg hx, if_neg (by omega)]

theorem timesTenTo_of_zero (hx : x.mantissa = 0) (hmax : maxPower < e.natAbs) :
    x.timesTenTo e = some x := by
  rw [timesTenTo, if_neg (by omega), if_pos hx]

theorem ten_zpow_of_nonneg (he : 0 ≤ e) : (10 : ℚ) ^ e = 10 ^ e.natAbs := by
  rw [← zpow_natCast, Int.natCast_natAbs, abs_of_nonneg he]

theorem div_ten_pow (x : ℚ) (he : e ≤ 0) : x / 10 ^ e.natAbs = x * 10 ^ e := by
  rw [div_eq_mul_inv, ← zpow_natCast, ← zpow_neg, Int.natCast_natAbs, abs_of_nonpos he, neg_neg]

/-- One step is two roundings. -/
theorem within_timesTenTo (h : x.timesTenTo e = some y) (hmax : e.natAbs ≤ maxPower)
    (hnormal : smallest ≤ x.magnitude * 10 ^ e * cut) :
    Within 2 y.magnitude (x.magnitude * 10 ^ e) := by
  by_cases he : 0 ≤ e
  · rw [timesTenTo_of_nonneg he (by omega)] at h
    rw [ten_zpow_of_nonneg he] at hnormal ⊢
    exact within_mul_powerOfTen h hnormal
  · rw [timesTenTo_of_neg (by omega) (by omega)] at h
    cases h
    rw [← div_ten_pow _ (by omega)] at hnormal ⊢
    exact within_div_powerOfTen hnormal

/-- Two steps are four roundings. -/
theorem within_timesTenTo_of_lt (h : x.timesTenTo e = some y) (hmax : e < -maxPower)
    (hmin : -(2 * maxPower : Int) ≤ e) (hnormal : smallest ≤ x.magnitude * 10 ^ e * cut ^ 3) :
    Within 4 y.magnitude (x.magnitude * 10 ^ e) := by
  have hten : (0 : ℚ) ≤ 10 ^ (e + maxPower) := zpow_nonneg (by norm_num) _
  have hsplit : x.magnitude * 10 ^ e = x.magnitude / 10 ^ maxPower * 10 ^ (e + maxPower) := by
    rw [zpow_add₀ (by norm_num), zpow_natCast]
    field_simp
  have hquotient : 0 ≤ x.magnitude / 10 ^ maxPower :=
    div_nonneg x.magnitude_nonneg (pow_nonneg (by norm_num) _)
  -- the first quotient is of full precision if the second is, which is no greater
  have hle : x.magnitude * 10 ^ e ≤ x.magnitude / 10 ^ maxPower := by
    rw [hsplit]
    exact mul_le_of_le_one_right hquotient (zpow_le_one_of_nonpos₀ (by norm_num) (by omega))
  have hcut : cut ^ 3 ≤ cut := pow_le_of_le_one cut_pos.le cut_le_one (by decide)
  have hbig : smallest ≤ x.magnitude / 10 ^ maxPower * cut :=
    hnormal.trans (mul_le_mul hle hcut (pow_nonneg cut_pos.le 3) hquotient)
  have hx : 0 < x.magnitude := by
    refine x.magnitude_nonneg.lt_of_ne fun hzero => ?_
    rw [← hzero, zero_div, zero_mul] at hbig
    exact absurd hbig (not_le.2 smallest_pos)
  rw [timesTenTo_of_lt hmax (mantissa_ne_zero hx)] at h
  have hfirst := within_div_powerOfTen hbig
  have hboth : Within 2 ((x.div (powerOfTen maxPower)).magnitude * 10 ^ (e + maxPower))
      (x.magnitude * 10 ^ e) := by
    rw [hsplit]
    exact hfirst.mul (.refl 0 hten) (magnitude_nonneg _) hten
  refine (within_timesTenTo h (by omega) (hnormal.trans ?_)).trans hboth
  calc x.magnitude * 10 ^ e * cut ^ 3 = x.magnitude * 10 ^ e * cut ^ 2 * cut := by ring
    _ ≤ _ := mul_le_mul_of_nonneg_right hboth.ge cut_pos.le

theorem exists_timesTenTo_of_neg (he : e < 0) : ∃ y, x.timesTenTo e = some y := by
  fun_induction timesTenTo x e with
  | case1 | case4 => omega
  | case2 | case3 => exact ⟨_, rfl⟩
  | case5 x e hmax _ _ ih => exact ih (by simp only [maxPower] at *; omega)

/-! ### Exact numbers -/

theorem mul_ten_pow_le_greatest (hn : n < mantissaBound) (hk : k ≤ 22) :
    (n : ℚ) * 10 ^ k ≤ greatest := by
  have hdigits : (n : ℚ) ≤ 2 ^ 53 - 1 := by
    rw [le_sub_iff_add_le]
    exact_mod_cast hn
  have hpower : (10 : ℚ) ^ k ≤ 2 ^ maxExponent := by
    calc (10 : ℚ) ^ k ≤ 10 ^ 22 := pow_le_pow_right₀ (by norm_num) hk
      _ ≤ 2 ^ (74 : Int) := by norm_num
      _ ≤ 2 ^ maxExponent := zpow_le_zpow_right₀ one_le_two (by decide)
  exact mul_le_mul hdigits hpower (by positivity) (by norm_num)

theorem magnitude_powerOfTen (hk : k ≤ 22) : (powerOfTen k).magnitude = 10 ^ k := by
  have hexact : ∀ i ≤ 22, (powerOfTen i).num = 10 ^ i * (powerOfTen i).den := by decide +kernel
  rw [← num_div_den, hexact k hk, Nat.cast_mul, Nat.cast_pow, Nat.cast_ofNat]
  exact mul_div_cancel_right₀ _ (Nat.cast_ne_zero.2 (den_pos _).ne')

end

end JsonWalk.Binary64
