import JsonWalk.Number.Binary64
import Mathlib.Algebra.Order.Field.Power
import Mathlib.Data.Int.Log
import Mathlib.Data.Rat.Floor
import Mathlib.Tactic.FieldSimp
import Mathlib.Tactic.GCongr
import Mathlib.Tactic.Linarith
import Mathlib.Tactic.NormNum
import Mathlib.Tactic.Positivity
import Mathlib.Tactic.Ring

/-!
# Rounding to sixty-four bits

The number that is nearest to a quotient depends on the quotient alone. It is off by no more than
half a unit of its last place, and there is one in range for quotients that stay a unit below
`2 ^ 1024`, but for none from there on.
-/

namespace JsonWalk.Binary64

/-- What a number is without its sign. -/
def magnitude (x : Binary64) : ℚ := x.mantissa * 2 ^ x.exponent

section

variable {num den num' den' : Nat} {e : Int} {negative : Bool} {x y : Binary64}

theorem twoTo_pos (e : Int) : 0 < twoTo e := Nat.pow_pos (by decide)

theorem twoTo_div_twoTo (e : Int) : (twoTo e : ℚ) / twoTo (-e) = 2 ^ e := by
  obtain ⟨n, rfl | rfl⟩ := e.eq_nat_or_neg <;> simp [twoTo]

theorem den_pos (x : Binary64) : 0 < x.den := twoTo_pos _

theorem num_div_den (x : Binary64) : (x.num : ℚ) / x.den = x.magnitude := by
  rw [num, den, magnitude, Nat.cast_mul, mul_div_assoc, twoTo_div_twoTo]

theorem scale_den_pos (num : Nat) (e : Int) (hden : 0 < den) : 0 < (scale num den e).2 :=
  Nat.mul_pos hden (twoTo_pos e)

theorem scale_div (num den : Nat) (e : Int) :
    ((scale num den e).1 : ℚ) / (scale num den e).2 = num / den / 2 ^ e := by
  have htwo := twoTo_div_twoTo (-e)
  rw [neg_neg, zpow_neg] at htwo
  rw [scale, Nat.cast_mul, Nat.cast_mul, mul_div_mul_comm, htwo, div_eq_mul_inv _ (2 ^ e : ℚ)]

/-! ### Quotients of whole numbers -/

theorem roundDiv_mul_near (num : Nat) (hden : 0 < den) :
    2 * (roundDiv num den * den) ≤ 2 * num + den ∧
      2 * num ≤ 2 * (roundDiv num den * den) + den := by
  have hsplit : num / den * den + num % den = num := Nat.div_add_mod' num den
  have hlt := Nat.mod_lt num hden
  simp only [roundDiv]
  split
  · next h => rcases h with h | ⟨h, -⟩ <;> omega
  · next h =>
    have hsucc : (num / den + 1) * den = num / den * den + den := Nat.add_one_mul _ _
    omega

theorem roundDiv_one (n : Nat) : roundDiv n 1 = n := by simp [roundDiv, Nat.mod_one]

theorem abs_roundDiv_sub_le (num : Nat) (hden : 0 < den) :
    |(roundDiv num den : ℚ) - num / den| ≤ 1 / 2 := by
  have hpos : (0 : ℚ) < den := Nat.cast_pos.2 hden
  obtain ⟨hle, hge⟩ := roundDiv_mul_near num hden
  have hle' : 2 * ((roundDiv num den : ℚ) * den) ≤ 2 * num + den := by exact_mod_cast hle
  have hge' : 2 * (num : ℚ) ≤ 2 * (roundDiv num den * den) + den := by exact_mod_cast hge
  have hquotient : (num : ℚ) / den * den = num := div_mul_cancel₀ _ hpos.ne'
  rw [abs_le]
  constructor <;> refine le_of_mul_le_mul_right ?_ hpos <;> linarith

theorem roundDiv_mul_left {k : Nat} (hk : 0 < k) :
    roundDiv (k * num) (k * den) = roundDiv num den := by
  simp only [roundDiv, Nat.mul_div_mul_left _ _ hk, Nat.mul_mod_mul_left, ← Nat.mul_assoc,
    Nat.mul_comm 2 k]
  simp only [Nat.mul_assoc, Nat.mul_lt_mul_left hk, Nat.mul_right_inj hk.ne']

/-- Rounding depends on the quotient alone. -/
theorem roundDiv_congr (hden : 0 < den) (hden' : 0 < den') (h : (num : ℚ) / den = num' / den') :
    roundDiv num den = roundDiv num' den' := by
  have hpos : (den : ℚ) ≠ 0 := Nat.cast_ne_zero.2 hden.ne'
  have hpos' : (den' : ℚ) ≠ 0 := Nat.cast_ne_zero.2 hden'.ne'
  have hcross : den' * num = den * num' := by
    rw [div_eq_div_iff hpos hpos'] at h
    have hnat : num * den' = num' * den := by exact_mod_cast h
    rw [Nat.mul_comm, hnat, Nat.mul_comm]
  rw [← roundDiv_mul_left hden', hcross, Nat.mul_comm den' den, roundDiv_mul_left hden]

/-! ### The exponent -/

theorem le_log_iff {q : ℚ} {t : Int} (hq : 0 < q) : t ≤ Int.log 2 q ↔ 2 ^ t ≤ q := by
  rw [← Int.zpow_le_iff_le_log (by decide) hq, Nat.cast_ofNat]

theorem log_lt_iff {q : ℚ} {t : Int} (hq : 0 < q) : Int.log 2 q < t ↔ q < 2 ^ t := by
  rw [← Int.lt_zpow_iff_log_lt (by decide) hq, Nat.cast_ofNat]

theorem log_eq {q : ℚ} {t : Int} (hlow : 2 ^ t ≤ q) (hhigh : q < 2 ^ (t + 1)) :
    Int.log 2 q = t := by
  have hq : 0 < q := (zpow_pos two_pos t).trans_le hlow
  have hle : t ≤ Int.log 2 q := (le_log_iff hq).2 hlow
  have hlt : Int.log 2 q < t + 1 := (log_lt_iff hq).2 hhigh
  omega

theorem two_zpow_log2_le {n : Nat} (hn : n ≠ 0) :
    (2 : ℚ) ^ (n.log2 : Int) ≤ n ∧ (n : ℚ) < 2 ^ (n.log2 + 1 : Int) := by
  have hle := Nat.log2_self_le hn
  have hlt : n < 2 ^ (n.log2 + 1) := Nat.lt_log2_self
  constructor
  · rw [zpow_natCast]
    exact_mod_cast hle
  · exact_mod_cast hlt

theorem scale_lt_iff (hden : 0 < den) :
    (scale num den e).1 < (scale num den e).2 * mantissaBound ↔
      (num : ℚ) / den < 2 ^ (e + 53) := by
  have hpos : (0 : ℚ) < (scale num den e).2 := Nat.cast_pos.2 (scale_den_pos num e hden)
  have hbound : (mantissaBound : ℚ) = 2 ^ (53 : Int) := by norm_num [mantissaBound]
  calc (scale num den e).1 < (scale num den e).2 * mantissaBound
      ↔ ((scale num den e).1 : ℚ) < mantissaBound * (scale num den e).2 := by
        rw [mul_comm]
        exact_mod_cast Iff.rfl
    _ ↔ (num : ℚ) / den / 2 ^ e < mantissaBound := by rw [← div_lt_iff₀ hpos, scale_div]
    _ ↔ (num : ℚ) / den < 2 ^ (e + 53) := by
      rw [div_lt_iff₀ (zpow_pos two_pos e), hbound, ← zpow_add₀ two_ne_zero, add_comm]

theorem exponentFor_eq_log (hnum : 0 < num) (hden : 0 < den) :
    exponentFor num den = max minExponent (Int.log 2 ((num : ℚ) / den) - 52) := by
  have hpos : (0 : ℚ) < den := Nat.cast_pos.2 hden
  obtain ⟨hn, hn'⟩ := two_zpow_log2_le hnum.ne'
  obtain ⟨hd, hd'⟩ := two_zpow_log2_le hden.ne'
  have hlow : (2 : ℚ) ^ ((num.log2 : Int) - den.log2 - 1) ≤ num / den := by
    rw [le_div_iff₀ hpos]
    calc (2 : ℚ) ^ ((num.log2 : Int) - den.log2 - 1) * den
        ≤ 2 ^ ((num.log2 : Int) - den.log2 - 1) * 2 ^ (den.log2 + 1 : Int) := by gcongr
      _ = 2 ^ (num.log2 : Int) := by
        rw [← zpow_add₀ two_ne_zero]
        congr 1
        ring
      _ ≤ num := hn
  have hhigh : (num : ℚ) / den < 2 ^ ((num.log2 : Int) - den.log2 + 1) := by
    rw [div_lt_iff₀ hpos]
    calc (num : ℚ) < 2 ^ (num.log2 + 1 : Int) := hn'
      _ = 2 ^ ((num.log2 : Int) - den.log2 + 1) * 2 ^ (den.log2 : Int) := by
        rw [← zpow_add₀ two_ne_zero]
        congr 1
        ring
      _ ≤ 2 ^ ((num.log2 : Int) - den.log2 + 1) * den := by gcongr
  unfold exponentFor
  dsimp only
  split
  · next h =>
    rw [scale_lt_iff hden, sub_add_cancel] at h
    have hlog : Int.log 2 ((num : ℚ) / den) = (num.log2 : Int) - den.log2 - 1 :=
      log_eq hlow (by rwa [sub_add_cancel])
    rw [hlog]
    congr 1
    omega
  · next h =>
    rw [scale_lt_iff hden, sub_add_cancel, not_lt] at h
    rw [log_eq h hhigh]
    congr 1
    omega

/-- A quotient has fifty-three bits before the point, or fewer at the least exponent. -/
theorem lt_two_zpow_exponentFor (hnum : 0 < num) (hden : 0 < den) :
    (num : ℚ) / den < 2 ^ (exponentFor num den + 53) := by
  have hq : (0 : ℚ) < num / den := div_pos (Nat.cast_pos.2 hnum) (Nat.cast_pos.2 hden)
  have hlt : (num : ℚ) / den < 2 ^ (Int.log 2 ((num : ℚ) / den) + 1) :=
    (log_lt_iff hq).1 (Int.lt_succ _)
  refine hlt.trans_le (zpow_le_zpow_right₀ one_le_two ?_)
  rw [exponentFor_eq_log hnum hden]
  omega

theorem two_zpow_exponentFor_le (hnum : 0 < num) (hden : 0 < den)
    (h : 2 ^ (minExponent + 52) ≤ (num : ℚ) / den) :
    2 ^ (exponentFor num den + 52) ≤ (num : ℚ) / den := by
  have hq : (0 : ℚ) < num / den := div_pos (Nat.cast_pos.2 hnum) (Nat.cast_pos.2 hden)
  have hlog : minExponent + 52 ≤ Int.log 2 ((num : ℚ) / den) := (le_log_iff hq).2 h
  rw [exponentFor_eq_log hnum hden, max_eq_right (by omega), sub_add_cancel]
  exact (le_log_iff hq).1 le_rfl

/-! ### The nearest number -/

/-- The quotient in units of the last place, rounded. -/
def units (num den : Nat) : Nat :=
  roundDiv (scale num den (exponentFor num den)).1 (scale num den (exponentFor num den)).2

theorem nearest_of_ne_zero (hnum : num ≠ 0) :
    nearest negative num den =
      if units num den = mantissaBound then ⟨negative, fullMantissa, exponentFor num den + 1⟩
      else ⟨negative, units num den, exponentFor num den⟩ := by
  unfold nearest
  exact if_neg hnum

theorem magnitude_nearest_zero : (nearest negative 0 den).magnitude = 0 := by
  unfold nearest
  rw [if_pos rfl, magnitude, zero, Nat.cast_zero, zero_mul]

/-- A carry changes how the number is written, but not the number. -/
theorem magnitude_nearest (hnum : num ≠ 0) :
    (nearest negative num den).magnitude = units num den * 2 ^ exponentFor num den := by
  rw [nearest_of_ne_zero hnum]
  split
  · next h =>
    have hbound : (mantissaBound : ℚ) = fullMantissa * 2 := by
      norm_num [mantissaBound, fullMantissa]
    rw [magnitude, h, zpow_add_one₀ two_ne_zero, hbound]
    ring
  · rfl

theorem negative_nearest (negative : Bool) (num den : Nat) :
    (nearest negative num den).negative = negative := by
  by_cases hnum : num = 0
  · rw [nearest, if_pos hnum, zero]
  · rw [nearest_of_ne_zero hnum, apply_ite Binary64.negative, ite_self]

theorem nearest_with_negative (negative : Bool) (num den : Nat) :
    { nearest false num den with negative := negative } = nearest negative num den := by
  by_cases hnum : num = 0
  · rw [nearest, nearest, if_pos hnum, if_pos hnum]
    rfl
  · rw [nearest_of_ne_zero hnum, nearest_of_ne_zero hnum]
    by_cases hcarry : units num den = mantissaBound
    · rw [if_pos hcarry, if_pos hcarry]
    · rw [if_neg hcarry, if_neg hcarry]

theorem exponent_nearest (hnum : num ≠ 0) :
    (nearest negative num den).exponent =
      if units num den = mantissaBound then exponentFor num den + 1 else exponentFor num den := by
  rw [nearest_of_ne_zero hnum, apply_ite Binary64.exponent]

/-- Whole numbers of fifty-three bits are kept. -/
theorem magnitude_nearest_of_lt {n : Nat} (hn : n < mantissaBound) :
    (nearest false n 1).magnitude = n := by
  rcases n.eq_zero_or_pos with rfl | hpos
  · exact magnitude_nearest_zero
  have hcast : (n : ℚ) < 2 ^ (53 : Int) := by exact_mod_cast hn
  have hlog : Int.log 2 (n : ℚ) < 53 := (log_lt_iff (Nat.cast_pos.2 hpos)).2 hcast
  have hexponent : exponentFor n 1 ≤ 0 := by
    rw [exponentFor_eq_log hpos Nat.one_pos, Nat.cast_one, div_one]
    exact max_le (by decide) (by omega)
  have htwo := twoTo_div_twoTo (exponentFor n 1)
  have hone : twoTo (exponentFor n 1) = 1 := by
    rw [twoTo, Int.toNat_of_nonpos hexponent, Nat.pow_eq, Nat.pow_zero]
  have hne : (twoTo (-exponentFor n 1) : ℚ) ≠ 0 := Nat.cast_ne_zero.2 (twoTo_pos _).ne'
  rw [magnitude_nearest hpos.ne', units, scale, hone, roundDiv_one, ← htwo, hone, Nat.cast_mul,
    Nat.cast_one, one_div, mul_inv_cancel_right₀ hne]

theorem abs_units_sub_le (num : Nat) (hden : 0 < den) :
    |(units num den : ℚ) - num / den / 2 ^ exponentFor num den| ≤ 1 / 2 := by
  rw [← scale_div]
  exact abs_roundDiv_sub_le _ (scale_den_pos num _ hden)

theorem units_le (hnum : 0 < num) (hden : 0 < den) : units num den ≤ mantissaBound := by
  have hlt : (num : ℚ) / den / 2 ^ exponentFor num den < 2 ^ (53 : Int) := by
    rw [div_lt_iff₀ (zpow_pos two_pos _), ← zpow_add₀ two_ne_zero, add_comm]
    exact lt_two_zpow_exponentFor hnum hden
  have hround := (abs_le.1 (abs_units_sub_le num hden)).2
  have hsucc : (units num den : ℚ) < 2 ^ (53 : Int) + 1 := by linarith
  exact Nat.lt_succ_iff.1 (by exact_mod_cast hsucc)

theorem mantissa_nearest_lt (hden : 0 < den) :
    (nearest negative num den).mantissa < mantissaBound := by
  rcases num.eq_zero_or_pos with rfl | hnum
  · rw [nearest, if_pos rfl]
    exact (by decide : 0 < mantissaBound)
  rw [nearest_of_ne_zero hnum.ne']
  split
  · exact (by decide : fullMantissa < mantissaBound)
  · next hcarry => exact (units_le hnum hden).lt_of_ne hcarry

theorem abs_magnitude_nearest_sub_le (hnum : 0 < num) (hden : 0 < den) :
    |(nearest negative num den).magnitude - num / den| ≤ 2 ^ exponentFor num den / 2 := by
  have hunit : (0 : ℚ) < 2 ^ exponentFor num den := zpow_pos two_pos _
  have hround := abs_units_sub_le num hden
  rw [magnitude_nearest hnum.ne']
  generalize (units num den : ℚ) = m at hround ⊢
  generalize (2 : ℚ) ^ exponentFor num den = unit at hunit hround ⊢
  have hsplit : m * unit - num / den = (m - num / den / unit) * unit := by
    rw [sub_mul, div_mul_cancel₀ _ hunit.ne']
  rw [hsplit, abs_mul, abs_of_pos hunit]
  linarith [mul_le_mul_of_nonneg_right hround hunit.le]

/-- Unless the quotient is very small, it is off by a part in `2 ^ 53` at most. -/
theorem abs_magnitude_nearest_sub_le_mul (hnum : 0 < num) (hden : 0 < den)
    (h : 2 ^ (minExponent + 52) ≤ (num : ℚ) / den) :
    |(nearest negative num den).magnitude - num / den| ≤ num / den * 2 ^ (-53 : Int) := by
  have hhalf : (2 : ℚ) ^ exponentFor num den / 2 =
      2 ^ (exponentFor num den + 52) * 2 ^ (-53 : Int) := by
    rw [← zpow_add₀ two_ne_zero, div_eq_mul_inv, ← zpow_neg_one, ← zpow_add₀ two_ne_zero]
    congr 1
    ring
  calc |(nearest negative num den).magnitude - num / den|
      ≤ 2 ^ exponentFor num den / 2 := abs_magnitude_nearest_sub_le hnum hden
    _ = 2 ^ (exponentFor num den + 52) * 2 ^ (-53 : Int) := hhalf
    _ ≤ num / den * 2 ^ (-53 : Int) := by
      gcongr
      exact two_zpow_exponentFor_le hnum hden h

/-- The nearest number depends on the quotient alone. -/
theorem nearest_congr (hden : 0 < den) (hden' : 0 < den') (h : (num : ℚ) / den = num' / den') :
    nearest negative num den = nearest negative num' den' := by
  have hpos : (den : ℚ) ≠ 0 := Nat.cast_ne_zero.2 hden.ne'
  have hpos' : (den' : ℚ) ≠ 0 := Nat.cast_ne_zero.2 hden'.ne'
  have hzero : num = 0 ↔ num' = 0 := by
    rw [← Nat.cast_eq_zero (R := ℚ), ← div_eq_zero_iff.trans (or_iff_left hpos), h,
      div_eq_zero_iff.trans (or_iff_left hpos'), Nat.cast_eq_zero]
  by_cases hnum : num = 0
  · rw [hnum, hzero.1 hnum]
    unfold nearest
    rw [if_pos rfl, if_pos rfl]
  have hnum' : num' ≠ 0 := mt hzero.2 hnum
  have hexponent : exponentFor num den = exponentFor num' den' := by
    rw [exponentFor_eq_log (Nat.pos_of_ne_zero hnum) hden,
      exponentFor_eq_log (Nat.pos_of_ne_zero hnum') hden', h]
  have hunits : units num den = units num' den' :=
    roundDiv_congr (scale_den_pos num _ hden) (scale_den_pos num' _ hden')
      (by rw [scale_div, scale_div, hexponent, h])
  rw [nearest_of_ne_zero hnum, nearest_of_ne_zero hnum', hexponent, hunits]

/-! ### The range -/

theorem maxExponent_lt_exponentFor (hnum : 0 < num) (hden : 0 < den)
    (h : 2 ^ (maxExponent + 53) ≤ (num : ℚ) / den) : maxExponent < exponentFor num den := by
  have hq : (0 : ℚ) < num / den := div_pos (Nat.cast_pos.2 hnum) (Nat.cast_pos.2 hden)
  have hlog : maxExponent + 53 ≤ Int.log 2 ((num : ℚ) / den) := (le_log_iff hq).2 h
  rw [exponentFor_eq_log hnum hden]
  generalize Int.log 2 ((num : ℚ) / den) = t at hlog ⊢
  omega

theorem exponentFor_le (hnum : 0 < num) (hden : 0 < den)
    (h : (num : ℚ) / den < 2 ^ (maxExponent + 53)) : exponentFor num den ≤ maxExponent := by
  have hq : (0 : ℚ) < num / den := div_pos (Nat.cast_pos.2 hnum) (Nat.cast_pos.2 hden)
  have hlog : Int.log 2 ((num : ℚ) / den) < maxExponent + 53 := (log_lt_iff hq).2 h
  rw [exponentFor_eq_log hnum hden]
  generalize Int.log 2 ((num : ℚ) / den) = t at hlog ⊢
  exact max_le (by decide) (by omega)

theorem exponentFor_le_exponent_nearest (hnum : num ≠ 0) :
    exponentFor num den ≤ (nearest negative num den).exponent := by
  rw [exponent_nearest hnum]
  split
  · exact Int.le_add_one le_rfl
  · exact le_rfl

theorem ofQuotient_of_lt (h : maxExponent < (nearest negative num den).exponent) :
    ofQuotient negative num den = none := by
  unfold ofQuotient
  exact if_pos h

theorem ofQuotient_of_le (h : (nearest negative num den).exponent ≤ maxExponent) :
    ofQuotient negative num den = some (nearest negative num den) := by
  unfold ofQuotient
  exact if_neg (not_lt.2 h)

theorem ofQuotient_eq_none (hden : 0 < den) (h : 2 ^ (maxExponent + 53) ≤ (num : ℚ) / den) :
    ofQuotient negative num den = none := by
  have hnum : 0 < num := by
    refine Nat.pos_of_ne_zero ?_
    rintro rfl
    rw [Nat.cast_zero, zero_div] at h
    exact absurd h (not_le.2 (zpow_pos two_pos _))
  exact ofQuotient_of_lt
    ((maxExponent_lt_exponentFor hnum hden h).trans_le (exponentFor_le_exponent_nearest hnum.ne'))

/-- The greatest number. -/
def greatest : ℚ := (2 ^ 53 - 1) * 2 ^ maxExponent

theorem greatest_nonneg : 0 ≤ greatest := mul_nonneg (by norm_num) (zpow_nonneg zero_le_two _)

theorem greatest_lt : greatest < 2 ^ (maxExponent + 53) := by
  rw [greatest, zpow_add₀ two_ne_zero, mul_comm]
  refine mul_lt_mul_of_pos_left ?_ (zpow_pos two_pos _)
  norm_num

/-- A carry at the greatest exponent would go to the first number out of range. -/
theorem units_ne_mantissaBound (hden : 0 < den) (hexponent : maxExponent ≤ exponentFor num den)
    (h : (num : ℚ) / den ≤ greatest) : units num den ≠ mantissaBound := by
  intro hcarry
  have hunit : (2 : ℚ) ^ maxExponent ≤ 2 ^ exponentFor num den :=
    zpow_le_zpow_right₀ one_le_two hexponent
  have hle : (num : ℚ) / den / 2 ^ exponentFor num den ≤ 2 ^ 53 - 1 := by
    rw [div_le_iff₀ (zpow_pos two_pos _)]
    refine h.trans ?_
    rw [greatest]
    gcongr
  have hround := abs_units_sub_le num hden
  rw [hcarry, mantissaBound, abs_le] at hround
  norm_num at hround hle
  linarith [hround.2]

theorem exists_ofQuotient (hden : 0 < den) (h : (num : ℚ) / den ≤ greatest) :
    ∃ x, ofQuotient negative num den = some x := by
  refine ⟨_, ofQuotient_of_le ?_⟩
  rcases num.eq_zero_or_pos with rfl | hnum
  · unfold nearest
    rw [if_pos rfl]
    exact (by decide : minExponent ≤ maxExponent)
  rw [exponent_nearest hnum.ne']
  split
  · next hcarry =>
    by_contra hexponent
    exact units_ne_mantissaBound hden (by omega) h hcarry
  · exact exponentFor_le hnum hden (h.trans_lt greatest_lt)

/-! ### Relative errors -/

/-- What one rounding leaves of a number at least. -/
def cut : ℚ := 1 - 2 ^ (-53 : Int)

theorem cut_pos : 0 < cut := by norm_num [cut]

theorem cut_le_one : cut ≤ 1 := by norm_num [cut]

/-- There are at most `k` roundings from one number to the other. -/
structure Within (k : Nat) (p q : ℚ) : Prop where
  le : p * cut ^ k ≤ q
  ge : q * cut ^ k ≤ p

namespace Within

variable {j k : Nat} {p q p' q' r : ℚ}

theorem refl (k : Nat) (hp : 0 ≤ p) : Within k p p := by
  have hle : p * cut ^ k ≤ p := mul_le_of_le_one_right hp (pow_le_one₀ cut_pos.le cut_le_one)
  exact ⟨hle, hle⟩

theorem symm (h : Within k p q) : Within k q p := ⟨h.ge, h.le⟩

theorem mul_cut_le (h : Within 1 p q) : p * cut ≤ q := by
  rw [← pow_one cut]
  exact h.le

theorem trans (h : Within j p q) (h' : Within k q r) : Within (j + k) p r where
  le := by
    rw [pow_add, ← mul_assoc]
    exact (mul_le_mul_of_nonneg_right h.le (pow_nonneg cut_pos.le k)).trans h'.le
  ge := by
    rw [add_comm, pow_add, ← mul_assoc]
    exact (mul_le_mul_of_nonneg_right h'.ge (pow_nonneg cut_pos.le j)).trans h.ge

theorem mono (h : Within j p q) (hle : j ≤ k) (hp : 0 ≤ p) : Within k p q := by
  have hq : 0 ≤ q := (mul_nonneg hp (pow_nonneg cut_pos.le j)).trans h.le
  have hpow : cut ^ k ≤ cut ^ j := pow_le_pow_of_le_one cut_pos.le cut_le_one hle
  exact ⟨(mul_le_mul_of_nonneg_left hpow hp).trans h.le,
    (mul_le_mul_of_nonneg_left hpow hq).trans h.ge⟩

theorem nonneg (h : Within k p q) (hp : 0 ≤ p) : 0 ≤ q :=
  (mul_nonneg hp (pow_nonneg cut_pos.le k)).trans h.le

theorem pos (h : Within k p q) (hp : 0 < p) : 0 < q :=
  (mul_pos hp (pow_pos cut_pos k)).trans_le h.le

theorem mul (h : Within j p q) (h' : Within k p' q') (hp : 0 ≤ p) (hp' : 0 ≤ p') :
    Within (j + k) (p * p') (q * q') := by
  have hq := h.nonneg hp
  have hq' := h'.nonneg hp'
  have hcut : ∀ i, 0 ≤ cut ^ i := fun i => pow_nonneg cut_pos.le i
  constructor <;> rw [pow_add, mul_mul_mul_comm]
  · exact mul_le_mul h.le h'.le (mul_nonneg hp' (hcut k)) hq
  · exact mul_le_mul h.ge h'.ge (mul_nonneg hq' (hcut k)) hp

theorem inv (h : Within k p q) (hp : 0 < p) : Within k p⁻¹ q⁻¹ := by
  have hq := h.pos hp
  constructor
  · rw [inv_mul_le_iff₀ hp, ← div_eq_mul_inv, le_div_iff₀ hq, mul_comm]
    exact h.ge
  · rw [inv_mul_le_iff₀ hq, ← div_eq_mul_inv, le_div_iff₀ hp, mul_comm]
    exact h.le

theorem div (h : Within j p q) (h' : Within k p' q') (hp : 0 ≤ p) (hp' : 0 < p') :
    Within (j + k) (p / p') (q / q') := by
  rw [div_eq_mul_inv, div_eq_mul_inv]
  exact h.mul (h'.inv hp') hp (inv_nonneg.2 hp'.le)

end Within

/-- The smallest number of full precision. -/
def smallest : ℚ := 2 ^ (minExponent + 52)

theorem smallest_pos : 0 < smallest := zpow_pos two_pos _

theorem within_nearest (h : smallest ≤ (num : ℚ) / den) :
    Within 1 (nearest negative num den).magnitude (num / den) := by
  have hq : (0 : ℚ) < num / den := smallest_pos.trans_le h
  have hnum : num ≠ 0 := by
    rintro rfl
    simp at hq
  have hden : den ≠ 0 := by
    rintro rfl
    simp at hq
  have hnear : |(nearest negative num den).magnitude - num / den| ≤
      num / den * 2 ^ (-53 : Int) :=
    abs_magnitude_nearest_sub_le_mul (Nat.pos_of_ne_zero hnum) (Nat.pos_of_ne_zero hden) h
  generalize (nearest negative num den).magnitude = m at hnear ⊢
  generalize (num : ℚ) / den = q at hq hnear ⊢
  obtain ⟨hge, hle⟩ := abs_le.1 hnear
  constructor <;> rw [pow_one, cut]
  · calc m * (1 - 2 ^ (-53 : Int)) ≤ (q + q * 2 ^ (-53 : Int)) * (1 - 2 ^ (-53 : Int)) :=
          mul_le_mul_of_nonneg_right (by linarith) cut_pos.le
      _ = q - q * (2 ^ (-53 : Int)) ^ 2 := by ring
      _ ≤ q := sub_le_self q (by positivity)
  · linarith

/-! ### Products and quotients -/

theorem magnitude_nonneg (x : Binary64) : 0 ≤ x.magnitude :=
  mul_nonneg x.mantissa.cast_nonneg (zpow_nonneg zero_le_two _)

theorem mantissa_ne_zero (hx : 0 < x.magnitude) : x.mantissa ≠ 0 := by
  intro h
  rw [magnitude, h, Nat.cast_zero, zero_mul] at hx
  exact hx.false

theorem num_pos (hx : 0 < x.magnitude) : 0 < x.num :=
  Nat.mul_pos (Nat.pos_of_ne_zero (mantissa_ne_zero hx)) (twoTo_pos _)

theorem num_mul_div (x y : Binary64) :
    ((x.num * y.num : Nat) : ℚ) / (x.den * y.den : Nat) = x.magnitude * y.magnitude := by
  rw [Nat.cast_mul, Nat.cast_mul, mul_div_mul_comm, num_div_den, num_div_den]

theorem num_mul_den_div (x y : Binary64) :
    ((x.num * y.den : Nat) : ℚ) / (x.den * y.num : Nat) = x.magnitude / y.magnitude := by
  rw [← num_div_den, ← num_div_den, div_div_div_eq, Nat.cast_mul, Nat.cast_mul]

theorem exists_mul (h : x.magnitude * y.magnitude ≤ greatest) : ∃ z, x.mul y = some z :=
  exists_ofQuotient (Nat.mul_pos x.den_pos y.den_pos) (by rwa [num_mul_div])

theorem mul_eq_none (h : 2 ^ (maxExponent + 53) ≤ x.magnitude * y.magnitude) : x.mul y = none :=
  ofQuotient_eq_none (Nat.mul_pos x.den_pos y.den_pos) (by rwa [num_mul_div])

theorem ofQuotient_eq_some (h : ofQuotient negative num den = some x) :
    nearest negative num den = x := by
  unfold ofQuotient at h
  dsimp only at h
  split at h
  · cases h
  · exact Option.some.inj h

theorem within_mul {z : Binary64} (h : x.mul y = some z)
    (hnormal : smallest ≤ x.magnitude * y.magnitude) :
    Within 1 z.magnitude (x.magnitude * y.magnitude) := by
  rw [← ofQuotient_eq_some h, ← num_mul_div]
  exact within_nearest (by rwa [num_mul_div])

theorem within_div (hnormal : smallest ≤ x.magnitude / y.magnitude) :
    Within 1 (x.div y).magnitude (x.magnitude / y.magnitude) := by
  rw [div, ← num_mul_den_div]
  exact within_nearest (by rwa [num_mul_den_div])

end
end JsonWalk.Binary64
