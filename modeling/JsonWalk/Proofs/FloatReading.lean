import JsonWalk.Proofs.Numerals
import JsonWalk.Proofs.Scaling

/-!
# What is read for a literal with fraction or exponent

The digits that are dropped, the digits that are kept, the power of ten and the product are rounded
one after another. The number read is therefore not always the one that is nearest to the literal,
but it is within six roundings of it; for few digits and a small power of ten it is the nearest. A
literal is refused from three roundings above the range on, and is not from three below.
-/

namespace JsonWalk

namespace Numeral

open Binary64

variable {l : Numeral} {cs cs' : List Char} {n : Nat}

/-! ### Digits -/

theorem digit_le {c : Char} (hc : c.isDigit) : c.toNat - '0'.toNat ≤ 9 := by
  obtain ⟨-, hle⟩ := Char.isDigit_iff_toNat.1 hc
  exact Nat.sub_le_sub_right hle _

theorem ofDigitChars_between (hcs : ∀ c ∈ cs, c.isDigit) (n : Nat) :
    n * 10 ^ cs.length ≤ Nat.ofDigitChars 10 cs n ∧
      Nat.ofDigitChars 10 cs n ≤ (n + 1) * 10 ^ cs.length := by
  induction cs generalizing n with
  | nil => simp
  | cons c cs ih =>
    obtain ⟨hc, hcs⟩ := List.forall_mem_cons.1 hcs
    have hdigit := digit_le hc
    obtain ⟨hle, hge⟩ := ih hcs (10 * n + (c.toNat - '0'.toNat))
    rw [Nat.ofDigitChars_cons, List.length_cons, Nat.pow_succ', ← Nat.mul_assoc, ← Nat.mul_assoc]
    exact ⟨(Nat.mul_le_mul_right _ (by omega)).trans hle,
      hge.trans (Nat.mul_le_mul_right _ (by omega))⟩

theorem scaled_between (hcs : ∀ c ∈ cs, c.isDigit) (n : Nat) (m : Int) :
    (n : ℚ) * 10 ^ m ≤ Nat.ofDigitChars 10 cs n * 10 ^ (m - cs.length) ∧
      Nat.ofDigitChars 10 cs n * 10 ^ (m - cs.length) ≤ ((n : ℚ) + 1) * 10 ^ m := by
  obtain ⟨hle, hge⟩ := ofDigitChars_between hcs n
  have hunit : (0 : ℚ) ≤ 10 ^ (m - cs.length) := zpow_nonneg (by norm_num) _
  have hsplit : (10 : ℚ) ^ m = 10 ^ cs.length * 10 ^ (m - cs.length) := by
    rw [← zpow_natCast, ← zpow_add₀ (by norm_num)]
    congr 1
    omega
  rw [hsplit, ← mul_assoc, ← mul_assoc]
  exact ⟨mul_le_mul_of_nonneg_right (by exact_mod_cast hle) hunit,
    mul_le_mul_of_nonneg_right (by exact_mod_cast hge) hunit⟩

theorem within_of_between {p q unit : ℚ} (hn : mantissaBound ≤ n) (hunit : 0 ≤ unit)
    (hp : n * unit ≤ p ∧ p ≤ (n + 1) * unit) (hq : n * unit ≤ q ∧ q ≤ (n + 1) * unit) :
    Within 1 p q := by
  have hbound : (2 : ℚ) ^ (53 : Int) ≤ n := by exact_mod_cast hn
  have hlast : ((n : ℚ) + 1) * cut ≤ n := by
    rw [cut, zpow_neg, mul_sub, mul_one, tsub_le_iff_right, add_le_add_iff_left,
      ← div_eq_mul_inv, one_le_div (by positivity)]
    exact hbound.trans (lt_add_one _).le
  have hcut : ((n : ℚ) + 1) * unit * cut ≤ n * unit := by
    rw [mul_right_comm]
    exact mul_le_mul_of_nonneg_right hlast hunit
  constructor <;> rw [pow_one]
  · exact ((mul_le_mul_of_nonneg_right hp.2 cut_pos.le).trans hcut).trans hq.1
  · exact ((mul_le_mul_of_nonneg_right hq.2 cut_pos.le).trans hcut).trans hp.1

/-- Behind so many digits no others matter. -/
theorem within_digits (hn : Decimal.wordBound ≤ 10 * n + 9) (hcs : ∀ c ∈ cs, c.isDigit)
    (hcs' : ∀ c ∈ cs', c.isDigit) (m : Int) :
    Within 1 (Nat.ofDigitChars 10 cs n * 10 ^ (m - cs.length))
      (Nat.ofDigitChars 10 cs' n * 10 ^ (m - cs'.length)) := by
  have hbound : mantissaBound ≤ n := by
    have hfew : 10 * mantissaBound + 9 ≤ Decimal.wordBound := by decide
    omega
  exact within_of_between hbound (zpow_nonneg (by norm_num) m) (scaled_between hcs n m)
    (scaled_between hcs' n m)

theorem takeDigits_spec (hcs : ∀ c ∈ cs, c.isDigit) (n : Nat) :
    ∃ taken, cs = taken ++ (takeDigits n cs).2 ∧
      (takeDigits n cs).1 = Nat.ofDigitChars 10 taken n ∧
      ((takeDigits n cs).2 = [] ∨ Decimal.wordBound ≤ 10 * (takeDigits n cs).1 + 9) := by
  induction cs generalizing n with
  | nil => exact ⟨[], rfl, rfl, .inl rfl⟩
  | cons c cs ih =>
    obtain ⟨hc, hcs⟩ := List.forall_mem_cons.1 hcs
    unfold takeDigits
    dsimp only
    split
    · obtain ⟨taken, htaken, hnumber, hrest⟩ := ih hcs (Nat.ofDigitChars 10 [c] n)
      refine ⟨c :: taken, ?_, ?_, hrest⟩
      · rw [List.cons_append, ← htaken]
      · rw [hnumber, ← Nat.ofDigitChars_append, List.singleton_append]
    · next hlt =>
      have hdigit := digit_le hc
      rw [Nat.ofDigitChars_cons, Nat.ofDigitChars_nil] at hlt
      exact ⟨[], rfl, rfl, .inr (by omega)⟩

theorem takeDigits_lt (hn : n < Decimal.wordBound) : (takeDigits n cs).1 < Decimal.wordBound := by
  induction cs generalizing n with
  | nil => exact hn
  | cons c cs ih =>
    unfold takeDigits
    dsimp only
    split
    · next hlt => exact ih hlt
    · exact hn

/-! ### What a literal says -/

def places (l : Numeral) : List Char := l.fraction.getD []

def power (l : Numeral) : Int :=
  match l.exponent with
  | none => 0
  | some (negative, ds) =>
    if negative then -Nat.ofDigitChars 10 ds 0 else Nat.ofDigitChars 10 ds 0

/-- The number that the literal says, without its sign. -/
def value (l : Numeral) : ℚ :=
  Nat.ofDigitChars 10 (l.whole ++ l.places) 0 * 10 ^ (l.power - l.places.length)

theorem significand_eq {a b : Nat} {dropped rest : List Char}
    (ha : takeDigits 0 l.whole = (a, dropped)) (hb : takeDigits a l.places = (b, rest)) :
    l.significand = (b, (dropped.length : Int) - (l.places.length - rest.length : Nat)) := by
  rw [places] at *
  unfold significand
  rw [ha]
  dsimp only
  rw [hb]

theorem value_nonneg (l : Numeral) : 0 ≤ l.value :=
  mul_nonneg (Nat.cast_nonneg _) (zpow_nonneg (by norm_num) _)

theorem isDigit_of_literal (hl : Grammar.Literal l cs) :
    (∀ c ∈ l.whole, c.isDigit) ∧ ∀ c ∈ l.places, c.isDigit := by
  obtain ⟨negative, hwhole, -, hf, -⟩ := hl
  refine ⟨hwhole.2, ?_⟩
  cases hf with
  | none => exact fun _ hc => absurd hc List.not_mem_nil
  | some hds => exact hds.2

def kept (l : Numeral) : Binary64 := nearest false l.significand.1 1

def shift (l : Numeral) : Int := l.significand.2 + l.power

/-- The digits that are kept are the digits of the literal, or so many that the others do not
matter. -/
theorem within_significand (hl : Grammar.Literal l cs) :
    Within 1 (l.significand.1 * 10 ^ l.shift) l.value := by
  obtain ⟨hwhole, hplaces⟩ := isDigit_of_literal hl
  obtain ⟨w, hw, ha, hdropped⟩ := takeDigits_spec hwhole 0
  obtain ⟨f, hf, hb, hrest⟩ := takeDigits_spec hplaces (takeDigits 0 l.whole).1
  rw [shift, significand_eq rfl rfl]
  generalize (takeDigits 0 l.whole).2 = dropped at *
  generalize (takeDigits 0 l.whole).1 = a at *
  generalize (takeDigits a l.places).2 = rest at *
  generalize (takeDigits a l.places).1 = b at *
  have hlength : l.places.length - rest.length = f.length := by
    rw [hf, List.length_append, Nat.add_sub_cancel]
  have hvalue : l.value =
      Nat.ofDigitChars 10 (dropped ++ l.places) a * 10 ^ (l.power - l.places.length) := by
    rw [value, ha, ← Nat.ofDigitChars_append, ← List.append_assoc, ← hw]
  have hkept : ∀ c ∈ f, c.isDigit := fun c hc => hplaces c (hf ▸ List.mem_append_left _ hc)
  have hleft : ∀ c ∈ rest, c.isDigit := fun c hc => hplaces c (hf ▸ List.mem_append_right _ hc)
  have hcut : ∀ c ∈ dropped, c.isDigit := fun c hc => hwhole c (hw ▸ List.mem_append_right _ hc)
  rw [hlength, hvalue]
  rcases hdropped with rfl | hdropped
  -- the whole part fits, so digits are dropped behind the kept ones only
  · have hexponent : ((0 : Nat) : Int) - f.length + l.power = l.power - f.length := by ring
    rw [List.length_nil, hexponent, List.nil_append, hf, Nat.ofDigitChars_append, ← hb]
    rcases hrest with rfl | hrest
    · rw [List.append_nil]
      exact .refl 1 (by positivity)
    · have hdigits : Within 1 (Nat.ofDigitChars 10 [] b * 10 ^ (l.power - f.length - 0))
          (Nat.ofDigitChars 10 rest b * 10 ^ (l.power - f.length - rest.length)) :=
        within_digits hrest (fun _ hc => absurd hc List.not_mem_nil) hleft _
      rwa [Nat.ofDigitChars_nil, sub_zero, sub_sub, ← Nat.cast_add, ← List.length_append] at hdigits
  -- digits of the fraction may be kept behind dropped ones, where neither matter
  · have hall : ∀ c ∈ dropped ++ l.places, c.isDigit := List.forall_mem_append.2 ⟨hcut, hplaces⟩
    have hdigits := within_digits hdropped hkept hall (dropped.length + l.power)
    rw [← hb] at hdigits
    convert hdigits using 3
    · ring
    · rw [List.length_append]
      push_cast
      ring

/-! ### The number read -/

theorem float_eq (hpower : l.power.natAbs < exponentBound) :
    l.float =
      (l.kept.timesTenTo l.shift).map fun x => .float { x with negative := l.negative } := by
  rw [Option.map_eq_bind, kept, shift]
  rcases l with ⟨negative, whole, fraction, _ | ⟨_ | _, ds⟩⟩
  · change _ = Option.bind (timesTenTo _ (_ + 0)) _
    rw [add_zero]
    rfl
  · have hlt : Nat.ofDigitChars 10 ds 0 < exponentBound := hpower
    unfold float
    dsimp only
    rw [if_pos hlt]
    rfl
  · have hlt : Nat.ofDigitChars 10 ds 0 < exponentBound := by
      change (-(Nat.ofDigitChars 10 ds 0 : Int)).natAbs < exponentBound at hpower
      omega
    unfold float
    dsimp only
    rw [if_pos hlt]
    rfl

theorem significand_lt : l.significand.1 < Decimal.wordBound := by
  rw [significand_eq rfl rfl]
  exact takeDigits_lt (takeDigits_lt (by decide))

theorem within_kept (hl : Grammar.Literal l cs) :
    Within 2 (l.kept.magnitude * 10 ^ l.shift) l.value := by
  have hten : (0 : ℚ) ≤ 10 ^ l.shift := zpow_nonneg (by norm_num) _
  exact ((within_nearest_one _).mul (.refl 0 hten) (magnitude_nonneg _) hten).trans
    (within_significand hl)

theorem within_product (hl : Grammar.Literal l cs) (hshift : 0 ≤ l.shift) :
    Within 3 (l.kept.magnitude * (powerOfTen l.shift.natAbs).magnitude) l.value := by
  have hkept := within_kept hl
  rw [ten_zpow_of_nonneg hshift] at hkept
  exact (((Within.refl 0 (magnitude_nonneg _)).mul (within_powerOfTen _) (magnitude_nonneg _)
    (powerOfTen_pos _).le).trans hkept)

theorem kept_mantissa (h : 0 < l.significand.1) : l.kept.mantissa ≠ 0 :=
  mantissa_ne_zero ((within_nearest_one _).symm.pos (Nat.cast_pos.2 h))

theorem significand_pos_of_mantissa (h : l.kept.mantissa ≠ 0) : 0 < l.significand.1 := by
  refine Nat.pos_of_ne_zero fun hzero => h ?_
  rw [kept, hzero]
  rfl

theorem significand_pos (hl : Grammar.Literal l cs) (h : 0 < l.value) : 0 < l.significand.1 := by
  refine Nat.pos_of_ne_zero fun hzero => ?_
  have hkept := (within_kept hl).symm.pos h
  rw [kept, hzero, magnitude_nearest_zero, zero_mul] at hkept
  exact hkept.false

theorem value_lt (hl : Grammar.Literal l cs) (hshift : l.shift < 0) :
    l.value * cut < 2 ^ (64 : Int) := by
  have hten : (10 : ℚ) ^ l.shift ≤ 1 := zpow_le_one_of_nonpos₀ (by norm_num) hshift.le
  have hlt : (l.significand.1 : ℚ) < 2 ^ (64 : Int) := by exact_mod_cast significand_lt
  have hge := (within_significand hl).symm.mul_cut_le
  exact (hge.trans (mul_le_of_le_one_right (Nat.cast_nonneg _) hten)).trans_lt hlt

/-- Below this power of ten the number would not have full precision. -/
theorem le_shift (hl : Grammar.Literal l cs) (hvalue : smallest ≤ l.value * cut) :
    -(2 * maxPower : Int) ≤ l.shift := by
  by_contra hlow
  have hge := (within_significand hl).symm.mul_cut_le
  have hlt : (l.significand.1 : ℚ) ≤ 10 ^ (20 : Int) := by
    have hnat : l.significand.1 ≤ 10 ^ 20 := significand_lt.le.trans (by decide)
    exact_mod_cast hnat
  have hbound : (l.significand.1 : ℚ) * 10 ^ l.shift < 10 ^ (-maxPower : Int) := by
    calc (l.significand.1 : ℚ) * 10 ^ l.shift ≤ 10 ^ (20 : Int) * 10 ^ l.shift :=
          mul_le_mul_of_nonneg_right hlt (zpow_nonneg (by norm_num) _)
      _ = 10 ^ (20 + l.shift) := (zpow_add₀ (by norm_num) _ _).symm
      _ < 10 ^ (-maxPower : Int) := zpow_lt_zpow_right₀ (by norm_num) (by
          simp only [maxPower] at *
          omega)
  exact absurd (hvalue.trans hge) (not_le.2 (hbound.trans_le ten_zpow_le_smallest))

/-- Where the literal has twice the smallest number of full precision, at least, the number read is
within six roundings of it. -/
theorem within_float {x : Binary64} (hl : Grammar.Literal l cs)
    (hpower : l.power.natAbs < exponentBound) (hvalue : 2 * smallest ≤ l.value)
    (h : l.float = some (.float x)) : Within 6 x.magnitude l.value := by
  rw [float_eq hpower] at h
  obtain ⟨y, hy, hx⟩ := Option.map_eq_some_iff.1 h
  cases hx
  change Within 6 y.magnitude l.value
  have hpos : 0 < l.value := (mul_pos two_pos smallest_pos).trans_le hvalue
  -- what is left after five roundings is still of full precision
  have hhalf : 1 / 2 ≤ cut ^ 5 := by norm_num [cut]
  have hbig : smallest ≤ l.value * cut ^ 5 := by
    linarith [mul_le_mul_of_nonneg_left hhalf hpos.le]
  have hcut : ∀ i ≤ 5, smallest ≤ l.value * cut ^ i := fun i hi =>
    hbig.trans (mul_le_mul_of_nonneg_left (pow_le_pow_of_le_one cut_pos.le cut_le_one hi) hpos.le)
  have hkept := within_kept hl
  have hnormal : ∀ i ≤ 3, smallest ≤ l.kept.magnitude * 10 ^ l.shift * cut ^ i := by
    intro i hi
    refine (hcut (2 + i) (by omega)).trans ?_
    rw [pow_add, ← mul_assoc]
    exact mul_le_mul_of_nonneg_right hkept.ge (pow_nonneg cut_pos.le i)
  by_cases hmax : maxPower < l.shift
  · rw [timesTenTo_of_gt hmax (kept_mantissa (significand_pos hl hpos))] at hy
    cases hy
  by_cases hlow : l.shift < -maxPower
  · have hmin := le_shift hl (by simpa using hcut 1 (by omega))
    exact (within_timesTenTo_of_lt hy hlow hmin (hnormal 3 le_rfl)).trans hkept
  · exact ((within_timesTenTo hy (by omega) (by simpa using hnormal 1 (by omega))).trans hkept).mono
      (by omega) y.magnitude_nonneg

theorem ten_zpow_shift_le (hl : Grammar.Literal l cs) (hpos : 0 < l.significand.1)
    (h : l.value ≤ greatest * cut ^ 3) : (10 : ℚ) ^ l.shift ≤ greatest := by
  have hle := (within_significand hl).mul_cut_le
  have hone : (1 : ℚ) ≤ l.significand.1 := by exact_mod_cast hpos
  have hcut : greatest * cut ^ 3 ≤ greatest * cut :=
    mul_le_mul_of_nonneg_left (pow_le_of_le_one cut_pos.le cut_le_one (by decide)) greatest_nonneg
  calc (10 : ℚ) ^ l.shift ≤ l.significand.1 * 10 ^ l.shift :=
        le_mul_of_one_le_left (zpow_nonneg (by norm_num) _) hone
    _ ≤ greatest := le_of_mul_le_mul_right ((hle.trans h).trans hcut) cut_pos

theorem exists_float (hl : Grammar.Literal l cs) (hpower : l.power.natAbs < exponentBound)
    (h : l.value ≤ greatest * cut ^ 3) : ∃ x, l.float = some (.float x) := by
  suffices hread : ∃ y, l.kept.timesTenTo l.shift = some y by
    obtain ⟨y, hy⟩ := hread
    rw [float_eq hpower, hy]
    exact ⟨_, rfl⟩
  by_cases hneg : l.shift < 0
  · exact exists_timesTenTo_of_neg hneg
  rw [not_lt] at hneg
  by_cases hmax : l.shift ≤ maxPower
  · rw [timesTenTo_of_nonneg hneg hmax]
    exact exists_mul (le_of_mul_le_mul_right ((within_product hl hneg).le.trans h)
      (pow_pos cut_pos 3))
  · by_cases hzero : l.kept.mantissa = 0
    · exact ⟨_, timesTenTo_of_zero hzero (by omega)⟩
    · exfalso
      have hten : (10 : ℚ) ^ (maxPower + 1 : Int) ≤ 10 ^ l.shift :=
        zpow_le_zpow_right₀ (by norm_num) (by omega)
      exact absurd (hten.trans (ten_zpow_shift_le hl (significand_pos_of_mantissa hzero) h))
        (not_le.2 greatest_lt_ten_zpow)

theorem float_eq_none (hl : Grammar.Literal l cs) (hpower : l.power.natAbs < exponentBound)
    (h : 2 ^ (maxExponent + 53) ≤ l.value * cut ^ 3) : l.float = none := by
  have hpos : 0 < l.value :=
    pos_of_mul_pos_left ((zpow_pos two_pos _).trans_le h) (pow_nonneg cut_pos.le 3)
  rw [float_eq hpower, Option.map_eq_none_iff]
  by_cases hneg : l.shift < 0
  · exfalso
    have hcut : cut ^ 3 ≤ cut := pow_le_of_le_one cut_pos.le cut_le_one (by decide)
    have hsmall : (2 : ℚ) ^ (64 : Int) ≤ 2 ^ (maxExponent + 53) :=
      zpow_le_zpow_right₀ one_le_two (by decide)
    exact absurd ((hsmall.trans h).trans (mul_le_mul_of_nonneg_left hcut hpos.le))
      (not_le.2 (value_lt hl hneg))
  rw [not_lt] at hneg
  by_cases hmax : l.shift ≤ maxPower
  · rw [timesTenTo_of_nonneg hneg hmax]
    exact mul_eq_none (h.trans (within_product hl hneg).ge)
  · exact timesTenTo_of_gt (by omega) (kept_mantissa (significand_pos hl hpos))

/-! ### Short literals -/

theorem takeDigits_of_lt (h : Nat.ofDigitChars 10 cs n < Decimal.wordBound) :
    takeDigits n cs = (Nat.ofDigitChars 10 cs n, []) := by
  induction cs generalizing n with
  | nil => rfl
  | cons c cs ih =>
    have hsplit : Nat.ofDigitChars 10 (c :: cs) n =
        Nat.ofDigitChars 10 cs (Nat.ofDigitChars 10 [c] n) := rfl
    rw [hsplit] at h ⊢
    unfold takeDigits
    dsimp only
    rw [if_pos ((Decimal.le_ofDigitChars cs _).trans_lt h), ih h]

theorem significand_of_lt
    (h : Nat.ofDigitChars 10 (l.whole ++ l.places) 0 < Decimal.wordBound) :
    l.significand = (Nat.ofDigitChars 10 (l.whole ++ l.places) 0, -(l.places.length : Int)) := by
  rw [Nat.ofDigitChars_append] at h ⊢
  have hwhole := takeDigits_of_lt ((Decimal.le_ofDigitChars l.places _).trans_lt h)
  rw [significand_eq hwhole (takeDigits_of_lt h), List.length_nil, Nat.sub_zero, Nat.cast_zero,
    zero_sub]

/-- With few digits and a small power of ten the digits and the power are exact, and the one
rounding left gives the nearest number. -/
theorem float_of_short {num den : Nat} (hpower : l.power.natAbs < exponentBound)
    (hdigits : Nat.ofDigitChars 10 (l.whole ++ l.places) 0 < mantissaBound)
    (hshift : (l.power - l.places.length).natAbs ≤ 22) (hden : 0 < den)
    (hvalue : (num : ℚ) / den = l.value) :
    l.float = some (.float (nearest l.negative num den)) := by
  have hword : Nat.ofDigitChars 10 (l.whole ++ l.places) 0 < Decimal.wordBound :=
    hdigits.trans (by decide)
  have hsignificand := significand_of_lt hword
  have hexponent : l.shift = l.power - l.places.length := by
    rw [shift, hsignificand]
    ring
  have hkept : l.kept.magnitude = Nat.ofDigitChars 10 (l.whole ++ l.places) 0 := by
    rw [kept, hsignificand]
    exact magnitude_nearest_of_lt hdigits
  have hten : (powerOfTen l.shift.natAbs).magnitude = 10 ^ l.shift.natAbs :=
    magnitude_powerOfTen (by rwa [hexponent])
  have hexact : l.kept.magnitude * 10 ^ l.shift = l.value := by rw [hkept, hexponent, value]
  have hsign : (l.kept.negative != (powerOfTen l.shift.natAbs).negative) = false := by
    rw [kept, powerOfTen, negative_nearest, negative_nearest]
    rfl
  suffices hread : l.kept.timesTenTo l.shift = some (nearest false num den) by
    rw [float_eq hpower, hread, Option.map_some, nearest_with_negative]
  rw [← hexponent] at hshift
  by_cases hneg : l.shift < 0
  · rw [timesTenTo_of_neg hneg (by simp only [maxPower]; omega), div, hsign]
    refine congrArg some (nearest_congr ?_ hden ?_)
    · exact Nat.mul_pos (den_pos _) (num_pos (powerOfTen_pos _))
    · rw [num_mul_den_div, hten, div_ten_pow _ hneg.le, hexact, hvalue]
  · rw [timesTenTo_of_nonneg (not_lt.1 hneg) (by simp only [maxPower]; omega)]
    have hproduct : l.kept.magnitude * (powerOfTen l.shift.natAbs).magnitude = l.value := by
      rw [hten, ← ten_zpow_of_nonneg (not_lt.1 hneg), hexact]
    obtain ⟨z, hz⟩ : ∃ z, l.kept.mul (powerOfTen l.shift.natAbs) = some z := by
      refine exists_mul ?_
      rw [hkept, hten]
      exact mul_ten_pow_le_greatest hdigits hshift
    rw [hz, ← ofQuotient_eq_some hz, hsign]
    refine congrArg some (nearest_congr (Nat.mul_pos (den_pos _) (den_pos _)) hden ?_)
    rw [num_mul_div, hproduct, hvalue]

/-! ### Integers -/

theorem value_of_whole {negative : Bool} {whole : List Char} :
    value ⟨negative, whole, none, none⟩ = Nat.ofDigitChars 10 whole 0 := by
  simp [value, power, places]

/-- A literal is read as a floating point number, or it is an integer of sixty-four bits. -/
theorem number_cases (l : Numeral) :
    l.number = l.float ∨ (∃ n, l.number = some (.int n)) ∧ l.value < 2 ^ (64 : Int) := by
  rcases l with ⟨negative, whole, _ | _, _ | _⟩
  · have hfits : ∀ n < Decimal.wordBound, (n : ℚ) < 2 ^ (64 : Int) := fun n hn => by
      exact_mod_cast hn
    rw [value_of_whole]
    unfold number
    dsimp only
    cases negative with
    | true =>
      rw [if_pos rfl]
      split
      · next h => exact .inr ⟨⟨_, rfl⟩, hfits _ (h.2.trans_lt (by decide))⟩
      · exact .inl rfl
    | false =>
      rw [if_neg Bool.false_ne_true]
      split
      · next h => exact .inr ⟨⟨_, rfl⟩, hfits _ h⟩
      · exact .inl rfl
  all_goals exact .inl rfl

end Numeral

namespace Number

open Binary64

variable {l : Numeral} {cs : List Char}

/-- Integers and floating point numbers are read up to three roundings below the greatest number. -/
theorem exists_ofLiteral? (hl : Grammar.Literal l cs)
    (hpower : l.power.natAbs < Numeral.exponentBound) (h : l.value ≤ greatest * cut ^ 3) :
    ∃ n, ofLiteral? cs = some n := by
  obtain ⟨n, hn⟩ : ∃ n, l.number = some n := by
    rcases l.number_cases with hfloat | ⟨⟨n, hn⟩, -⟩
    · obtain ⟨x, hx⟩ := Numeral.exists_float hl hpower h
      exact ⟨_, hfloat.trans hx⟩
    · exact ⟨_, hn⟩
  exact ⟨n, ofLiteral?_eq_some_iff.2 ⟨l, hl, hn⟩⟩

example : (ofLiteral? "1.602176634e-19".toList).map text = some "1.6021766340000001e-19" := by
  decide +kernel

example : (ofLiteral? "31.245270191439438".toList).map text = some "31.24527019143944" := by
  decide +kernel

example : (ofLiteral? "18446744073709551617".toList).map text = some "1.8446744073709552e+19" := by
  decide +kernel

/-- Literals are refused from three roundings above the range on. -/
theorem ofLiteral?_eq_none (hl : Grammar.Literal l cs)
    (hpower : l.power.natAbs < Numeral.exponentBound)
    (h : 2 ^ (maxExponent + 53) ≤ l.value * cut ^ 3) : ofLiteral? cs = none := by
  have hlarge : ¬ l.value < 2 ^ (64 : Int) := by
    have hcut : l.value * cut ^ 3 ≤ l.value :=
      mul_le_of_le_one_right l.value_nonneg (pow_le_one₀ cut_pos.le cut_le_one)
    have hsmall : (2 : ℚ) ^ (64 : Int) ≤ 2 ^ (maxExponent + 53) :=
      zpow_le_zpow_right₀ one_le_two (by decide)
    exact not_lt.2 ((hsmall.trans h).trans hcut)
  have hnone : l.number = none := by
    rcases l.number_cases with hfloat | ⟨-, hlt⟩
    · exact hfloat.trans (Numeral.float_eq_none hl hpower h)
    · exact absurd hlt hlarge
  rw [ofLiteral?, Numeral.read_eq_some_iff.2 hl]
  exact hnone

example : ofLiteral? "1.7976931348623158e308".toList = none := by decide +kernel

end Number
end JsonWalk
