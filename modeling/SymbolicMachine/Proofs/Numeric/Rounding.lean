import Mathlib.Algebra.Order.Field.Power
import Mathlib.Tactic.FieldSimp
import Mathlib.Tactic.Linarith
import Mathlib.Tactic.Positivity
import Mathlib.Tactic.Ring
import SymbolicMachine.Numeric.Binary
/-!
# Rounding fractions

The numbers of a format without their sign are the magnitudes, and each of them is a whole number
of the smallest one.  `FloatFormat.units` is that number.  A magnitude is `k * 2 ^ p + r` for a
scale `k` and a mantissa `r`, where `p` counts the bits of the fraction, and has `r * 2 ^ k`
units.  `roundRatio` takes the scale at which a fraction lies and rounds there to a whole mantissa:
the main result says that no other magnitude is nearer to the fraction, and that in a tie the last
bit of the chosen one is zero.
-/
namespace SymbolicMachine

namespace Numeric

variable {num den : Nat}

theorem scale_den_pos (num : Nat) (hden : 0 < den) (exponent : Int) :
    0 < (scale num den exponent).2 := by
  unfold scale
  split
  · exact hden
  · exact Nat.mul_pos hden (Nat.two_pow_pos _)

/-- Scaling multiplies by a power of two. -/
theorem scale_eq (num den : Nat) (exponent : Int) :
    ((scale num den exponent).1 : ℚ) / (scale num den exponent).2 = num / den * 2 ^ exponent := by
  unfold scale
  split
  · rename_i h
    obtain ⟨k, rfl⟩ := Int.eq_ofNat_of_zero_le h
    simp only [Int.toNat_natCast, zpow_natCast]
    push_cast
    ring
  · rename_i h
    obtain ⟨k, hk⟩ := Int.eq_ofNat_of_zero_le (show 0 ≤ -exponent by omega)
    obtain rfl : exponent = -(k : Int) := by omega
    simp only [neg_neg, Int.toNat_natCast, zpow_neg, zpow_natCast]
    push_cast
    rw [div_mul_eq_div_div, div_eq_mul_inv (_ / _)]

/-- A rounded quotient is off by at most a half, and then it is even. -/
theorem roundDiv_spec (num : Nat) (hden : 0 < den) :
    |(roundDiv num den : ℚ) - num / den| ≤ 1 / 2 ∧
      (|(roundDiv num den : ℚ) - num / den| = 1 / 2 → roundDiv num den % 2 = 0) := by
  have hden' : (0 : ℚ) < den := by exact_mod_cast hden
  have hquotient : (num : ℚ) / den = (num / den : Nat) + (num % den : Nat) / den := by
    rw [div_eq_iff hden'.ne', add_mul, div_mul_cancel₀ _ hden'.ne']
    exact_mod_cast (Nat.div_add_mod' num den).symm
  have hsmall : ((num % den : Nat) : ℚ) / den < 1 := by
    rw [div_lt_one hden']
    exact_mod_cast Nat.mod_lt num hden
  have hpos : (0 : ℚ) ≤ ((num % den : Nat) : ℚ) / den := by positivity
  unfold roundDiv
  dsimp only
  split
  · rename_i hup
    simp only [Bool.or_eq_true, decide_eq_true_eq, Bool.and_eq_true, beq_iff_eq] at hup
    have hhalf : (1 : ℚ) / 2 ≤ ((num % den : Nat) : ℚ) / den := by
      rw [div_le_div_iff₀ two_pos hden', one_mul]
      exact_mod_cast (show den ≤ num % den * 2 by omega)
    have hdistance : |(((num / den + 1 : Nat) : ℚ)) - num / den| =
        1 - ((num % den : Nat) : ℚ) / den := by
      rw [hquotient, abs_of_nonneg] <;> push_cast <;> linarith
    rw [hdistance]
    refine ⟨by linarith, fun htie => ?_⟩
    have heq : ((num % den : Nat) : ℚ) / den = 1 / 2 := by linarith
    rw [div_eq_div_iff hden'.ne' two_ne_zero, one_mul] at heq
    have heq' : num % den * 2 = den := by exact_mod_cast heq
    omega
  · rename_i hdown
    simp only [Bool.or_eq_true, decide_eq_true_eq, Bool.and_eq_true, beq_iff_eq] at hdown
    have hhalf : ((num % den : Nat) : ℚ) / den ≤ 1 / 2 := by
      rw [div_le_div_iff₀ hden' two_pos, one_mul]
      exact_mod_cast (show num % den * 2 ≤ den by omega)
    have hdistance : |((num / den : Nat) : ℚ) - num / den| =
        ((num % den : Nat) : ℚ) / den := by
      rw [hquotient, abs_of_nonpos] <;> linarith
    rw [hdistance]
    refine ⟨hhalf, fun htie => ?_⟩
    rw [div_eq_div_iff hden'.ne' two_ne_zero, one_mul] at htie
    have heq' : num % den * 2 = den := by exact_mod_cast htie
    omega

/-- No whole number is nearer to a quotient than the rounded one, which is even in a tie. -/
theorem roundDiv_nearest (num : Nat) (hden : 0 < den) (j : Nat) :
    |(roundDiv num den : ℚ) - num / den| ≤ |(j : ℚ) - num / den| ∧
      (|(roundDiv num den : ℚ) - num / den| = |(j : ℚ) - num / den| →
        j = roundDiv num den ∨ roundDiv num den % 2 = 0) := by
  obtain ⟨hhalf, heven⟩ := roundDiv_spec num hden
  rcases eq_or_ne j (roundDiv num den) with rfl | hne
  · exact ⟨le_refl _, fun _ => .inl rfl⟩
  · have hapart : (1 : ℚ) ≤ |(j : ℚ) - roundDiv num den| := by
      have h : (1 : ℤ) ≤ |(j : ℤ) - roundDiv num den| := Int.one_le_abs (by omega)
      exact_mod_cast h
    have htriangle := abs_sub_le (j : ℚ) (num / den) (roundDiv num den)
    rw [abs_sub_comm (num / den : ℚ)] at htriangle
    exact ⟨by linarith, fun htie => .inr (heven (by linarith))⟩

theorem roundDiv_le (hden : 0 < den) {j : Nat} (h : (num / den : ℚ) ≤ j) : roundDiv num den ≤ j := by
  have hhalf := abs_le.1 (roundDiv_spec num hden).1
  have hlt : (roundDiv num den : ℚ) < (j + 1 : Nat) := by
    push_cast
    linarith
  exact Nat.lt_succ_iff.1 (by exact_mod_cast hlt)

theorem le_roundDiv (hden : 0 < den) {j : Nat} (h : (j : ℚ) ≤ num / den) : j ≤ roundDiv num den := by
  have hhalf := abs_le.1 (roundDiv_spec num hden).1
  have hlt : (j : ℚ) < (roundDiv num den + 1 : Nat) := by
    push_cast
    linarith
  exact Nat.lt_succ_iff.1 (by exact_mod_cast hlt)

theorem two_zpow_log2_le {n : Nat} (h : 0 < n) : (2 : ℚ) ^ (Nat.log2 n : ℤ) ≤ n := by
  rw [zpow_natCast]
  exact_mod_cast Nat.log2_self_le h.ne'

theorem lt_two_zpow_log2 (n : Nat) : (n : ℚ) < 2 ^ ((Nat.log2 n : ℤ) + 1) := by
  have h : n < 2 ^ (Nat.log2 n + 1) := Nat.lt_log2_self
  calc (n : ℚ) < ((2 ^ (Nat.log2 n + 1) : Nat) : ℚ) := by exact_mod_cast h
    _ = 2 ^ ((Nat.log2 n : ℤ) + 1) := by rw [← Nat.cast_succ, zpow_natCast]; push_cast; rfl

/-- The exponent of the power of two below a fraction. -/
theorem log2Ratio_spec (hnum : 0 < num) (hden : 0 < den) :
    (2 : ℚ) ^ log2Ratio num den ≤ num / den ∧ (num / den : ℚ) < 2 ^ (log2Ratio num den + 1) := by
  have hden' : (0 : ℚ) < den := by exact_mod_cast hden
  set guess : ℤ := (Nat.log2 num : ℤ) - Nat.log2 den with hguess
  have hupper : (num / den : ℚ) < 2 ^ (guess + 1) := by
    rw [div_lt_iff₀ hden']
    calc (num : ℚ) < 2 ^ ((Nat.log2 num : ℤ) + 1) := lt_two_zpow_log2 num
      _ = 2 ^ (guess + 1) * 2 ^ (Nat.log2 den : ℤ) := by
        rw [← zpow_add₀ two_ne_zero]
        congr 1
        omega
      _ ≤ 2 ^ (guess + 1) * den := by gcongr; exact two_zpow_log2_le hden
  have hlower : (2 : ℚ) ^ (guess - 1) ≤ num / den := by
    rw [le_div_iff₀ hden']
    calc (2 : ℚ) ^ (guess - 1) * den ≤ 2 ^ (guess - 1) * 2 ^ ((Nat.log2 den : ℤ) + 1) := by
          gcongr; exact (lt_two_zpow_log2 den).le
      _ = 2 ^ (Nat.log2 num : ℤ) := by
        rw [← zpow_add₀ two_ne_zero]
        congr 1
        omega
      _ ≤ num := two_zpow_log2_le hnum
  have hscaled : (scale num den (-guess)).1 < (scale num den (-guess)).2 ↔
      (num / den : ℚ) < 2 ^ guess := by
    have hpos : (0 : ℚ) < (scale num den (-guess)).2 := by exact_mod_cast scale_den_pos num hden _
    rw [← @Nat.cast_lt ℚ, ← div_lt_one hpos, scale_eq, zpow_neg, ← div_eq_mul_inv,
      div_lt_one (by positivity)]
  have hunfold : log2Ratio num den =
      if (scale num den (-guess)).1 < (scale num den (-guess)).2 then guess - 1 else guess := rfl
  rw [hunfold]
  split
  · rename_i h
    exact ⟨hlower, by rw [sub_add_cancel]; exact hscaled.1 h⟩
  · rename_i h
    exact ⟨le_of_not_gt fun h' => h (hscaled.2 h'), hupper⟩

end Numeric

/-! ## Magnitudes -/

namespace FloatFormat

variable {f : FloatFormat}

/-- The scale of a magnitude: its mantissa counts the smallest number times two to the scale. -/
def scaleOf (f : FloatFormat) (m : Nat) : Nat := m / 2 ^ f.fractionBits - 1

/-- How often the smallest number goes into a magnitude. -/
def units (f : FloatFormat) (m : Nat) : Nat :=
  (m - f.scaleOf m * 2 ^ f.fractionBits) * 2 ^ f.scaleOf m

/-- A scale and a mantissa that belong to each other: above the lowest scale the mantissa has its
leading bit. -/
def Fits (f : FloatFormat) (k r : Nat) : Prop :=
  (k = 0 ∨ 2 ^ f.fractionBits ≤ r) ∧ r ≤ 2 ^ (f.fractionBits + 1)

/-- The units of a magnitude are its mantissa at its scale, also if the mantissa is just too
great for the scale. -/
theorem units_add {k r : Nat} (h : f.Fits k r) :
    f.units (k * 2 ^ f.fractionBits + r) = r * 2 ^ k := by
  obtain ⟨hlow, hhigh⟩ := h
  rw [Nat.pow_succ] at hhigh
  have hpos := Nat.two_pow_pos f.fractionBits
  have hdiv : (k * 2 ^ f.fractionBits + r) / 2 ^ f.fractionBits = k + r / 2 ^ f.fractionBits := by
    rw [Nat.add_comm, Nat.add_mul_div_right _ _ hpos, Nat.add_comm]
  unfold units scaleOf
  rw [hdiv]
  rcases Nat.lt_or_ge r (2 ^ f.fractionBits) with hr | hr
  · obtain rfl : k = 0 := by omega
    rw [Nat.div_eq_of_lt hr]
    simp
  · rcases Nat.lt_or_eq_of_le hhigh with hr' | rfl
    · have hone : r / 2 ^ f.fractionBits = 1 := Nat.div_eq_of_lt_le (by omega) (by omega)
      rw [hone, Nat.add_sub_cancel, Nat.add_sub_cancel_left]
    · rw [Nat.mul_div_cancel_left _ hpos, Nat.add_sub_cancel (k + 1) 1, Nat.succ_mul, Nat.pow_succ]
      have hmantissa : k * 2 ^ f.fractionBits + 2 ^ f.fractionBits * 2 -
          (k * 2 ^ f.fractionBits + 2 ^ f.fractionBits) = 2 ^ f.fractionBits := by omega
      rw [hmantissa]
      ring

theorem exists_scale (f : FloatFormat) (m : Nat) :
    ∃ k r, m = k * 2 ^ f.fractionBits + r ∧ f.Fits k r ∧ r < 2 ^ (f.fractionBits + 1) := by
  have hpos := Nat.two_pow_pos f.fractionBits
  have hdiv := Nat.div_add_mod' m (2 ^ f.fractionBits)
  have hmod := Nat.mod_lt m hpos
  rw [Nat.pow_succ]
  rcases Nat.eq_zero_or_pos (m / 2 ^ f.fractionBits) with h | h
  · rw [h] at hdiv
    exact ⟨0, m, by omega, ⟨.inl rfl, by rw [Nat.pow_succ]; omega⟩, by omega⟩
  · obtain ⟨k, hk⟩ : ∃ k, m / 2 ^ f.fractionBits = k + 1 := ⟨_, (Nat.sub_add_cancel h).symm⟩
    rw [hk, Nat.succ_mul] at hdiv
    refine ⟨k, 2 ^ f.fractionBits + m % 2 ^ f.fractionBits, by omega, ⟨.inr (by omega), ?_⟩, by omega⟩
    rw [Nat.pow_succ]
    omega

/-- A magnitude at a lower scale lies below the least mantissa with a leading bit at this one. -/
theorem units_lt_of_scale_lt {k k' r : Nat} (hfits : f.Fits k' r)
    (hr : r < 2 ^ (f.fractionBits + 1)) (h : k' < k) :
    f.units (k' * 2 ^ f.fractionBits + r) < 2 ^ f.fractionBits * 2 ^ k := by
  rw [units_add hfits]
  calc r * 2 ^ k' < 2 ^ (f.fractionBits + 1) * 2 ^ k' := by gcongr
    _ = 2 ^ (f.fractionBits + (k' + 1)) := by rw [← Nat.pow_add]; congr 1; omega
    _ ≤ 2 ^ (f.fractionBits + k) := Nat.pow_le_pow_right two_pos (by omega)
    _ = 2 ^ f.fractionBits * 2 ^ k := Nat.pow_add _ _ _

/-- From a magnitude to the next there is one step of its scale. -/
theorem exists_units_succ (f : FloatFormat) (m : Nat) :
    ∃ k r, m = k * 2 ^ f.fractionBits + r ∧ r < 2 ^ (f.fractionBits + 1) ∧
      f.units m = r * 2 ^ k ∧ f.units (m + 1) = (r + 1) * 2 ^ k := by
  obtain ⟨k, r, rfl, hfits, hr⟩ := f.exists_scale m
  refine ⟨k, r, rfl, hr, units_add hfits, ?_⟩
  rw [Nat.add_assoc, units_add ⟨hfits.1.imp_right fun h => Nat.le_succ_of_le h, hr⟩]

theorem units_strictMono (f : FloatFormat) : StrictMono f.units := by
  refine strictMono_nat_of_lt_succ fun m => ?_
  obtain ⟨k, r, -, -, hm, hsucc⟩ := f.exists_units_succ m
  rw [hm, hsucc, Nat.succ_mul]
  exact Nat.lt_add_of_pos_right (Nat.two_pow_pos k)

@[simp] theorem units_zero (f : FloatFormat) : f.units 0 = 0 := by
  simp [units, scaleOf]

/-- A mantissa at a scale is a magnitude, whether it has its leading bit or not. -/
theorem exists_units_eq {r : Nat} (hr : r < 2 ^ (f.fractionBits + 1)) (k : Nat) :
    ∃ m < (k + 2) * 2 ^ f.fractionBits, f.units m = r * 2 ^ k := by
  induction k generalizing r with
  | zero =>
    rw [Nat.pow_succ] at hr
    refine ⟨r, by omega, ?_⟩
    have h := units_add (f := f) (k := 0) (r := r) ⟨.inl rfl, by rw [Nat.pow_succ]; omega⟩
    rwa [Nat.zero_mul, Nat.zero_add] at h
  | succ k ih =>
    rw [Nat.pow_succ] at hr
    rcases Nat.lt_or_ge r (2 ^ f.fractionBits) with h | h
    · obtain ⟨m, hm, hunits⟩ := ih (r := r * 2) (by rw [Nat.pow_succ]; omega)
      refine ⟨m, hm.trans_le (Nat.mul_le_mul_right _ (by omega)), ?_⟩
      rw [hunits, Nat.pow_succ]
      ring
    · refine ⟨(k + 1) * 2 ^ f.fractionBits + r, ?_, units_add ⟨.inr h, ?_⟩⟩
      · rw [Nat.add_mul (k + 1) 2]
        omega
      · rw [Nat.pow_succ]
        omega

end FloatFormat

/-! ## Rounding -/

namespace Binary

open Numeric

variable {f : FloatFormat} {num den : Nat}

/-- A fraction is rounded at the scale at which it lies. -/
theorem exists_roundRatio (f : FloatFormat) (hnum : 0 < num) (hden : 0 < den) :
    ∃ k n d : Nat, 0 < d ∧ (n / d * 2 ^ k : ℚ) = num / den * 2 ^ (-f.minExponent) ∧
      (k = 0 ∨ (2 : ℚ) ^ f.fractionBits ≤ n / d) ∧ f.Fits k (roundDiv n d) ∧
        roundRatio f num den =
          min f.infinityMagnitude (k * 2 ^ f.fractionBits + roundDiv n d) := by
  obtain ⟨hlower, hupper⟩ := log2Ratio_spec hnum hden
  set unit : ℤ := max f.minExponent (log2Ratio num den - f.fractionBits) with hunit
  obtain ⟨k, hk⟩ := Int.eq_ofNat_of_zero_le (show 0 ≤ unit - f.minExponent by omega)
  have hpos := scale_den_pos num hden (-unit)
  have hscale := scale_eq num den (-unit)
  have hround : roundRatio f num den = min f.infinityMagnitude ((unit - f.minExponent).toNat *
      2 ^ f.fractionBits + roundDiv (scale num den (-unit)).1 (scale num den (-unit)).2) := by
    unfold roundRatio
    rw [if_neg hnum.ne']
  generalize scale num den (-unit) = scaled at hpos hscale hround
  obtain ⟨n, d⟩ := scaled
  dsimp only at hpos hscale hround
  have hless : (n / d : ℚ) ≤ (2 ^ (f.fractionBits + 1) : Nat) := by
    rw [hscale, zpow_neg, ← div_eq_mul_inv, div_le_iff₀ (by positivity)]
    refine hupper.le.trans ?_
    push_cast
    rw [← zpow_natCast, ← zpow_add₀ two_ne_zero]
    exact zpow_le_zpow_right₀ one_le_two (by push_cast; omega)
  have hlead : k = 0 ∨ (2 : ℚ) ^ f.fractionBits ≤ n / d := by
    rcases Nat.eq_zero_or_pos k with h | h
    · exact .inl h
    · right
      rw [hscale, zpow_neg, ← div_eq_mul_inv, le_div_iff₀ (by positivity)]
      refine le_trans ?_ hlower
      rw [← zpow_natCast, ← zpow_add₀ two_ne_zero]
      exact zpow_le_zpow_right₀ one_le_two (by omega)
  refine ⟨k, n, d, hpos, ?_, hlead, ⟨hlead.imp_right fun h => ?_, roundDiv_le hpos hless⟩, ?_⟩
  · rw [hscale, mul_assoc, ← zpow_natCast, ← zpow_add₀ two_ne_zero]
    congr 2
    omega
  · exact le_roundDiv hpos (by exact_mod_cast h)
  · rw [hround, hk, Int.toNat_natCast]

/-- No magnitude is nearer to a fraction than the one it is rounded to, whose last bit is zero in
a tie.  Distances are in units of the smallest number. -/
theorem roundRatio_nearest (hbits : 0 < f.fractionBits) (hden : 0 < den)
    (hfinite : roundRatio f num den < f.infinityMagnitude) (m : Nat) :
    |(f.units (roundRatio f num den) : ℚ) - num / den * 2 ^ (-f.minExponent)| ≤
        |(f.units m : ℚ) - num / den * 2 ^ (-f.minExponent)| ∧
      (|(f.units (roundRatio f num den) : ℚ) - num / den * 2 ^ (-f.minExponent)| =
          |(f.units m : ℚ) - num / den * 2 ^ (-f.minExponent)| →
        m = roundRatio f num den ∨ roundRatio f num den % 2 = 0) := by
  rcases Nat.eq_zero_or_pos num with rfl | hnum
  · have hzero : roundRatio f 0 den = 0 := if_pos rfl
    simp [hzero]
  obtain ⟨k, n, d, hd, hvalue, hlead, hfits, hround⟩ := exists_roundRatio f hnum hden
  rw [← hvalue]
  have hmagnitude : roundRatio f num den = k * 2 ^ f.fractionBits + roundDiv n d := by omega
  have hstep : (0 : ℚ) < 2 ^ k := by positivity
  -- Distances at the scale of the fraction are those of the mantissas.
  have hdistance : ∀ r : Nat, |((r * 2 ^ k : Nat) : ℚ) - n / d * 2 ^ k| =
      |(r : ℚ) - n / d| * 2 ^ k := by
    intro r
    push_cast
    rw [← sub_mul, abs_mul, abs_of_pos hstep]
  have hparity : roundDiv n d % 2 = 0 → roundRatio f num den % 2 = 0 := by
    intro heven
    obtain ⟨p, hp⟩ : ∃ p, f.fractionBits = p + 1 := ⟨_, (Nat.sub_add_cancel hbits).symm⟩
    rw [hmagnitude, hp, Nat.pow_succ, ← Nat.mul_assoc]
    omega
  have hunits : f.units (roundRatio f num den) = roundDiv n d * 2 ^ k := by
    rw [hmagnitude, FloatFormat.units_add hfits]
  rw [hunits, hdistance]
  obtain ⟨k', r', hm, hfits', hr'⟩ := f.exists_scale m
  have hunits' : f.units m = r' * 2 ^ k' := by rw [hm, FloatFormat.units_add hfits']
  rcases Nat.lt_or_ge k' k with hlower | hupper
  · -- A magnitude at a lower scale lies below the least one at the scale of the fraction.
    have hk : k ≠ 0 := by omega
    have hbelow : (f.units m : ℚ) < 2 ^ f.fractionBits * 2 ^ k := by
      rw [hm]
      exact_mod_cast FloatFormat.units_lt_of_scale_lt hfits' hr' hlower
    have hleast : (2 : ℚ) ^ f.fractionBits * 2 ^ k ≤ n / d * 2 ^ k := by
      gcongr
      exact hlead.resolve_left hk
    have hnearer := (roundDiv_nearest n hd (2 ^ f.fractionBits)).1
    have hstrict : |(roundDiv n d : ℚ) - n / d| * 2 ^ k <
        |(f.units m : ℚ) - n / d * 2 ^ k| := by
      calc |(roundDiv n d : ℚ) - n / d| * 2 ^ k
          ≤ |((2 ^ f.fractionBits : Nat) : ℚ) - n / d| * 2 ^ k := by gcongr
        _ = |((2 ^ f.fractionBits * 2 ^ k : Nat) : ℚ) - n / d * 2 ^ k| := (hdistance _).symm
        _ < |(f.units m : ℚ) - n / d * 2 ^ k| := by
          push_cast
          rw [abs_of_nonpos (by linarith), abs_of_neg (by linarith)]
          linarith
    exact ⟨hstrict.le, fun htie => absurd htie hstrict.ne⟩
  · -- Any other magnitude is a whole mantissa at that scale.
    obtain ⟨j, rfl⟩ := Nat.exists_eq_add_of_le hupper
    have hmultiple : f.units m = r' * 2 ^ j * 2 ^ k := by
      rw [hunits', Nat.pow_add]
      ring
    obtain ⟨hnearest, heven⟩ := roundDiv_nearest n hd (r' * 2 ^ j)
    rw [hmultiple, hdistance]
    refine ⟨by gcongr, fun htie => ?_⟩
    rcases heven (mul_right_cancel₀ hstep.ne' htie) with h | h
    · left
      refine f.units_strictMono.injective ?_
      rw [hmultiple, h, hunits]
    · exact .inr (hparity h)

/-- A fraction up to a power of two in the lower half of the exponents is rounded to a finite
number. -/
theorem roundRatio_lt_infinity (hden : 0 < den) {e : Nat} (hsize : (num / den : ℚ) ≤ 2 ^ e)
    (hroom : e + 1 < 2 ^ (f.exponentBits - 1)) : roundRatio f num den < f.infinityMagnitude := by
  have hpos := Nat.two_pow_pos f.fractionBits
  have hlevels : 2 ^ f.exponentBits = 2 * 2 ^ (f.exponentBits - 1) := by
    cases h : f.exponentBits with
    | zero =>
      rw [h] at hroom
      simp at hroom
    | succ p => rw [Nat.add_sub_cancel, Nat.pow_succ, Nat.mul_comm]
  rcases Nat.eq_zero_or_pos num with rfl | hnum
  · have hzero : roundRatio f 0 den = 0 := if_pos rfl
    rw [hzero]
    exact Nat.mul_pos (by omega) hpos
  obtain ⟨k, n, d, hd, hvalue, hlead, ⟨-, hfits⟩, hround⟩ := exists_roundRatio f hnum hden
  have hk : k + 2 < 2 ^ f.exponentBits - 1 := by
    rcases hlead with rfl | hlead
    · omega
    · have hle : (2 : ℚ) ^ ((k : ℤ) + f.fractionBits) ≤ 2 ^ ((e : ℤ) + -f.minExponent) := by
        rw [zpow_add₀ two_ne_zero, zpow_add₀ two_ne_zero, zpow_natCast, zpow_natCast, zpow_natCast]
        calc (2 : ℚ) ^ k * 2 ^ f.fractionBits ≤ 2 ^ k * (n / d) := by gcongr
          _ = num / den * 2 ^ (-f.minExponent) := by rw [← hvalue, mul_comm]
          _ ≤ 2 ^ e * 2 ^ (-f.minExponent) := by gcongr
      have hexponent := (zpow_le_zpow_iff_right₀ (one_lt_two : (1 : ℚ) < 2)).1 hle
      rw [FloatFormat.minExponent] at hexponent
      have hcast : ((2 ^ (f.exponentBits - 1) : Nat) : ℤ) = 2 ^ (f.exponentBits - 1) := by
        push_cast
        rfl
      rw [← hcast] at hexponent
      omega
  rw [hround]
  refine min_lt_of_right_lt ?_
  rw [Nat.pow_succ] at hfits
  calc k * 2 ^ f.fractionBits + roundDiv n d ≤ (k + 2) * 2 ^ f.fractionBits := by
        rw [Nat.add_mul]
        omega
    _ < f.infinityMagnitude := Nat.mul_lt_mul_of_pos_right hk hpos

end Binary

end SymbolicMachine
