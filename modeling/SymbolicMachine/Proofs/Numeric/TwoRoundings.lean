import Mathlib.Tactic.LinearCombination
import SymbolicMachine.Proofs.Numeric.Nearest
/-!
# Rounding twice

A long becomes a float in two roundings, by way of the 64-bit format.  Each of them is to nearest,
but together they are not: the first may move the long into the middle between two floats, and the
second decides that tie without knowing from which side the long came.  The main result says that
this is the only way to miss the nearest float.  It rests on two facts about the formats: between
two floats there is always a next one, and the middle of two floats in a row is a double.
-/
namespace SymbolicMachine

/-! ## Nearer on a line -/

section Line

variable {v w w' n u : ℚ}

theorem abs_sub_le_iff_le_middle (h : w < w') : |w - v| ≤ |w' - v| ↔ v ≤ (w + w') / 2 := by
  rw [← sq_le_sq]
  have hdifference : (w' - v) ^ 2 - (w - v) ^ 2 = (w' - w) * (2 * ((w + w') / 2 - v)) := by ring
  rw [← sub_nonneg, hdifference, mul_nonneg_iff_of_pos_left (sub_pos.2 h),
    mul_nonneg_iff_of_pos_left two_pos, sub_nonneg]

theorem abs_sub_le_iff_middle_le (h : w < w') : |w' - v| ≤ |w - v| ↔ (w + w') / 2 ≤ v := by
  rw [← sq_le_sq]
  have hdifference : (w - v) ^ 2 - (w' - v) ^ 2 = (w' - w) * (2 * (v - (w + w') / 2)) := by ring
  rw [← sub_nonneg, hdifference, mul_nonneg_iff_of_pos_left (sub_pos.2 h),
    mul_nonneg_iff_of_pos_left two_pos, sub_nonneg]

/-- `n` is rounded to `v` and `v` to `w`, below its neighbour `w'`.  If the first rounding could
have chosen the middle of the neighbours, and a tie of the second is decided as `n` demands, then
nothing from the neighbour on is nearer to `n`. -/
theorem nearest_of_neighbour_above (hlt : w < w') (hle : w' ≤ u)
    (hfirst : |v - n| ≤ |(w + w') / 2 - n|) (hsecond : |w - v| ≤ |w' - v|)
    (htie : |w' - v| = |w - v| → |w - n| ≤ |w' - n|) :
    |w - n| ≤ |u - n| ∧ (|w - n| = |u - n| → |w - v| = |w' - v|) := by
  have hv : v ≤ (w + w') / 2 := (abs_sub_le_iff_le_middle hlt).1 hsecond
  -- Where `n` is not below the middle, the first rounding hits the middle.
  have hmiddle : (w + w') / 2 ≤ n → |w - v| = |w' - v| := by
    intro hn
    rw [abs_of_nonpos (by linarith), abs_of_nonpos (by linarith)] at hfirst
    exact hsecond.antisymm ((abs_sub_le_iff_middle_le hlt).2 (by linarith))
  have hn : n ≤ (w + w') / 2 := by
    refine le_of_not_gt fun hgt => ?_
    have := (abs_sub_le_iff_le_middle hlt).1 (htie (hmiddle hgt.le).symm)
    linarith
  have hwu : w < u := hlt.trans_le hle
  refine ⟨(abs_sub_le_iff_le_middle hwu).2 (by linarith), fun heq => hmiddle ?_⟩
  have := (abs_sub_le_iff_middle_le hwu).1 heq.ge
  linarith

theorem nearest_of_neighbour (hbetween : w < w' ∧ w' ≤ u ∨ u ≤ w' ∧ w' < w)
    (hfirst : |v - n| ≤ |(w + w') / 2 - n|) (hsecond : |w - v| ≤ |w' - v|)
    (htie : |w' - v| = |w - v| → |w - n| ≤ |w' - n|) :
    |w - n| ≤ |u - n| ∧ (|w - n| = |u - n| → |w - v| = |w' - v|) := by
  rcases hbetween with ⟨hlt, hle⟩ | ⟨hle, hlt⟩
  · exact nearest_of_neighbour_above hlt hle hfirst hsecond htie
  · -- The line is turned around.
    have hturn : ∀ x y : ℚ, |-x - -y| = |x - y| := fun x y => by
      rw [neg_sub_neg, abs_sub_comm]
    have hhalf : (-w + -w') / 2 = -((w + w') / 2) := by ring
    have := nearest_of_neighbour_above (v := -v) (n := -n) (neg_lt_neg hlt) (neg_le_neg hle)
    simp only [hhalf, hturn] at this
    exact this hfirst hsecond htie

end Line

namespace Binary

theorem value?_neg {f : FloatFormat} (hbits : 0 < f.fractionBits) {b : Binary f} {v : ℚ}
    (h : b.value? = some v) : b.neg.value? = some (-v) := by
  obtain ⟨hm, rfl⟩ := (value?_eq_some_iff hbits).1 h
  rw [neg, value?_ofMagnitude hbits _ hm]
  cases b.isNegative <;> simp [signed]

theorem exists_size_eq_abs {f : FloatFormat} (hbits : 0 < f.fractionBits) {b : Binary f} {v : ℚ}
    (h : b.value? = some v) : ∃ m < f.infinityMagnitude, f.size m = |v| := by
  obtain ⟨hm, rfl⟩ := (value?_eq_some_iff hbits).1 h
  refine ⟨_, hm, ?_⟩
  cases b.isNegative <;> simp [signed, abs_of_nonneg (f.size_nonneg _)]

/-! ## The formats -/

theorem fractionBits_single_pos : 0 < FloatFormat.single.fractionBits := by decide

theorem fractionBits_double_pos : 0 < FloatFormat.double.fractionBits := by decide

/-- The middle of two floats in a row is a double. -/
theorem exists_middle {m : Nat} (hm : m + 1 < FloatFormat.single.infinityMagnitude)
    (negative : Bool) :
    ∃ d : Binary .double, d.value? =
      some (signed negative ((FloatFormat.single.size m + FloatFormat.single.size (m + 1)) / 2)) := by
  obtain ⟨k, r, rfl, hr, hunits, hnext⟩ := FloatFormat.single.exists_units_succ m
  change k * 2 ^ 23 + r + 1 < 255 * 2 ^ 23 at hm
  change r < 2 ^ 24 at hr
  obtain ⟨j, hj⟩ : ∃ j, j = k + 924 := ⟨_, rfl⟩
  obtain ⟨m', hm', hmiddle⟩ :=
    FloatFormat.exists_units_eq (f := .double) (show 2 * r + 1 < 2 ^ 53 by omega) j
  have hfinite : m' < FloatFormat.double.infinityMagnitude := by
    refine hm'.trans_le (Nat.mul_le_mul_right _ ?_)
    rw [show FloatFormat.double.exponentBits = 11 from rfl]
    omega
  refine ⟨ofMagnitude .double negative m', ?_⟩
  rw [value?_ofMagnitude fractionBits_double_pos negative hfinite, FloatFormat.size,
    FloatFormat.size, FloatFormat.size, hmiddle, hunits, hnext]
  -- The smallest double is `2 ^ 925` times smaller than the smallest float.
  have hscale : (2 : ℚ) ^ j * 2 ^ FloatFormat.double.minExponent * 2 =
      2 ^ k * 2 ^ FloatFormat.single.minExponent := by
    rw [← zpow_natCast, ← zpow_natCast, ← zpow_add₀ two_ne_zero, ← zpow_add_one₀ two_ne_zero,
      ← zpow_add₀ two_ne_zero]
    congr 1
    rw [hj, show FloatFormat.double.minExponent = -1074 from rfl,
      show FloatFormat.single.minExponent = -149 from rfl]
    push_cast
    ring
  congr 2
  rw [eq_div_iff two_ne_zero]
  push_cast
  linear_combination (2 * (r : ℚ) + 1) * hscale

/-- Above a float that is not the greatest there is a next one, with a double in the middle. -/
theorem exists_next {b c : Binary .single} {v w : ℚ} (hb : b.value? = some v)
    (hc : c.value? = some w) (h : v < w) :
    ∃ (b' : Binary .single) (v' : ℚ), b'.value? = some v' ∧ v < v' ∧ v' ≤ w ∧
      ∃ d : Binary .double, d.value? = some ((v + v') / 2) := by
  have hmono := FloatFormat.single.size_strictMono
  obtain ⟨m, hm, hv⟩ := exists_size_eq_abs fractionBits_single_pos hb
  obtain ⟨n, hn, hw⟩ := exists_size_eq_abs fractionBits_single_pos hc
  rcases le_or_gt 0 v with hsign | hsign
  · -- From zero on, the next float has the next magnitude.
    rw [abs_of_nonneg hsign] at hv
    rw [abs_of_pos (hsign.trans_lt h)] at hw
    have hmn : m < n := hmono.lt_iff_lt.1 (by rwa [hv, hw])
    have hfinite : m + 1 < FloatFormat.single.infinityMagnitude := hn.trans_le' hmn
    have hmiddle := exists_middle hfinite false
    rw [signed, if_neg Bool.false_ne_true, hv] at hmiddle
    refine ⟨_, _, value?_ofMagnitude fractionBits_single_pos false hfinite, ?_, ?_, hmiddle⟩
    · exact hv.symm.trans_lt (hmono (Nat.lt_succ_self m))
    · exact (hmono.monotone hmn).trans_eq hw
  · -- Below zero, it has the magnitude before.
    rw [abs_of_neg hsign] at hv
    obtain ⟨m, rfl⟩ : ∃ k, m = k + 1 := by
      refine Nat.exists_eq_succ_of_ne_zero fun hzero => ?_
      rw [hzero, FloatFormat.size_zero] at hv
      linarith
    have hmiddle := exists_middle hm true
    have hnegated : signed true ((FloatFormat.single.size m + FloatFormat.single.size (m + 1)) / 2) =
        (v + signed true (FloatFormat.single.size m)) / 2 := by
      rw [hv, signed, signed, if_pos rfl, if_pos rfl]
      ring
    rw [hnegated] at hmiddle
    refine ⟨_, _, value?_ofMagnitude fractionBits_single_pos true (Nat.lt_of_succ_lt hm), ?_, ?_,
      hmiddle⟩
    · have := hmono (Nat.lt_succ_self m)
      rw [signed, if_pos rfl]
      linarith
    · have hsize := FloatFormat.single.size_nonneg m
      rw [signed, if_pos rfl]
      rcases le_or_gt 0 w with hw' | hw'
      · linarith
      · rw [abs_of_neg hw'] at hw
        have hnm : n < m + 1 := hmono.lt_iff_lt.1 (by linarith)
        have := hmono.monotone (Nat.lt_succ_iff.1 hnm)
        linarith

/-- On the way from a float to another there is a neighbour, with a double in the middle. -/
theorem exists_neighbour {b c : Binary .single} {v w : ℚ} (hb : b.value? = some v)
    (hc : c.value? = some w) (h : w ≠ v) :
    ∃ (b' : Binary .single) (v' : ℚ), b'.value? = some v' ∧ v' ≠ v ∧
      (v < v' ∧ v' ≤ w ∨ w ≤ v' ∧ v' < v) ∧
        ∃ d : Binary .double, d.value? = some ((v + v') / 2) := by
  rcases lt_or_gt_of_ne h with hlt | hlt
  · obtain ⟨b', v', hb', hbelow, hle, d, hd⟩ := exists_next (value?_neg fractionBits_single_pos hb)
      (value?_neg fractionBits_single_pos hc) (neg_lt_neg hlt)
    have hmiddle : (v + -v') / 2 = -((-v + v') / 2) := by ring
    refine ⟨b'.neg, -v', value?_neg fractionBits_single_pos hb', by linarith, .inr ⟨?_, ?_⟩,
      d.neg, ?_⟩
    · linarith
    · linarith
    · rw [hmiddle]
      exact value?_neg fractionBits_double_pos hd
  · obtain ⟨b', v', hb', hbelow, hle, hmiddle⟩ := exists_next hb hc hlt
    exact ⟨b', v', hb', hbelow.ne', .inl ⟨hbelow, hle⟩, hmiddle⟩

/-! ## The two roundings -/

/-- The double nearest to an integer of at most 64 bits. -/
theorem nearest_ofInt {n : Int} (h : |n| ≤ 2 ^ 63) : (ofInt .double n).Nearest n := by
  rw [← signed_natAbs n]
  refine nearest_ofRatio fractionBits_double_pos Nat.one_pos ?_ _
  refine roundRatio_lt_infinity (e := 63) Nat.one_pos ?_ (by decide)
  rw [Nat.cast_one, div_one, Nat.cast_natAbs]
  exact_mod_cast h

/-- The float nearest to a double that is not too great. -/
theorem nearest_toFormat {x : Binary .double} {v : ℚ} (hx : x.value? = some v)
    (h : |v| ≤ 2 ^ 64) : (x.toFormat .single).Nearest v := by
  unfold value? at hx
  cases hunpack : x.unpack with
  | infinite negative =>
    rw [hunpack] at hx
    cases hx
  | nan =>
    rw [hunpack] at hx
    cases hx
  | finite negative mantissa exponent =>
    rw [hunpack] at hx
    have hden := Numeric.scale_den_pos mantissa Nat.one_pos exponent
    have hscale := Numeric.scale_eq mantissa 1 exponent
    have hformat : x.toFormat .single = ofRatio .single negative
        (Numeric.scale mantissa 1 exponent).1 (Numeric.scale mantissa 1 exponent).2 := by
      unfold toFormat
      rw [hunpack]
      rfl
    rw [Nat.cast_one, div_one] at hscale
    have hv : v = signed negative (mantissa * 2 ^ exponent) := (Option.some.inj hx).symm
    have hsize : (mantissa * 2 ^ exponent : ℚ) ≤ 2 ^ 64 := by
      refine le_trans (le_of_eq ?_) h
      rw [hv]
      have hpos : (0 : ℚ) ≤ mantissa * 2 ^ exponent := by positivity
      cases negative <;> simp [signed, abs_of_nonneg hpos]
    rw [hformat, hv, ← hscale]
    refine nearest_ofRatio fractionBits_single_pos hden ?_ negative
    exact roundRatio_lt_infinity (e := 64) hden (hscale.trans_le hsize) (by decide)

theorem Nearest.le {f : FloatFormat} {b c : Binary f} {x v w : ℚ} (h : b.Nearest x)
    (hb : b.value? = some v) (hc : c.value? = some w) : |v - x| ≤ |w - x| := by
  obtain ⟨v', hv', hnearest⟩ := h
  obtain rfl : v' = v := Option.some.inj (hv'.symm.trans hb)
  exact (hnearest c w hc).1

theorem Nearest.even {f : FloatFormat} {b c : Binary f} {x v w : ℚ} (h : b.Nearest x)
    (hb : b.value? = some v) (hc : c.value? = some w) (htie : |v - x| = |w - x|) (hne : w ≠ v) :
    b.unpack.HasEvenMantissa := by
  obtain ⟨v', hv', hnearest⟩ := h
  obtain rfl : v' = v := Option.some.inj (hv'.symm.trans hb)
  exact ((hnearest c w hc).2 htie).resolve_left hne

/-- Two roundings give the nearest float unless the second decides a tie against the number. -/
theorem nearest_of_twice {x : Binary .double} {b : Binary .single} {n v w : ℚ}
    (hx : x.value? = some v) (hb : b.value? = some w) (hxn : x.Nearest n) (hbv : b.Nearest v) :
    b.Nearest n ↔ ¬ ∃ (c : Binary .single) (u : ℚ), c.value? = some u ∧ u ≠ w ∧
      |u - v| = |w - v| ∧ |u - n| < |w - n| := by
  constructor
  · rintro hbn ⟨c, u, hc, -, -, hnearer⟩
    exact hnearer.not_ge (hbn.le hb hc)
  · intro hfree
    refine ⟨w, hb, fun c u hc => ?_⟩
    rcases eq_or_ne u w with rfl | hne
    · exact ⟨le_refl _, fun _ => .inl rfl⟩
    obtain ⟨b', w', hb', hne', hbetween, d, hd⟩ := exists_neighbour hb hc hne
    have htie : |w' - v| = |w - v| → |w - n| ≤ |w' - n| := fun heq =>
      le_of_not_gt fun hgt => hfree ⟨b', w', hb', hne', heq, hgt⟩
    obtain ⟨hle, heq⟩ :=
      nearest_of_neighbour hbetween (hxn.le hx hd) (hbv.le hb hb') htie
    exact ⟨hle, fun h => .inr (hbv.even hb hb' (heq h) hne')⟩

end Binary

namespace Constant

/-- A long becomes the double nearest to it, and that double the float nearest to it.  The float is
nearest to the long itself exactly if no other float is as near to the double and nearer to the
long. -/
theorem long_becomes_float_in_two_roundings (n : Int64) :
    ∃ (x : Binary .double) (b : Binary .single) (v w : ℚ),
      (long n).convert .double = .ok (double x) ∧ (long n).convert .float = .ok (float b) ∧
      x.value? = some v ∧ b.value? = some w ∧ x.Nearest n.toInt ∧ b.Nearest v ∧
      (b.Nearest n.toInt ↔ ¬ ∃ (c : Binary .single) (u : ℚ), c.value? = some u ∧ u ≠ w ∧
        |u - v| = |w - v| ∧ |u - n.toInt| < |w - n.toInt|) := by
  have hn : |n.toInt| ≤ 2 ^ 63 :=
    abs_le.2 ⟨Int64.le_toInt n, (Int64.toInt_lt n).le⟩
  have hxn := Binary.nearest_ofInt hn
  obtain ⟨v, hx, -⟩ := id hxn
  have hv : |v| ≤ 2 ^ 64 := by
    have hzero : (Binary.zero .double).value? = some 0 := by decide +kernel
    have hle := hxn.le hx hzero
    have hn' : |(n.toInt : ℚ)| ≤ 2 ^ 63 := by exact_mod_cast hn
    rw [zero_sub, abs_neg] at hle
    calc |v| ≤ |v - n.toInt| + |(n.toInt : ℚ)| := by
          simpa using abs_add_le (v - n.toInt) n.toInt
      _ ≤ 2 ^ 63 + 2 ^ 63 := by linarith
      _ = 2 ^ 64 := by norm_num
  have hbv := Binary.nearest_toFormat hx hv
  obtain ⟨w, hb, -⟩ := id hbv
  exact ⟨_, _, v, w, rfl, rfl, hx, hb, hxn, hbv, Binary.nearest_of_twice hx hb hxn hbv⟩

/-- `2 ^ 60 + 2 ^ 36 + 1` lies above the middle of two floats.  Its last bit is lost in the double,
and then the tie is decided for the float below. -/
theorem long_above_middle_misses_nearest_float :
    ¬ ∃ b : Binary .single, (long 1152921573326323713).convert .float = .ok (float b) ∧
      b.Nearest 1152921573326323713 := by
  rintro ⟨b, hb, hnearest⟩
  have hconvert : (long 1152921573326323713).convert .float =
      .ok (float (Binary.ofMagnitude .single false 0x5d800000)) := by decide +kernel
  obtain rfl : Binary.ofMagnitude .single false 0x5d800000 = b :=
    Constant.float.inj (Except.ok.inj (hconvert.symm.trans hb))
  have hlow : (Binary.ofMagnitude .single false 0x5d800000).value? =
      some 1152921504606846976 := by decide +kernel
  have hhigh : (Binary.ofMagnitude .single false 0x5d800001).value? =
      some 1152921642045800448 := by decide +kernel
  have hle := hnearest.le hlow hhigh
  norm_num at hle

end Constant

end SymbolicMachine
