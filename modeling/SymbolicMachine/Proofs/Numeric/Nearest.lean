import SymbolicMachine.Proofs.Numeric.Rounding
import SymbolicMachine.Proofs.Terms.Arithmetic
/-!
# Nearest numbers

A finite pattern denotes a rational number.  `Binary.Nearest` says of a pattern that no number of
its format is nearer to a rational number, and that its mantissa is even if another one is as
near: this is rounding to nearest, ties to even, said without the way it is computed.  The main
result is that a fraction becomes the nearest number.
-/
namespace SymbolicMachine

namespace FloatFormat

/-- The number of a magnitude. -/
def size (f : FloatFormat) (m : Nat) : ℚ := f.units m * 2 ^ f.minExponent

variable (f : FloatFormat)

theorem size_strictMono : StrictMono f.size := fun m n h => by
  have hunits := f.units_strictMono h
  unfold size
  gcongr

theorem size_nonneg (m : Nat) : 0 ≤ f.size m := by
  unfold size
  positivity

@[simp] theorem size_zero : f.size 0 = 0 := by simp [size]

end FloatFormat

namespace Unpacked

/-- The number that a reading denotes. -/
def value? : Unpacked → Option ℚ
  | finite negative mantissa exponent =>
    some (if negative then -(mantissa * 2 ^ exponent) else mantissa * 2 ^ exponent)
  | _ => none

def HasEvenMantissa : Unpacked → Prop
  | finite _ mantissa _ => mantissa % 2 = 0
  | _ => False

end Unpacked

namespace Binary

variable {f : FloatFormat}

def value? (b : Binary f) : Option ℚ := b.unpack.value?

/-- A number that is nearest to `x`, and has an even mantissa if another number is as near. -/
def Nearest (b : Binary f) (x : ℚ) : Prop :=
  ∃ v, b.value? = some v ∧ ∀ (c : Binary f) (w : ℚ), c.value? = some w →
    |v - x| ≤ |w - x| ∧ (|v - x| = |w - x| → w = v ∨ b.unpack.HasEvenMantissa)

/-! ## Values -/

/-- The number with a sign and a size. -/
def signed (negative : Bool) (x : ℚ) : ℚ := if negative then -x else x

theorem abs_signed_sub (negative : Bool) (x y : ℚ) :
    |signed negative x - signed negative y| = |x - y| := by
  cases negative
  · rfl
  · rw [signed, signed, if_pos rfl, if_pos rfl, neg_sub_neg, abs_sub_comm]

/-- Numbers of different signs are as far apart as their sizes add up to. -/
theorem abs_signed_sub_of_ne {s t : Bool} (h : s ≠ t) {x y : ℚ} (hx : 0 ≤ x) (hy : 0 ≤ y) :
    |signed s x - signed t y| = x + y := by
  rw [← abs_of_nonneg (add_nonneg hx hy)]
  cases s <;> cases t
  · exact absurd rfl h
  · rw [signed, signed, if_neg Bool.false_ne_true, if_pos rfl, sub_neg_eq_add]
  · rw [signed, signed, if_neg Bool.false_ne_true, if_pos rfl, ← neg_add', abs_neg]
  · exact absurd rfl h

theorem infinityMagnitude_le (f : FloatFormat) :
    f.infinityMagnitude ≤ 2 ^ (f.exponentBits + f.fractionBits) := by
  rw [Nat.pow_add]
  exact Nat.mul_le_mul_right _ (Nat.sub_le _ _)

/-- The reading of a pattern below infinity is its mantissa at its scale. -/
theorem exists_unpack {b : Binary f} (hbits : 0 < f.fractionBits)
    (h : b.magnitude < f.infinityMagnitude) :
    ∃ r k : Nat, b.unpack = .finite b.isNegative r (f.minExponent + k) ∧
      f.units b.magnitude = r * 2 ^ k ∧ r % 2 = b.magnitude % 2 := by
  have hpos := Nat.two_pow_pos f.fractionBits
  have hdiv := Nat.div_add_mod' b.magnitude (2 ^ f.fractionBits)
  have hexponent : b.magnitude / 2 ^ f.fractionBits ≠ 2 ^ f.exponentBits - 1 :=
    ((Nat.div_lt_iff_lt_mul hpos).2 h).ne
  obtain ⟨p, hp⟩ : ∃ p, f.fractionBits = p + 1 := ⟨_, (Nat.sub_add_cancel hbits).symm⟩
  have heven : 2 ^ f.fractionBits = 2 * 2 ^ p := by rw [hp, Nat.pow_succ, Nat.mul_comm]
  have hparity : b.magnitude % 2 ^ f.fractionBits % 2 = b.magnitude % 2 :=
    Nat.mod_mod_of_dvd _ ⟨_, heven⟩
  unfold unpack FloatFormat.units FloatFormat.scaleOf
  dsimp only
  rw [if_neg hexponent]
  split
  · rename_i hzero
    rw [hzero] at hdiv ⊢
    exact ⟨_, 0, by simp, by omega, hparity⟩
  · rename_i hnonzero
    obtain ⟨k, hk⟩ := Nat.exists_eq_succ_of_ne_zero hnonzero
    rw [hk] at hdiv ⊢
    refine ⟨b.magnitude % 2 ^ f.fractionBits + 2 ^ f.fractionBits, k, ?_, ?_, by omega⟩
    · congr 1
      push_cast
      ring
    · rw [Nat.succ_eq_add_one, Nat.add_sub_cancel]
      rw [Nat.succ_mul] at hdiv
      congr 1
      omega

/-- The finite patterns are those below infinity, and denote whole numbers of the smallest one. -/
theorem value?_eq_some_iff {b : Binary f} (hbits : 0 < f.fractionBits) {v : ℚ} :
    b.value? = some v ↔ b.magnitude < f.infinityMagnitude ∧
      v = signed b.isNegative (f.size b.magnitude) := by
  by_cases h : b.magnitude < f.infinityMagnitude
  · obtain ⟨r, k, hunpack, hunits, -⟩ := exists_unpack hbits h
    have hvalue : b.value? = some (signed b.isNegative (f.size b.magnitude)) := by
      rw [value?, hunpack, FloatFormat.size, hunits, Unpacked.value?, signed, zpow_add₀ two_ne_zero, zpow_natCast]
      push_cast
      have hassoc : (r : ℚ) * (2 ^ f.minExponent * 2 ^ k) = r * 2 ^ k * 2 ^ f.minExponent := by ring
      rw [hassoc]
    rw [hvalue, Option.some_inj]
    exact ⟨fun heq => ⟨h, heq.symm⟩, fun heq => heq.2.symm⟩
  · have hlt := b.magnitude_lt
    have htop : b.magnitude / 2 ^ f.fractionBits = 2 ^ f.exponentBits - 1 := by
      refine Nat.div_eq_of_lt_le (Nat.not_lt.1 h) ?_
      rw [Nat.sub_add_cancel (Nat.two_pow_pos _), ← Nat.pow_add]
      exact hlt
    refine ⟨fun hv => ?_, fun hv => absurd hv.1 h⟩
    unfold value? unpack at hv
    dsimp only at hv
    rw [if_pos htop] at hv
    split at hv <;> cases hv

theorem value?_ofMagnitude (hbits : 0 < f.fractionBits) (negative : Bool) {m : Nat}
    (hm : m < f.infinityMagnitude) :
    (ofMagnitude f negative m).value? = some (signed negative (f.size m)) := by
  have hfits := hm.trans_le (infinityMagnitude_le f)
  rw [value?_eq_some_iff hbits, magnitude_ofMagnitude _ hfits, isNegative_ofMagnitude _ hfits]
  exact ⟨hm, rfl⟩

theorem hasEvenMantissa_ofMagnitude (hbits : 0 < f.fractionBits) (negative : Bool) {m : Nat}
    (hm : m < f.infinityMagnitude) (heven : m % 2 = 0) :
    (ofMagnitude f negative m).unpack.HasEvenMantissa := by
  have hmagnitude := magnitude_ofMagnitude negative (hm.trans_le (infinityMagnitude_le f))
  obtain ⟨r, k, hunpack, -, hparity⟩ := exists_unpack (b := ofMagnitude f negative m) hbits
    (by rwa [hmagnitude])
  rw [hmagnitude] at hparity
  rw [hunpack]
  exact hparity.trans heven

/-! ## Rounding -/

/-- A fraction is rounded to the number that is nearest to it. -/
theorem nearest_ofRatio {num den : Nat} (hbits : 0 < f.fractionBits) (hden : 0 < den)
    (hfinite : roundRatio f num den < f.infinityMagnitude) (negative : Bool) :
    (ofRatio f negative num den).Nearest (signed negative (num / den)) := by
  set m := roundRatio f num den with hm
  have hvalue : (ofRatio f negative num den).value? = some (signed negative (f.size m)) :=
    value?_ofMagnitude hbits negative hfinite
  have hunit : (0 : ℚ) < 2 ^ f.minExponent := by positivity
  have hx : (num / den : ℚ) = num / den * 2 ^ (-f.minExponent) * 2 ^ f.minExponent := by
    rw [mul_assoc, ← zpow_add₀ two_ne_zero, neg_add_cancel, zpow_zero, mul_one]
  have hpos : (0 : ℚ) ≤ num / den * 2 ^ (-f.minExponent) := by positivity
  have hnearest := roundRatio_nearest hbits hden hfinite
  rw [← hm] at hnearest
  generalize (num / den * 2 ^ (-f.minExponent) : ℚ) = y at hx hpos hnearest
  have heven : m % 2 = 0 → (ofRatio f negative num den).unpack.HasEvenMantissa :=
    hasEvenMantissa_ofMagnitude hbits negative hfinite
  have hdistance : ∀ n : Nat, |f.size n - num / den| =
      |(f.units n : ℚ) - y| * 2 ^ f.minExponent := by
    intro n
    rw [FloatFormat.size, hx, ← sub_mul, abs_mul, abs_of_pos hunit]
  refine ⟨_, hvalue, fun c w hw => ?_⟩
  obtain ⟨-, rfl⟩ := (value?_eq_some_iff hbits).1 hw
  rw [abs_signed_sub, hdistance]
  by_cases hsign : c.isNegative = negative
  · obtain ⟨hle, htie⟩ := hnearest c.magnitude
    rw [hsign, abs_signed_sub, hdistance]
    refine ⟨by gcongr, fun h => ?_⟩
    rcases htie (mul_right_cancel₀ hunit.ne' h) with heq | h
    · exact .inl (by rw [heq])
    · exact .inr (heven h)
  · -- A number of the other sign is no nearer than zero.
    have hacross : |signed c.isNegative (f.size c.magnitude) - signed negative (num / den)| =
        (f.units c.magnitude + y) * 2 ^ f.minExponent := by
      rw [abs_signed_sub_of_ne hsign (f.size_nonneg _) (by positivity), hx, add_mul,
        FloatFormat.size]
    have hunits : (0 : ℚ) ≤ f.units c.magnitude := by positivity
    obtain ⟨hle, htie⟩ := hnearest 0
    rw [FloatFormat.units_zero, Nat.cast_zero, zero_sub, abs_neg, abs_of_nonneg hpos] at hle htie
    rw [hacross]
    refine ⟨by gcongr; linarith, fun h => ?_⟩
    have hzero : (f.units c.magnitude : ℚ) = 0 := by
      have := mul_right_cancel₀ hunit.ne' h
      linarith
    have hatzero : |(f.units m : ℚ) - y| = y := by
      rw [mul_right_cancel₀ hunit.ne' h, hzero, zero_add]
    rcases htie hatzero with heq | h
    · left
      rw [FloatFormat.size, hzero, ← heq, FloatFormat.size_zero, zero_mul]
      cases c.isNegative <;> cases negative <;> simp [signed]
    · exact .inr (heven h)

theorem signed_natAbs (n : Int) : signed (decide (n < 0)) (n.natAbs / (1 : Nat)) = n := by
  rw [Nat.cast_one, div_one, signed]
  rcases lt_or_ge n 0 with h | h
  · rw [if_pos (decide_eq_true h), Nat.cast_natAbs, abs_of_neg h]
    push_cast
    ring
  · rw [if_neg (by simpa using h), Nat.cast_natAbs, abs_of_nonneg h]

end Binary

end SymbolicMachine
