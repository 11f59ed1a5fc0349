import FlowSketch.Proofs.Binary64.Ceiling

/-!
# FlowSketch.Proofs.Binary64.Factor

**No factor between zero and one raises a count of 32 bits.** The product of a count and such a
factor is rounded twice, and either rounding may go up. Together they add less than one to a count
of 32 bits, and the way back to a whole number cuts that off (`scaleWord_le_of_factor`).

This covers every float of the interval, with both zeros at its lower end. Where the factor is so
small that the product may lose digits beyond those of a rounding, the product is far below one and
is cut to zero (`toUInt64_mul_tiny`).
-/

namespace FlowSketch.Binary64

open Float.Model (Format UnpackedFloat totalExponent)
open Float.Model.UnpackedFloat

/-! ### Floats below one -/

/-- A finite float below one is cut to zero, whatever its sign. -/
theorem toUInt64_below_one {sign : Sign} {m : Nat} {e : Int} (hpos : 0 < m) (hm : m < 2 ^ 53)
    (he : e ≤ -53) : (UnpackedFloat.finite sign m e hpos).toUInt64 = 0 := by
  cases sign with
  | negative => exact toUInt64_negative hpos
  | positive =>
      obtain ⟨down, rfl⟩ : ∃ down : Nat, e = (0 : Nat) - (down : Int) := ⟨(-e).toNat, by omega⟩
      have hpow : m < 2 ^ down := Nat.lt_of_lt_of_le hm (Nat.pow_le_pow_right (by decide) (by omega))
      have hzero : m * 2 ^ 0 / 2 ^ down = 0 := by
        rw [Nat.pow_zero, Nat.mul_one]
        exact Nat.div_eq_of_lt hpow
      rw [← UInt64.toNat_inj, toNat_toUInt64 hpos (by rw [hzero]; decide), hzero]
      rfl

/-- Fields with an exponent below that of one are cut to zero. -/
theorem toUInt64_packComponents {sign : Sign} {exponent : BitVec 11} (fraction : BitVec 52)
    (h : exponent.toNat ≤ 1022) :
    (unpack Format.binary64
      (packComponents Format.binary64 sign exponent fraction)).toUInt64 = 0 := by
  have hinf : exponent ≠ -1#_ := by
    rintro rfl
    exact absurd h (by decide)
  by_cases hsub : exponent = 0#_
  · subst hsub
    simp only [unpack, unpackMantissa_packComponents, unpackExponent_packComponents,
      unpackSign_packComponents]
    rw [if_neg hinf, if_pos trivial]
    split
    · rfl
    · exact toUInt64_below_one _ (Nat.lt_trans fraction.isLt (by decide)) (by decide)
  · rw [unpack_packComponents sign exponent fraction hinf hsub]
    have hfraction := fraction.isLt
    exact toUInt64_below_one _ (by rw [toNat_significand]; omega) (by omega)

/-- A float whose last place is so small that no significand makes up for it is cut to zero, also if
packing it loses digits. -/
theorem toUInt64_pack_tiny {sign : Sign} {m : Nat} {e : Int} (hpos : 0 < m) (he : e ≤ -53) :
    (unpack Format.binary64 (pack Format.binary64 (.finite sign m e hpos))).toUInt64 = 0 := by
  have hexponent : (BitVec.ofNat 11 (e + 1075).toNat).toNat ≤ 1022 := by
    rw [BitVec.toNat_ofNat]
    omega
  simp only [pack]
  rw [if_neg (exponent_in_range (by omega))]
  split
  · have hbias : e + Format.binary64.exponentBias + Format.binary64.mantissaBitsWithoutImplicit =
        e + 1075 := by
      change e + 1023 + 52 = e + 1075
      omega
    rw [hbias]
    exact toUInt64_packComponents _ hexponent
  · exact toUInt64_packComponents _ (by decide)

/-- The last place after a shift to the precision of the format. -/
theorem exponent_shiftToTargetExponent (m : Nat) (e : Int) (residue : UnpackedFloat.Accuracy) :
    (shiftToTargetExponent Format.binary64 m e residue).2 =
      max e (max (m.log2 + e - 52) (-1074)) := by
  change e + ((max ((m.log2 + 1 + e : Int) - 53) (-1074) - e).toNat : Int) = _
  omega

/-- Rounding moves the last place by little more than the length of the significand, so what is far
below one stays there. -/
theorem roundWithAccuracy_tiny (sign : Sign) {m : Nat} {e : Int} (hm : m < 2 ^ 106)
    (he : e ≤ -1000) :
    roundWithAccuracy Format.binary64 sign m e .exact = .zero sign ∨
      ∃ (r : Nat) (f : Int) (hr : 0 < r),
        roundWithAccuracy Format.binary64 sign m e .exact = .finite sign r f hr ∧ f ≤ -53 := by
  have hlog : m.log2 ≤ 105 := by
    rcases Nat.eq_zero_or_pos m with rfl | hpos
    · decide
    · exact Nat.le_of_lt_succ ((Nat.log2_lt (Nat.ne_of_gt hpos)).mpr hm)
  -- the place and the size of the significand after the first shift, and after the second
  have hplace := exponent_shiftToTargetExponent m e .exact
  have hsize : (shiftToTargetExponent Format.binary64 m e .exact).1.mantissa ≤ m := by
    unfold shiftToTargetExponent shiftToExponent
    rw [mantissa_shiftRight, mantissa_ofMantissaAndAccuracy]
    exact Nat.div_le_self ..
  generalize hfirst : shiftToTargetExponent Format.binary64 m e .exact = first at hplace hsize
  obtain ⟨em, place⟩ := first
  change place = _ at hplace
  change em.mantissa ≤ m at hsize
  have hrounded : em.roundedMantissa ≤ em.mantissa + 1 :=
    (roundToNearestEven_bounds em.mantissa em.accuracy).2
  have hlogRounded : em.roundedMantissa.log2 ≤ 106 := by
    rcases Nat.eq_zero_or_pos em.roundedMantissa with hzero | hpos
    · rw [hzero]
      decide
    · refine Nat.le_of_lt_succ ((Nat.log2_lt (Nat.ne_of_gt hpos)).mpr ?_)
      omega
  have hplaceLast := exponent_shiftToTargetExponent em.roundedMantissa place .exact
  generalize hlast : shiftToTargetExponent Format.binary64 em.roundedMantissa place .exact = last
    at hplaceLast
  unfold roundWithAccuracy
  simp only [hfirst, hlast]
  by_cases hzero : last.1.mantissa = 0
  · exact .inl (dif_pos hzero)
  · refine .inr ⟨last.1.mantissa, last.2, Nat.pos_of_ne_zero hzero, dif_neg hzero, ?_⟩
    omega

/-! ### Factors -/

/-- A float between zero and one is a zero, or a significand that its exponent keeps at or below
one. -/
theorem unpack_of_factor {factor : Float} (hlow : 0.0 ≤ factor) (hhigh : factor ≤ 1.0) :
    (∃ sign, factor.toModel.unpack = .zero sign) ∨
      ∃ (c d : Nat) (hpos : 0 < c), factor.toModel.unpack = .finite .positive c (-d) hpos ∧
        c < 2 ^ 53 ∧ c ≤ 2 ^ d := by
  have hlow' : UnpackedFloat.le (0.0 : Float).toModel.unpack factor.toModel.unpack = true :=
    of_decide_eq_true hlow
  have hhigh' : UnpackedFloat.le factor.toModel.unpack (1.0 : Float).toModel.unpack = true :=
    of_decide_eq_true hhigh
  have hzero : (0.0 : Float).toModel.unpack = .zero .positive := rfl
  rw [hzero] at hlow'
  rw [unpack_one] at hhigh'
  cases hfactor : factor.toModel.unpack with
  | notANumber =>
      rw [hfactor] at hlow'
      cases hlow'
  | zero sign => exact .inl ⟨sign, rfl⟩
  | infinity sign =>
      rw [hfactor] at hlow' hhigh'
      cases sign with
      | positive => cases hhigh'
      | negative => cases hlow'
  | finite sign c e hpos =>
      obtain ⟨hc, -, -⟩ := finite_bounds hfactor
      rw [hfactor] at hlow' hhigh'
      cases sign with
      | negative => cases hlow'
      | positive =>
          obtain ⟨d, rfl⟩ : ∃ d : Nat, e = -(d : Int) := by
            have hvalue := bounds_of_le hhigh'
            exact ⟨(-e).toNat, by omega⟩
          refine .inr ⟨c, d, hpos, rfl, hc, ?_⟩
          rcases bounds_of_le hhigh' with he | ⟨he, hle⟩
          · have hpow : 2 ^ 53 ≤ 2 ^ d := Nat.pow_le_pow_right (by decide) (by omega)
            exact Nat.le_trans (Nat.le_of_lt hc) hpow
          · obtain rfl : d = 52 := by omega
            exact hle

/-- A count times a factor far below one comes to nothing. -/
theorem toUInt64_mul_tiny {factor : Float} {c d : Nat} {hpos : 0 < c}
    (hfactor : factor.toModel.unpack = .finite .positive c (-d) hpos) (hc : c < 2 ^ 53)
    (hd : 1022 < d) {v : UInt64} (hv : v ≠ 0) : (v.toFloat * factor).toUInt64 = 0 := by
  obtain ⟨m, raised, lowered, hm, hcount, -, hmhigh, hraised, -, -, -⟩ := unpack_toFloat hv
  have hproduct : m * c < 2 ^ 106 :=
    calc m * c < 2 ^ 53 * 2 ^ 53 := Nat.mul_lt_mul'' hmhigh hc
      _ = 2 ^ 106 := (Nat.pow_add 2 53 53).symm
  change (unpack Format.binary64 (pack Format.binary64
    (mul Format.binary64 v.toFloat.toModel.unpack factor.toModel.unpack))).toUInt64 = 0
  rw [hcount, hfactor]
  show (unpack Format.binary64 (pack Format.binary64
    (roundWithAccuracy Format.binary64 .positive (m * c) _ .exact))).toUInt64 = 0
  rcases roundWithAccuracy_tiny .positive hproduct
    (show (raised : Int) - lowered + -d ≤ -1000 by omega) with hround | ⟨r, f, hr, hround, hf⟩
  · rw [hround]
    rfl
  · rw [hround]
    exact toUInt64_pack_tiny hr hf

/-- Both roundings together do not add one to a count of 32 bits. -/
theorem div_le_of_rounded {v a b : Nat} (hv : v < 2 ^ 32) (hb : 0 < b)
    (hupper : a * 2 ^ 104 ≤ v * b * (2 ^ 52 + 1) ^ 2) : a / b ≤ v := by
  apply Nat.le_of_lt_succ
  rw [Nat.div_lt_iff_lt_mul hb]
  apply Nat.lt_of_mul_lt_mul_right (a := 2 ^ 104)
  calc a * 2 ^ 104 ≤ v * b * (2 ^ 52 + 1) ^ 2 := hupper
    _ = b * (v * (2 ^ 52 + 1) ^ 2) := by ring
    _ < b * ((v + 1) * 2 ^ 104) := Nat.mul_lt_mul_of_pos_left (by omega) hb
    _ = (v + 1) * b * 2 ^ 104 := by ring

/-- A product with zero comes to nothing. -/
theorem toUInt64_mul_zero {x y : Float}
    (h : ∃ sign, mul Format.binary64 x.toModel.unpack y.toModel.unpack = .zero sign) :
    (x * y).toUInt64 = 0 := by
  obtain ⟨sign, hzero⟩ := h
  change (unpack Format.binary64 (pack Format.binary64
    (mul Format.binary64 x.toModel.unpack y.toModel.unpack))).toUInt64 = 0
  rw [hzero]
  cases sign <;> rfl

/-- A factor whose product with a count keeps the digits of its rounding raises no count of 32
bits. -/
theorem scaleWord_le_of_unpack {factor : Float} {c d : Nat} {hpos : 0 < c}
    (hfactor : factor.toModel.unpack = .finite .positive c (-d) hpos) (hc : c < 2 ^ 53)
    (hle : c ≤ 2 ^ d) (hd : d ≤ 1022) {v : UInt64} (hv : v.toNat < 2 ^ 32) (hzero : v ≠ 0) :
    Numerics.scaleWord factor v ≤ v := by
  obtain ⟨m, up, down, hm, hmul, hupper, -⟩ := unpack_count_mul hfactor hc hd hzero
  have hcut : m * 2 ^ up / 2 ^ down ≤ v.toNat := by
    apply div_le_of_rounded hv (Nat.two_pow_pos _)
    apply Nat.le_of_mul_le_mul_right (c := 2 ^ d) _ (Nat.two_pow_pos d)
    calc m * 2 ^ up * 2 ^ 104 * 2 ^ d = m * 2 ^ up * 2 ^ (104 + d) := by ring
      _ ≤ v.toNat * 2 ^ down * (c * (2 ^ 52 + 1) ^ 2) := hupper
      _ ≤ v.toNat * 2 ^ down * (2 ^ d * (2 ^ 52 + 1) ^ 2) :=
          Nat.mul_le_mul_left _ (Nat.mul_le_mul_right _ hle)
      _ = v.toNat * 2 ^ down * (2 ^ 52 + 1) ^ 2 * 2 ^ d := by ring
  have hscaled : (Numerics.scaleWord factor v).toNat = m * 2 ^ up / 2 ^ down := by
    rw [← toNat_toUInt64 hm (by omega), ← hmul]
    rfl
  rw [UInt64.le_iff_toNat_le, hscaled]
  exact hcut

/-- A factor between zero and one raises no count of 32 bits. -/
theorem scaleWord_le_of_factor {factor : Float} (hlow : 0.0 ≤ factor) (hhigh : factor ≤ 1.0)
    {v : UInt64} (hv : v.toNat < 2 ^ 32) : Numerics.scaleWord factor v ≤ v := by
  have hzeroFloat : (0 : UInt64).toFloat.toModel.unpack = .zero .positive := rfl
  rcases unpack_of_factor hlow hhigh with ⟨sign, hfactor⟩ | ⟨c, d, hpos, hfactor, hc, hle⟩
  · rw [Numerics.scaleWord, toUInt64_mul_zero]
    · exact UInt64.zero_le
    · by_cases hvzero : v = 0
      · subst hvzero
        exact ⟨_, by rw [hfactor, hzeroFloat]; rfl⟩
      · obtain ⟨m, raised, lowered, hm, hcount, -⟩ := unpack_toFloat hvzero
        exact ⟨_, by rw [hfactor, hcount]; rfl⟩
  · by_cases hvzero : v = 0
    · subst hvzero
      rw [Numerics.scaleWord, toUInt64_mul_zero ⟨_, by rw [hfactor, hzeroFloat]; rfl⟩]
      exact UInt64.le_refl _
    · by_cases hd : d ≤ 1022
      · exact scaleWord_le_of_unpack hfactor hc hle hd hv hvzero
      · rw [Numerics.scaleWord, toUInt64_mul_tiny hfactor hc (Nat.lt_of_not_le hd) hvzero]
        exact UInt64.zero_le

end FlowSketch.Binary64
