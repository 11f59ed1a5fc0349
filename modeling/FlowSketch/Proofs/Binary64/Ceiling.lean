import FlowSketch.Proofs.Binary64.Division

/-!
# FlowSketch.Proofs.Binary64.Ceiling

**How many rows a sketch can have.** The number of rows is the logarithm of one by a fraction, rounded
up. The quotient is infinite or a finite number above zero (`reciprocal_cases`). The largest finite
float is below `2 ^ 1024`, so its logarithm is at most 710, and the ceiling of a float that is at most
710 is so too (`ceilNat_le`). An infinite number of rows does not fit into a field of 32 bits.
-/

namespace FlowSketch.Binary64

open Float.Model (Format UnpackedFloat totalExponent)
open Float.Model.UnpackedFloat

/-- The float 710 is a significand of 53 bits. -/
theorem unpack_710 : (710.0 : Float).toModel.unpack =
    .finite .positive (710 * 2 ^ 43) (-43) (by decide) := rfl

/-- Of two positive floats the one that is no larger has a lower exponent, or no larger
significand. -/
theorem bounds_of_le {m n : Nat} {e f : Int} {hm : 0 < m} {hn : 0 < n}
    (h : UnpackedFloat.le (.finite .positive m e hm) (.finite .positive n f hn) = true) :
    e < f ∨ e = f ∧ m ≤ n := by
  have hcompare : ((compare e f).then (compare m n)).isLE = true := by
    simpa [UnpackedFloat.le, UnpackedFloat.compare] using h
  cases he : compare e f with
  | lt => exact .inl (Int.compare_eq_lt.mp he)
  | eq =>
      rw [he] at hcompare
      exact .inr ⟨Int.compare_eq_eq.mp he, Nat.isLE_compare.mp hcompare⟩
  | gt =>
      rw [he] at hcompare
      cases hcompare

/-- A negative float is cut to zero. -/
theorem toUInt64_negative {m : Nat} {e : Int} (hpos : 0 < m) :
    (UnpackedFloat.finite .negative m e hpos).toUInt64 = 0 := by
  change UInt64.ofNatClamp (-(((shiftToExponent (decreaseExponent m e 0).1
    (decreaseExponent m e 0).2 .exact 0).1.mantissa : Nat) : Int)).toNat = 0
  rw [Int.toNat_neg_natCast]
  rfl

/-- The whole part of a float that is at most 710. -/
theorem toNat_toUInt64_le {x : Float} (h : x ≤ 710.0) : x.toUInt64.toNat ≤ 710 := by
  have hle : UnpackedFloat.le x.toModel.unpack (710.0 : Float).toModel.unpack = true :=
    of_decide_eq_true h
  change x.toModel.unpack.toUInt64.toNat ≤ 710
  cases hx : x.toModel.unpack with
  | notANumber => decide
  | infinity sign =>
      rw [hx] at hle
      cases sign with
      | positive => cases hle
      | negative => decide
  | zero sign => exact Nat.zero_le _
  | finite sign m e hpos =>
      cases sign with
      | negative =>
          rw [toUInt64_negative]
          exact Nat.zero_le _
      | positive =>
          obtain ⟨hhigh, -, -⟩ := finite_bounds hx
          rw [hx, unpack_710] at hle
          have hvalue := bounds_of_le hle
          obtain ⟨down, rfl⟩ : ∃ down : Nat, e = (0 : Nat) - (down : Int) := ⟨(-e).toNat, by omega⟩
          have hcut : m * 2 ^ 0 / 2 ^ down ≤ 710 := by
            rw [Nat.pow_zero, Nat.mul_one]
            rcases hvalue with he | ⟨he, hm⟩
            · have hpow : 2 ^ 44 ≤ 2 ^ down := Nat.pow_le_pow_right (by decide) (by omega)
              calc m / 2 ^ down ≤ m / 2 ^ 44 := Nat.div_le_div_left hpow (by decide)
                _ ≤ 710 := by omega
            · obtain rfl : down = 43 := by omega
              omega
          rw [toNat_toUInt64 hpos (by omega)]
          exact hcut

/-- Nothing is both at most 710 and above it. -/
theorem not_lt_of_le {x : Float} (h : x ≤ 710.0) : ¬ (710.0 : Float) < x := by
  intro hlt
  have hle : UnpackedFloat.le x.toModel.unpack (710.0 : Float).toModel.unpack = true :=
    of_decide_eq_true h
  have hlt : UnpackedFloat.lt (710.0 : Float).toModel.unpack x.toModel.unpack = true :=
    of_decide_eq_true hlt
  cases hx : x.toModel.unpack with
  | notANumber =>
      rw [hx] at hle
      cases hle
  | infinity sign =>
      rw [hx] at hle hlt
      cases sign with
      | positive => cases hle
      | negative => cases hlt
  | zero sign =>
      rw [hx] at hlt
      cases hlt
  | finite sign m e hpos =>
      rw [hx] at hle hlt
      cases sign with
      | negative => cases hlt
      | positive =>
          rw [unpack_710] at hle hlt
          have hvalue := bounds_of_le hle
          have hcompare : (compare (-43) e).then (compare (710 * 2 ^ 43) m) = .lt := by
            simpa [UnpackedFloat.lt, UnpackedFloat.compare] using hlt
          rcases Ordering.then_eq_lt.mp hcompare with he | ⟨he, hm⟩
          · have := Int.compare_eq_lt.mp he
            omega
          · have := Int.compare_eq_eq.mp he
            have := Nat.compare_eq_lt.mp hm
            omega

/-- A float that is at most 710, rounded up. -/
theorem ceilNat_le {x : Float} (h : x ≤ 710.0) : ceilNat x ≤ 710 := by
  have hwhole := toNat_toUInt64_le h
  unfold ceilNat
  dsimp only
  split
  · rename_i hlt
    by_contra hmore
    have heq : x.toUInt64 = 710 := UInt64.toNat_inj.mp (show _ = 710 by omega)
    have hfloat : (710 : UInt64).toFloat = 710.0 := by decide +kernel
    rw [heq, hfloat] at hlt
    exact not_lt_of_le h hlt
  · exact hwhole

/-- One by a fraction is infinite, or a finite number above zero. -/
theorem reciprocal_cases {x : Float} (h : Accuracy.isFraction x = true) :
    1.0 / x = 1.0 / 0.0 ∨ 0.0 < 1.0 / x ∧ (1.0 / x).isFinite = true := by
  have hzero : (0.0 : Float).toModel.unpack = .zero .positive := rfl
  have hinfinite : (1.0 / 0.0 : Float).toModel.unpack = .infinity .positive := rfl
  rcases quotient_positive unpack_one (by decide) (by decide) (.inl rfl) h with
    hquotient | ⟨m, e, hpos, hquotient⟩
  · exact .inl (eq_of_unpack_eq (hquotient.trans hinfinite.symm))
  · have hlt : UnpackedFloat.lt (0.0 : Float).toModel.unpack (1.0 / x).toModel.unpack = true := by
      rw [hzero, hquotient]
      rfl
    have hfinite : (1.0 / x).toModel.unpack.isFinite = true := by
      rw [hquotient]
      rfl
    exact .inr ⟨decide_eq_true hlt, hfinite⟩

/-- The ceiling of infinity has more than 32 bits. -/
theorem maxWord32_lt_ceilNat : maxWord32 < ceilNat (1.0 / 0.0) := by decide +kernel

end FlowSketch.Binary64
