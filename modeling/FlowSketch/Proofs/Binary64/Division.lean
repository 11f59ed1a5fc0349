import FlowSketch.Proofs.Binary64.Scaling

/-!
# FlowSketch.Proofs.Binary64.Division

**A quotient by a fraction is no smaller than what is divided.** The numbers of rows and columns are
found from two such quotients, one by a fraction and the base of the natural logarithm by a fraction.
The significand of such a quotient is rounded as that of a normal float, so it loses at most one unit
in the last place and does not vanish; where the fraction is so small that the quotient overflows, it
is infinite (`quotient_bounds`).
-/

namespace FlowSketch.Binary64

open Float.Model (Format UnpackedFloat totalExponent)
open Float.Model.UnpackedFloat

/-- A finite pattern has a significand of at most 53 bits; if it has fewer, it is at the low end of
the exponents. -/
theorem finite_bounds {b : Pattern} {sign : Sign} {m : Nat} {e : Int} {hpos : 0 < m}
    (h : unpack Format.binary64 b = .finite sign m e hpos) :
    m < 2 ^ 53 ∧ -1074 ≤ e ∧ (2 ^ 52 ≤ m ∨ e = -1074) := by
  rw [← packComponents_fields b] at h
  have hfraction : (fractionOf b).toNat < 2 ^ 52 := (fractionOf b).isLt
  by_cases hinf : exponentOf b = -1#_
  · simp only [unpack, unpackMantissa_packComponents, unpackExponent_packComponents] at h
    rw [if_pos hinf] at h
    split at h <;> cases h
  · by_cases hsub : exponentOf b = 0#_
    · simp only [unpack, unpackMantissa_packComponents, unpackExponent_packComponents] at h
      rw [if_neg hinf, if_pos hsub] at h
      split at h
      · cases h
      · cases h
        rw [hsub]
        exact ⟨Nat.lt_trans hfraction (by decide), by decide, .inr (by decide)⟩
    · rw [unpack_packComponents _ _ _ hinf hsub] at h
      cases h
      have hexponent : (exponentOf b).toNat ≠ 0 := fun heq => hsub (BitVec.eq_of_toNat_eq heq)
      rw [toNat_significand]
      exact ⟨by omega, by omega, .inl (by omega)⟩

theorem unpack_one : (1.0 : Float).toModel.unpack =
    .finite .positive (2 ^ 52) (-52) (by decide) := rfl

/-- The significand and the last place of a fraction. -/
theorem fraction_bounds {x : Float} (h : Accuracy.isFraction x = true) :
    ∃ (m : Nat) (e : Int) (hpos : 0 < m), x.toModel.unpack = .finite .positive m e hpos ∧
      m < 2 ^ 53 ∧ -1074 ≤ e ∧ e ≤ -53 := by
  obtain ⟨m, e, hpos, hx⟩ := unpack_of_isFraction h
  obtain ⟨hhigh, helow, hnormal⟩ := finite_bounds hx
  refine ⟨m, e, hpos, hx, hhigh, helow, ?_⟩
  rw [Accuracy.isFraction, Bool.and_eq_true, decide_eq_true_eq, decide_eq_true_eq] at h
  have hlt : UnpackedFloat.lt x.toModel.unpack (1.0 : Float).toModel.unpack = true :=
    of_decide_eq_true h.2
  rw [hx, unpack_one] at hlt
  have hcompare : (compare e (-52)).then (compare m (2 ^ 52)) = .lt := by
    simpa [UnpackedFloat.lt, UnpackedFloat.compare] using hlt
  -- with the exponent of one, a smaller significand would not be normal
  rcases Ordering.then_eq_lt.mp hcompare with he | ⟨he, hm⟩
  · have := Int.compare_eq_lt.mp he
    omega
  · have := Int.compare_eq_eq.mp he
    have := Nat.compare_eq_lt.mp hm
    omega

/-! ### The quotient -/

/-- Above zero, and a number. -/
def Positive (x : UnpackedFloat) : Prop :=
  x = .infinity .positive ∨ ∃ (m : Nat) (e : Int) (hpos : 0 < m), x = .finite .positive m e hpos

/-- A significand of 53 bits that is packed is kept, or it overflows. -/
theorem unpack_pack_rounded {m : Nat} {e : Int} (hpos : 0 < m) (hlow : 2 ^ 52 ≤ m)
    (hhigh : m < 2 ^ 53) (helow : -1074 ≤ e) :
    unpack Format.binary64 (pack Format.binary64 (.finite .positive m e hpos)) =
        .infinity .positive ∨
      unpack Format.binary64 (pack Format.binary64 (.finite .positive m e hpos)) =
        .finite .positive m e hpos := by
  by_cases hehigh : e ≤ 971
  · exact .inr (unpack_pack_normal .positive hpos hlow hhigh helow hehigh)
  · have hover : 2 ^ Format.binary64.exponentBits ≤
        (e + Format.binary64.exponentBias + Format.binary64.mantissaBitsWithoutImplicit).toNat + 1 := by
      change 2048 ≤ (e + 1023 + 52).toNat + 1
      omega
    left
    simp only [pack]
    rw [if_pos hover]
    rfl

theorem unpack_euler : Accuracy.euler.toModel.unpack =
    .finite .positive 6121026514868073 (-51) (by decide) := rfl

/-- A float between one and four by a fraction is infinite, or it has a significand of 53 bits and is
no smaller than the float, but for one unit in the last place. -/
theorem quotient_bounds {a x : Float} {n : Nat} {f : Int} {hn : 0 < n}
    (ha : a.toModel.unpack = .finite .positive n f hn) (hnlow : 2 ^ 52 ≤ n) (hnhigh : n < 2 ^ 53)
    (hf : f = -52 ∨ f = -51) (h : Accuracy.isFraction x = true) :
    (a / x).toModel.unpack = .infinity .positive ∨
      ∃ (m : Nat) (e : Int) (hpos : 0 < m), (a / x).toModel.unpack = .finite .positive m e hpos ∧
        2 ^ 52 ≤ m ∧ (f < e ∨ e = f ∧ n ≤ m + 1) := by
  obtain ⟨m, e, hpos, hx, hhigh, helow, hehigh⟩ := fraction_bounds h
  have hlog : m.log2 ≤ 52 := by
    have := (Nat.log2_lt (Nat.ne_of_gt hpos)).mpr hhigh
    omega
  have hnLog : Nat.log2 n = 52 :=
    (Nat.log2_eq_iff (Nat.ne_of_gt hn)).mpr ⟨hnlow, hnhigh⟩
  -- the quotient is taken one bit further than the significand of the fraction is long
  have htarget : min (f - e) (Format.binary64.targetExponent
      (totalExponent n f - totalExponent m e)) = f - 1 - m.log2 - e := by
    change min (f - e) (max ((Nat.log2 n + 1 + f - (m.log2 + 1 + e) : Int) - 53) (-1074)) = _
    rw [hnLog]
    omega
  have hamount : (f - e - (f - 1 - m.log2 - e)).toNat = m.log2 + 1 := by omega
  have hlow : n ≤ n * 2 ^ (m.log2 + 1) / m := by
    rw [Nat.le_div_iff_mul_le hpos]
    exact Nat.mul_le_mul_left n (Nat.le_of_lt Nat.lt_log2_self)
  have hcore : divCore Format.binary64 n f m e =
      (n * 2 ^ (m.log2 + 1) / m, f - 1 - m.log2 - e,
        accuracyOfFraction (n * 2 ^ (m.log2 + 1) % m) m) := by
    unfold divCore
    simp only [htarget, hamount, Nat.shiftLeft_eq]
  obtain ⟨rounded, raised, hrounded, hround, hrlow, hrhigh, -, -, hrlower⟩ :=
    roundWithAccuracy_normal .positive
      (accuracyOfFraction (n * 2 ^ (m.log2 + 1) % m) m) (Nat.le_trans hnlow hlow)
      (show -1074 ≤ f - 1 - (m.log2 : Int) - e by omega)
  have hdiv : div Format.binary64 a.toModel.unpack x.toModel.unpack =
      .finite .positive rounded (f - 1 - m.log2 - e + raised) hrounded := by
    rw [ha, hx]
    simp only [div, hcore]
    exact hround
  have hquotient : (a / x).toModel.unpack = unpack Format.binary64 (pack Format.binary64
      (.finite .positive rounded (f - 1 - m.log2 - e + raised) hrounded)) := by
    rw [← hdiv]
    rfl
  rw [hquotient]
  refine (unpack_pack_rounded hrounded hrlow hrhigh (by omega)).imp_right fun hkept => ?_
  refine ⟨rounded, _, hrounded, hkept, hrlow, ?_⟩
  -- without a shift the rounding takes at most one unit from the quotient
  by_cases hraised : raised = 0
  · subst hraised
    omega
  · exact .inl (by omega)

/-- A float between one and four by a fraction. -/
theorem quotient_positive {a x : Float} {n : Nat} {f : Int} {hn : 0 < n}
    (ha : a.toModel.unpack = .finite .positive n f hn) (hnlow : 2 ^ 52 ≤ n) (hnhigh : n < 2 ^ 53)
    (hf : f = -52 ∨ f = -51) (h : Accuracy.isFraction x = true) :
    Positive (a / x).toModel.unpack := by
  rcases quotient_bounds ha hnlow hnhigh hf h with hinfinite | ⟨m, e, hpos, hfinite, -⟩
  · exact .inl hinfinite
  · exact .inr ⟨m, e, hpos, hfinite⟩

end FlowSketch.Binary64
