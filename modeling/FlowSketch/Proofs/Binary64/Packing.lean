import FlowSketch.Accuracy
import Mathlib

/-!
# FlowSketch.Proofs.Binary64.Packing

**Floats and their bits.** A float is its 64 bits, except that all bit patterns that stand for "not
a number" are one float. So the bits of a float give the float back (`ofBits_toBits`), and the float
of a bit pattern gives the pattern back unless it is not a number; a fraction is a number
(`toBits_ofBits_of_isFraction`).

Fractions that compare equal are therefore one bit pattern (`eq_of_beq_of_isFraction`).

All of it is read off the fields: taking a pattern apart and putting it together again changes
nothing but the pattern of what is not a number (`pack_unpack`).
-/

namespace FlowSketch.Binary64

open Float.Model (Format UnpackedFloat)
open Float.Model.UnpackedFloat

/-- The bit patterns of a float. -/
abbrev Pattern := BitVec Format.binary64.numBits

/-- The exponent field of a pattern. -/
def exponentOf (b : Pattern) : BitVec 11 := unpackExponent b

/-- The fraction field of a pattern. -/
def fractionOf (b : Pattern) : BitVec 52 := unpackMantissa b

/-! ### Taking apart and putting together -/

/-- The significand of a normal float has the leading one in front of its fraction. -/
theorem toNat_significand (fraction : BitVec 52) :
    (1#1 ++ fraction).toNat = 2 ^ 52 + fraction.toNat := by
  rw [BitVec.toNat_append, ← Nat.shiftLeft_add_eq_or_of_lt fraction.isLt]
  rfl

theorem toBitVec_sign (b : BitVec 1) : (Sign.ofBitVec b).toBitVec = b := by
  revert b
  decide

/-- Sign, exponent and fraction in a row are the pattern they were taken from. -/
theorem packComponents_fields (b : Pattern) :
    packComponents Format.binary64 (Sign.ofBitVec (unpackSign b)) (exponentOf b) (fractionOf b) =
      b := by
  unfold packComponents exponentOf fractionOf
  rw [toBitVec_sign]
  unfold unpackSign unpackExponent unpackMantissa
  ext i hi
  simp
  grind

-- For any format, since the widths of `binary64` do not unfold under `simp`.
theorem unpackSign_packComponents {format : Format} (sign : Sign)
    (exponent : BitVec format.exponentBits)
    (fraction : BitVec format.mantissaBitsWithoutImplicit) :
    Sign.ofBitVec (unpackSign (packComponents format sign exponent fraction)) = sign := by
  have hbit : unpackSign (packComponents format sign exponent fraction) = sign.toBitVec := by
    ext i hi
    obtain rfl : i = 0 := by omega
    simp [unpackSign, packComponents, BitVec.getLsbD_append, BitVec.getElem_append]
  rw [hbit]
  cases sign <;> rfl

/-- The exponent of a last place is in range for a pattern. -/
theorem exponent_in_range {e : Int} (hehigh : e ≤ 971) :
    ¬ 2 ^ Format.binary64.exponentBits ≤
      (e + Format.binary64.exponentBias + Format.binary64.mantissaBitsWithoutImplicit).toNat + 1 := by
  change ¬ 2048 ≤ (e + 1023 + 52).toNat + 1
  omega

/-- A subnormal float has the exponent field zero. -/
theorem pack_subnormal (sign : Sign) (fraction : BitVec 52) (hpos : 0 < fraction.toNat) :
    pack Format.binary64 (.finite sign fraction.toNat (-1074) hpos) =
      packComponents Format.binary64 sign 0#_ fraction := by
  have hlog : ¬ fraction.toNat.log2 + 1 = Format.binary64.mantissaBits := by
    have hlt := (Nat.log2_lt (Nat.ne_of_gt hpos)).mpr fraction.isLt
    change ¬ fraction.toNat.log2 + 1 = 53
    omega
  simp only [pack]
  rw [if_neg (exponent_in_range (by omega)), if_neg hlog, BitVec.ofNat_toNat, BitVec.setWidth_eq]

/-- A normal float has the exponent field that is 1075 more than the power of its last place, and
its significand without the leading one as fraction. -/
theorem pack_normal (sign : Sign) {m : Nat} {e : Int} (hpos : 0 < m) (hlow : 2 ^ 52 ≤ m)
    (hhigh : m < 2 ^ 53) (hehigh : e ≤ 971) :
    pack Format.binary64 (.finite sign m e hpos) =
      packComponents Format.binary64 sign (BitVec.ofNat 11 (e + 1075).toNat)
        (BitVec.ofNat 52 m) := by
  have hlog : m.log2 + 1 = Format.binary64.mantissaBits := by
    rw [(Nat.log2_eq_iff (by omega)).mpr ⟨hlow, hhigh⟩]
    rfl
  have hbias : e + Format.binary64.exponentBias + Format.binary64.mantissaBitsWithoutImplicit =
      e + 1075 := by
    change e + 1023 + 52 = e + 1075
    omega
  simp only [pack]
  rw [if_neg (exponent_in_range hehigh), if_pos hlog, hbias]

/-- Putting the fields together and taking them apart again finds the kind of float they are. -/
theorem unpack_packComponents (sign : Sign) (exponent : BitVec 11) (fraction : BitVec 52)
    (hinf : exponent ≠ -1#_) (hsub : exponent ≠ 0#_) :
    unpack Format.binary64 (packComponents Format.binary64 sign exponent fraction) =
      .finite sign (1#1 ++ fraction).toNat (exponent.toNat - 1075)
        (by rw [toNat_significand]; omega) := by
  simp only [unpack, unpackMantissa_packComponents, unpackExponent_packComponents,
    unpackSign_packComponents]
  rw [if_neg hinf, if_neg hsub]
  rfl

/-- Putting fields together, taking them apart and putting them together again changes nothing,
unless they stand for what is not a number. -/
theorem pack_unpack_packComponents (sign : Sign) (exponent : BitVec 11) (fraction : BitVec 52)
    (hnumber : exponent = -1#_ → fraction = 0#_) :
    pack Format.binary64
        (unpack Format.binary64 (packComponents Format.binary64 sign exponent fraction)) =
      packComponents Format.binary64 sign exponent fraction := by
  have hfraction : fraction.toNat < 2 ^ 52 := fraction.isLt
  by_cases hinf : exponent = -1#_
  · have hzero := hnumber hinf
    subst hinf hzero
    simp only [unpack, unpackMantissa_packComponents, unpackExponent_packComponents,
      unpackSign_packComponents]
    rfl
  · by_cases hsub : exponent = 0#_
    · subst hsub
      simp only [unpack, unpackMantissa_packComponents, unpackExponent_packComponents,
        unpackSign_packComponents]
      rw [if_neg hinf, if_pos trivial]
      by_cases hzero : fraction = 0#_
      · rw [dif_pos hzero, hzero]
        rfl
      · rw [dif_neg hzero]
        exact pack_subnormal sign fraction _
    · have hbound : exponent.toNat ≤ 2046 := by
        have hlt : exponent.toNat < 2048 := exponent.isLt
        have hne : exponent.toNat ≠ 2047 := fun heq => hinf (BitVec.eq_of_toNat_eq heq)
        omega
      have hsig := toNat_significand fraction
      have hexponent : ((exponent.toNat : Int) - 1075 + 1075).toNat = exponent.toNat := by omega
      have hcut : BitVec.ofNat 52 (2 ^ 52 + fraction.toNat) = fraction := by
        apply BitVec.eq_of_toNat_eq
        rw [BitVec.toNat_ofNat, Nat.add_mod_left, Nat.mod_eq_of_lt hfraction]
      rw [unpack_packComponents sign exponent fraction hinf hsub,
        pack_normal sign _ (by omega) (by omega) (by omega), hexponent, hsig, hcut,
        BitVec.ofNat_toNat, BitVec.setWidth_eq]

/-- Taking a pattern apart and putting it together again gives the pattern back, unless it stands
for what is not a number. -/
theorem pack_unpack (b : Pattern) (hnumber : exponentOf b = -1#_ → fractionOf b = 0#_) :
    pack Format.binary64 (unpack Format.binary64 b) = b := by
  have h := pack_unpack_packComponents (Sign.ofBitVec (unpackSign b)) _ _ hnumber
  rwa [packComponents_fields] at h

/-- Taking a normal float apart gives its sign, its significand and the power of its last place. -/
theorem unpack_pack_normal (sign : Sign) {m : Nat} {e : Int} (hpos : 0 < m) (hlow : 2 ^ 52 ≤ m)
    (hhigh : m < 2 ^ 53) (helow : -1074 ≤ e) (hehigh : e ≤ 971) :
    unpack Format.binary64 (pack Format.binary64 (.finite sign m e hpos)) =
      .finite sign m e hpos := by
  have hexponent : (BitVec.ofNat 11 (e + 1075).toNat).toNat = (e + 1075).toNat := by
    rw [BitVec.toNat_ofNat]
    omega
  have hfraction : (BitVec.ofNat 52 m).toNat = m - 2 ^ 52 := by
    rw [BitVec.toNat_ofNat]
    omega
  have hinf : BitVec.ofNat 11 (e + 1075).toNat ≠ -1#_ := by
    intro heq
    have hnat := congrArg BitVec.toNat heq
    rw [hexponent] at hnat
    change (e + 1075).toNat = 2047 at hnat
    omega
  have hsub : BitVec.ofNat 11 (e + 1075).toNat ≠ 0#_ := by
    intro heq
    have hnat := congrArg BitVec.toNat heq
    rw [hexponent] at hnat
    change (e + 1075).toNat = 0 at hnat
    omega
  have hsig : (1#1 ++ BitVec.ofNat 52 m).toNat = m := by
    rw [toNat_significand, hfraction]
    omega
  have hlast : ((BitVec.ofNat 11 (e + 1075).toNat).toNat : Int) - 1075 = e := by
    rw [hexponent]
    omega
  rw [pack_normal sign hpos hlow hhigh hehigh, unpack_packComponents sign _ _ hinf hsub]
  simp only [hsig, hlast]

theorem unpack_of_not_number (b : Pattern) (hexp : exponentOf b = -1#_) (hfrac : fractionOf b ≠ 0#_) :
    unpack Format.binary64 b = .notANumber := by
  simp only [unpack]
  exact (if_pos hexp).trans (if_neg hfrac)

/-! ### Floats -/

/-- The float of the bits of a float is that float. -/
theorem ofBits_toBits (x : Float) : Float.ofBits x.toBits = x := by
  obtain ⟨⟨bits, hvalid⟩⟩ := x
  have hpack : pack Format.binary64 (unpack Format.binary64 bits.toBitVec) = bits.toBitVec := by
    by_cases hnan : exponentOf bits.toBitVec = -1#_ ∧ fractionOf bits.toBitVec ≠ 0#_
    · obtain ⟨hexp, hfrac⟩ := hnan
      rw [unpack_of_not_number _ hexp hfrac]
      exact (hvalid.eq_packedNaN hexp hfrac).symm
    · apply pack_unpack
      intro hexp
      by_cases hfrac : fractionOf bits.toBitVec = 0#_
      · exact hfrac
      · exact absurd ⟨hexp, hfrac⟩ hnan
  have hbits : (Float.Model.ofBits bits).toBits = bits := by
    change UInt64.ofBitVec (pack Format.binary64 (unpack Format.binary64 bits.toBitVec)) = bits
    rw [hpack]
  change Float.ofModel (Float.Model.ofBits bits) = _
  congr 1
  cases hmodel : Float.Model.ofBits bits with
  | mk found hfound =>
      rw [hmodel] at hbits
      cases hbits
      rfl

/-- The bits of a float that was read from bits are those bits, if the float is a fraction: all
patterns of what is not a number are one float, but what is not a number is no fraction. -/
theorem toBits_ofBits_of_isFraction {w : UInt64}
    (hfraction : Accuracy.isFraction (Float.ofBits w) = true) : (Float.ofBits w).toBits = w := by
  change UInt64.ofBitVec (pack Format.binary64 (unpack Format.binary64 w.toBitVec)) = w
  rw [pack_unpack]
  intro hexp
  by_cases hfrac : fractionOf w.toBitVec = 0#_
  · exact hfrac
  · have hnan : Float.ofBits w = .ofModel (.pack .notANumber) := by
      change Float.ofModel (.pack (unpack Format.binary64 w.toBitVec)) = _
      rw [unpack_of_not_number _ hexp hfrac]
    rw [hnan] at hfraction
    exact absurd hfraction (by decide)

/-- A fraction is a positive finite float. -/
theorem unpack_of_isFraction {x : Float} (h : Accuracy.isFraction x = true) :
    ∃ (m : Nat) (e : Int) (hpos : 0 < m), x.toModel.unpack = .finite .positive m e hpos := by
  have hzero : (0.0 : Float).toModel.unpack = .zero .positive := rfl
  have hone : (1.0 : Float).toModel.unpack = .finite .positive (2 ^ 52) (-52) (by decide) := rfl
  rw [Accuracy.isFraction, Bool.and_eq_true, decide_eq_true_eq, decide_eq_true_eq] at h
  obtain ⟨hlow, hhigh⟩ := h
  have hlow' : UnpackedFloat.lt (0.0 : Float).toModel.unpack x.toModel.unpack = true :=
    of_decide_eq_true hlow
  have hhigh' : UnpackedFloat.lt x.toModel.unpack (1.0 : Float).toModel.unpack = true :=
    of_decide_eq_true hhigh
  -- the other kinds of float are not above zero, or not below one
  rw [hzero] at hlow'
  rw [hone] at hhigh'
  cases hx : x.toModel.unpack with
  | notANumber =>
      rw [hx] at hlow'
      cases hlow'
  | zero sign =>
      rw [hx] at hlow'
      cases hlow'
  | infinity sign =>
      cases sign with
      | positive =>
          rw [hx] at hhigh'
          cases hhigh'
      | negative =>
          rw [hx] at hlow'
          cases hlow'
  | finite sign m e hpos =>
      cases sign with
      | positive => exact ⟨m, e, hpos, rfl⟩
      | negative =>
          rw [hx] at hlow'
          cases hlow'

/-- A float is known by its sign, significand and exponent. -/
theorem eq_of_unpack_eq {x y : Float} (h : x.toModel.unpack = y.toModel.unpack) : x = y := by
  have hback : ∀ z : Float, Float.ofModel (.pack z.toModel.unpack) = z := ofBits_toBits
  rw [← hback x, h, hback y]

/-- Fractions that compare equal are one float. -/
theorem eq_of_beq_of_isFraction {x y : Float} (hx : Accuracy.isFraction x = true)
    (hy : Accuracy.isFraction y = true) (h : (x == y) = true) : x = y := by
  obtain ⟨m, e, hm, hux⟩ := unpack_of_isFraction hx
  obtain ⟨n, f, hn, huy⟩ := unpack_of_isFraction hy
  have hcompare : UnpackedFloat.beq x.toModel.unpack y.toModel.unpack = true := h
  rw [hux, huy] at hcompare
  have heq : ((compare e f).then (compare m n)) = .eq := by
    simpa [UnpackedFloat.beq, UnpackedFloat.compare] using hcompare
  obtain ⟨he, hmn⟩ := Ordering.then_eq_eq.mp heq
  obtain rfl := Int.compare_eq_eq.mp he
  obtain rfl := Nat.compare_eq_eq.mp hmn
  exact eq_of_unpack_eq (hux.trans huy.symm)

/-- A fraction compares equal to itself, as not every float does. -/
theorem beq_self_of_isFraction {x : Float} (h : Accuracy.isFraction x = true) :
    (x == x) = true := by
  obtain ⟨m, e, hm, hunpack⟩ := unpack_of_isFraction h
  show UnpackedFloat.beq x.toModel.unpack x.toModel.unpack = true
  rw [hunpack]
  simp [UnpackedFloat.beq, UnpackedFloat.compare]

end FlowSketch.Binary64
