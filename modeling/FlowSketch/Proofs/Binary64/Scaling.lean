import FlowSketch.Proofs.Binary64.Packing
import FlowSketch.Sketch.Basic

/-!
# FlowSketch.Proofs.Binary64.Scaling

**Ageing lowers every count, and swaps no two of them.** A count is scaled on floats: it is rounded
to a float, multiplied by the factor, rounded again, and cut to a whole number. Either rounding moves
the value by at most one part in `2 ^ 52` (`roundWithAccuracy_normal`), so a scaled count is the
whole part of a fraction close to the exact product (`scaleWord_eq_div`). The ageing factor is far
enough below one to make up for both roundings, so no count other than zero survives ageing unchanged
(`scaleWord_decay_lt`), and zero stays zero. Counts of 32 bits are so far below `2 ^ 52` that the
roundings are smaller than the difference of one, so ageing keeps their order
(`scaleWord_decay_mono`).

Every float here is normal: its significand has 53 bits, and the exponents are nowhere near the ends
of their range.
-/

namespace FlowSketch.Binary64

open Float.Model (Format UnpackedFloat totalExponent)
open Float.Model.UnpackedFloat

/-! ### Rounding -/

theorem mantissa_shiftRight (em : ExtendedMantissa) (n : Nat) :
    (em >>> n).mantissa = em.mantissa / 2 ^ n := by
  change (n.repeat ExtendedMantissa.shiftRightOne em).mantissa = _
  induction n with
  | zero => simp [Nat.repeat]
  | succ n ih =>
      rw [Nat.repeat, Nat.pow_succ, ← Nat.div_div_eq_div_mul, ← ih]
      rfl

theorem mantissa_ofMantissaAndAccuracy (m : Nat) (residue : UnpackedFloat.Accuracy) :
    (ExtendedMantissa.ofMantissaAndAccuracy m residue).mantissa = m := by
  cases residue with
  | exact => rfl
  | inexact side => cases side <;> rfl

/-- Rounding goes up by at most one unit in the last place, and never down. -/
theorem roundToNearestEven_bounds (m : Nat) (residue : UnpackedFloat.Accuracy) :
    m ≤ residue.roundToNearestEven m ∧ residue.roundToNearestEven m ≤ m + 1 := by
  cases residue with
  | exact => exact ⟨Nat.le_refl m, Nat.le_succ m⟩
  | inexact side =>
      cases side with
      | lt => exact ⟨Nat.le_refl m, Nat.le_succ m⟩
      | eq =>
          change m ≤ m + m % 2 ∧ m + m % 2 ≤ m + 1
          omega
      | gt => exact ⟨Nat.le_succ m, Nat.le_refl _⟩

/-- The exponent that a significand of at least 53 bits is shifted to. -/
theorem targetExponent_normal {m : Nat} {e : Int} (hlow : 2 ^ 52 ≤ m) (helow : -1074 ≤ e) :
    Format.binary64.targetExponent (totalExponent m e) = e + (m.log2 - 52 : Nat) := by
  have hlog : 52 ≤ m.log2 := (Nat.le_log2 (by omega)).mpr hlow
  change max ((m.log2 + 1 + e : Int) - 53) (-1074) = e + (m.log2 - 52 : Nat)
  omega

/-- Shifting a significand to 53 bits, with the residue of what is cut off. -/
theorem shiftToTargetExponent_normal {m : Nat} {e : Int} (residue : UnpackedFloat.Accuracy)
    (hlow : 2 ^ 52 ≤ m) (helow : -1074 ≤ e) :
    shiftToTargetExponent Format.binary64 m e residue =
      (ExtendedMantissa.ofMantissaAndAccuracy m residue >>> (m.log2 - 52),
        e + (m.log2 - 52 : Nat)) := by
  have hamount : (e + (m.log2 - 52 : Nat) - e).toNat = m.log2 - 52 := by omega
  unfold shiftToTargetExponent shiftToExponent
  simp only [targetExponent_normal hlow helow, hamount]

/-- What is left of a significand that is cut to 53 bits. -/
theorem cut_bounds {m : Nat} (hlow : 2 ^ 52 ≤ m) :
    2 ^ 52 ≤ m / 2 ^ (m.log2 - 52) ∧ m / 2 ^ (m.log2 - 52) < 2 ^ 53 := by
  have hlog : 52 ≤ m.log2 := (Nat.le_log2 (by omega)).mpr hlow
  have hlower : 52 + (m.log2 - 52) = m.log2 := by omega
  have hupper : 53 + (m.log2 - 52) = m.log2 + 1 := by omega
  constructor
  · rw [Nat.le_div_iff_mul_le (Nat.two_pow_pos _), ← Nat.pow_add, hlower]
    exact Nat.log2_self_le (by omega)
  · rw [Nat.div_lt_iff_lt_mul (Nat.two_pow_pos _), ← Nat.pow_add, hupper]
    exact Nat.lt_log2_self

/-- A significand that rounding has raised to `2 ^ 53` is halved, which is exact. -/
theorem shiftToTargetExponent_carry {r : Nat} {e : Int} (hlow : 2 ^ 52 ≤ r) (hhigh : r ≤ 2 ^ 53)
    (helow : -1074 ≤ e) :
    ∃ (em : ExtendedMantissa) (carry : Nat),
      shiftToTargetExponent Format.binary64 r e .exact = (em, e + carry) ∧
      2 ^ 52 ≤ em.mantissa ∧ em.mantissa < 2 ^ 53 ∧ em.mantissa * 2 ^ carry = r ∧ carry ≤ 1 := by
  refine ⟨_, _, shiftToTargetExponent_normal .exact hlow helow, ?_⟩
  rw [mantissa_shiftRight, mantissa_ofMantissaAndAccuracy]
  obtain ⟨hcutlow, hcuthigh⟩ := cut_bounds hlow
  rcases Nat.lt_or_eq_of_le hhigh with hlt | rfl
  · have hlog : r.log2 = 52 := (Nat.log2_eq_iff (by omega)).mpr ⟨hlow, hlt⟩
    rw [hlog, Nat.sub_self, Nat.pow_zero, Nat.div_one, Nat.mul_one]
    exact ⟨hlow, hlt, rfl, Nat.zero_le 1⟩
  · have hlog : (2 ^ 53 : Nat).log2 = 53 := Nat.log2_two_pow
    rw [hlog]
    decide

/-- Rounding a significand of at least 53 bits, with any residue, gives one of exactly 53 bits, and
a value that is larger or smaller by at most one part in `2 ^ 52`. -/
theorem roundWithAccuracy_normal (sign : Sign) (residue : UnpackedFloat.Accuracy) {m : Nat}
    {e : Int} (hlow : 2 ^ 52 ≤ m) (helow : -1074 ≤ e) :
    ∃ (rounded raised : Nat) (hpos : 0 < rounded),
      roundWithAccuracy Format.binary64 sign m e residue =
        .finite sign rounded (e + raised) hpos ∧
      2 ^ 52 ≤ rounded ∧ rounded < 2 ^ 53 ∧ raised ≤ m.log2 - 51 ∧
      rounded * 2 ^ raised * 2 ^ 52 ≤ m * (2 ^ 52 + 1) ∧
      m * 2 ^ 52 ≤ rounded * 2 ^ raised * (2 ^ 52 + 1) := by
  have hlog : 52 ≤ m.log2 := (Nat.le_log2 (by omega)).mpr hlow
  obtain ⟨hcutlow, hcuthigh⟩ := cut_bounds hlow
  -- the significand after the first shift and the rounding
  have hround := roundToNearestEven_bounds
    (ExtendedMantissa.ofMantissaAndAccuracy m residue >>> (m.log2 - 52)).mantissa
    (ExtendedMantissa.ofMantissaAndAccuracy m residue >>> (m.log2 - 52)).accuracy
  change _ ≤ ExtendedMantissa.roundedMantissa _ ∧ ExtendedMantissa.roundedMantissa _ ≤ _ at hround
  rw [mantissa_shiftRight, mantissa_ofMantissaAndAccuracy] at hround
  obtain ⟨em, carry, hcarry, hemlow, hemhigh, hexact, hcarry_le⟩ :=
    shiftToTargetExponent_carry (Nat.le_trans hcutlow hround.1) (by omega)
      (show -1074 ≤ e + (m.log2 - 52 : Nat) by omega)
  have hem : em.mantissa ≠ 0 := by omega
  refine ⟨em.mantissa, m.log2 - 52 + carry, by omega, ?_, hemlow, hemhigh, by omega, ?_, ?_⟩
  · unfold roundWithAccuracy
    have hraised : e + (m.log2 - 52 : Nat) + carry = e + (m.log2 - 52 + carry : Nat) := by omega
    simp only [shiftToTargetExponent_normal residue hlow helow, hcarry, hraised]
    rw [dif_neg hem]
  · have hcut : m / 2 ^ (m.log2 - 52) * 2 ^ (m.log2 - 52) ≤ m := Nat.div_mul_le_self ..
    generalize m / 2 ^ (m.log2 - 52) = q at *
    generalize ExtendedMantissa.roundedMantissa _ = r at *
    calc em.mantissa * 2 ^ (m.log2 - 52 + carry) * 2 ^ 52
        = r * 2 ^ 52 * 2 ^ (m.log2 - 52) := by
          rw [← hexact]
          ring
      _ ≤ q * (2 ^ 52 + 1) * 2 ^ (m.log2 - 52) := Nat.mul_le_mul_right _ (by omega)
      _ = q * 2 ^ (m.log2 - 52) * (2 ^ 52 + 1) := by ring
      _ ≤ m * (2 ^ 52 + 1) := Nat.mul_le_mul_right _ hcut
  · have hcut : m < (m / 2 ^ (m.log2 - 52) + 1) * 2 ^ (m.log2 - 52) := by
      rw [Nat.add_mul, Nat.one_mul]
      exact Nat.lt_div_mul_add (Nat.two_pow_pos _)
    generalize m / 2 ^ (m.log2 - 52) = q at *
    generalize ExtendedMantissa.roundedMantissa _ = r at *
    calc m * 2 ^ 52 ≤ (q + 1) * 2 ^ (m.log2 - 52) * 2 ^ 52 := Nat.mul_le_mul_right _ hcut.le
      _ = (q * 2 ^ 52 + 2 ^ 52) * 2 ^ (m.log2 - 52) := by ring
      _ ≤ r * (2 ^ 52 + 1) * 2 ^ (m.log2 - 52) := Nat.mul_le_mul_right _ (by omega)
      _ = em.mantissa * 2 ^ (m.log2 - 52 + carry) * (2 ^ 52 + 1) := by
          rw [← hexact]
          ring

/-! ### From words to floats and back -/

/-- A count as a float: a significand of 53 bits, and a value that is larger or smaller by at most
one part in `2 ^ 52`. -/
theorem unpack_toFloat {v : UInt64} (hv : v ≠ 0) :
    ∃ (m raised lowered : Nat) (hpos : 0 < m),
      v.toFloat.toModel.unpack = .finite .positive m (raised - lowered) hpos ∧
      2 ^ 52 ≤ m ∧ m < 2 ^ 53 ∧ raised ≤ 12 ∧ lowered ≤ 52 ∧
      m * 2 ^ raised * 2 ^ 52 ≤ v.toNat * 2 ^ lowered * (2 ^ 52 + 1) ∧
      v.toNat * 2 ^ lowered * 2 ^ 52 ≤ m * 2 ^ raised * (2 ^ 52 + 1) := by
  have hword : v.toNat < 2 ^ 64 := v.toNat_lt
  have hne : v.toNat ≠ 0 := fun heq => hv (UInt64.toNat_inj.mp heq)
  have hlog : v.toNat.log2 ≤ 63 := by
    have := (Nat.log2_lt hne).mpr hword
    omega
  generalize hcount : v.toNat = n at *
  -- how far the count is shifted up before rounding
  have hlowered : (0 - Format.binary64.targetExponent (totalExponent n 0)).toNat =
      52 - n.log2 := by
    change (0 - max ((n.log2 + 1 + 0 : Int) - 53) (-1074)).toNat = 52 - n.log2
    omega
  have hlow : 2 ^ 52 ≤ n * 2 ^ (52 - n.log2) := by
    calc 2 ^ 52 ≤ 2 ^ (n.log2 + (52 - n.log2)) := Nat.pow_le_pow_right (by omega) (by omega)
      _ = 2 ^ n.log2 * 2 ^ (52 - n.log2) := Nat.pow_add ..
      _ ≤ n * 2 ^ (52 - n.log2) := Nat.mul_le_mul_right _ (Nat.log2_self_le hne)
  have hlogShifted : (n * 2 ^ (52 - n.log2)).log2 ≤ 63 := by
    apply Nat.le_of_lt_succ
    rw [Nat.log2_lt (by omega)]
    calc n * 2 ^ (52 - n.log2) < 2 ^ (n.log2 + 1) * 2 ^ (52 - n.log2) :=
          Nat.mul_lt_mul_of_pos_right Nat.lt_log2_self (Nat.two_pow_pos _)
      _ = 2 ^ (n.log2 + 1 + (52 - n.log2)) := (Nat.pow_add ..).symm
      _ ≤ 2 ^ 64 := Nat.pow_le_pow_right (by omega) (by omega)
  obtain ⟨m, raised, hpos, hround, hmlow, hmhigh, hraised, hvalue⟩ :=
    roundWithAccuracy_normal .positive .exact hlow
      (show -1074 ≤ (0 : Int) - (52 - n.log2 : Nat) by omega)
  have hfloat : ofUInt64 Format.binary64 v =
      .finite .positive m (raised - (52 - n.log2 : Nat)) hpos := by
    have hexponent : (0 : Int) - (52 - n.log2 : Nat) + raised = raised - (52 - n.log2 : Nat) := by
      omega
    have hpositive : compare (n : Int) 0 = .gt := Int.compare_eq_gt.mpr (by omega)
    unfold ofUInt64 ofNat ofInt UnpackedFloat.normalize
    rw [hcount]
    simp only [hpositive, UnpackedFloat.round, decreaseExponent, hlowered, Int.toNat_natCast,
      Nat.shiftLeft_eq, hround, hexponent]
  refine ⟨m, raised, 52 - n.log2, hpos, ?_, hmlow, hmhigh, by omega, by omega, hvalue⟩
  change unpack Format.binary64 (pack Format.binary64 (ofUInt64 Format.binary64 v)) = _
  rw [hfloat, unpack_pack_normal _ hpos hmlow hmhigh (by omega) (by omega)]

/-- The way back cuts the fraction off, and stays within the words. -/
theorem toNat_toUInt64_eq_min {m : Nat} (hpos : 0 < m) (up down : Nat) :
    (UnpackedFloat.finite .positive m (up - down) hpos).toUInt64.toNat =
      min (m * 2 ^ up / 2 ^ down) (2 ^ 64 - 1) := by
  -- at most one of the two shifts is not zero
  have hlast : ((up : Int) - down).toNat = up - down := by omega
  have hcut : (0 - ((up : Int) - down - (up - down : Nat))).toNat = down - up := by omega
  have htrunc : m * 2 ^ (up - down) / 2 ^ (down - up) = m * 2 ^ up / 2 ^ down := by
    have hup : m * 2 ^ up = m * 2 ^ (up - down) * 2 ^ min up down := by
      rw [Nat.mul_assoc, ← Nat.pow_add]
      congr 2
      omega
    have hdown : 2 ^ down = 2 ^ (down - up) * 2 ^ min up down := by
      rw [← Nat.pow_add]
      congr 1
      omega
    rw [hup, hdown, Nat.mul_div_mul_right _ _ (Nat.two_pow_pos _)]
  have hint : (UnpackedFloat.finite .positive m (up - down) hpos).toInt 0 (UInt64.size - 1) =
      (m * 2 ^ (up - down) / 2 ^ (down - up) : Nat) := by
    change roundToInt .positive m (up - down) = _
    unfold roundToInt shiftToExponent
    simp only [decreaseExponent, Int.sub_zero, hlast, hcut, Nat.shiftLeft_eq, mantissa_shiftRight,
      mantissa_ofMantissaAndAccuracy]
    rfl
  unfold toUInt64
  rw [hint, htrunc, Int.toNat_natCast, UInt64.ofNatClamp]
  split
  · rename_i hfits
    exact (Nat.min_eq_left (Nat.le_pred_of_lt hfits)).symm
  · rename_i hlarge
    exact (Nat.min_eq_right (Nat.le_trans (Nat.pred_le _) (Nat.le_of_not_lt hlarge))).symm

/-- What fits into a word comes back as it is, but for the fraction. -/
theorem toNat_toUInt64 {m up down : Nat} (hpos : 0 < m) (hfits : m * 2 ^ up / 2 ^ down < 2 ^ 64) :
    (UnpackedFloat.finite .positive m (up - down) hpos).toUInt64.toNat = m * 2 ^ up / 2 ^ down := by
  rw [toNat_toUInt64_eq_min]
  omega

/-! ### Scaling a count -/

/-- A fraction that is at most a count under two roundings, times a factor below one, stays below
the count. -/
theorem div_lt_of_scaled {v : UInt64} {c a b : Nat} (hv : v ≠ 0) (hb : 0 < b)
    (hupper : a * 2 ^ 157 ≤ v.toNat * b * (c * (2 ^ 52 + 1) ^ 2))
    (hhigh : c * (2 ^ 52 + 1) ^ 2 < 2 ^ 157) : a / b < v.toNat := by
  have hpos : 0 < v.toNat * b :=
    Nat.mul_pos (Nat.pos_of_ne_zero fun heq => hv (UInt64.toNat_inj.mp heq)) hb
  rw [Nat.div_lt_iff_lt_mul hb]
  apply Nat.lt_of_mul_lt_mul_right (a := 2 ^ 157)
  exact Nat.lt_of_le_of_lt hupper (Nat.mul_lt_mul_of_pos_left hhigh hpos)

/-- A count times a positive factor that is not far below one, on floats. The product is a normal
float, which is larger or smaller than the exact one by at most two roundings. -/
theorem unpack_count_mul {factor : Float} {c d : Nat} {hpos : 0 < c}
    (hfactor : factor.toModel.unpack = .finite .positive c (-d) hpos) (hc : c < 2 ^ 53)
    (hd : d ≤ 1022) {v : UInt64} (hv : v ≠ 0) :
    ∃ (m up down : Nat) (hm : 0 < m),
      (v.toFloat * factor).toModel.unpack = .finite .positive m (up - down) hm ∧
      m * 2 ^ up * 2 ^ (104 + d) ≤ v.toNat * 2 ^ down * (c * (2 ^ 52 + 1) ^ 2) ∧
      v.toNat * 2 ^ down * (c * 2 ^ 104) ≤ m * 2 ^ up * 2 ^ d * (2 ^ 52 + 1) ^ 2 := by
  obtain ⟨m, raised, lowered, hmpos, hcount, hmlow, hmhigh, hraised, hlowered, hmupper, hmlower⟩ :=
    unpack_toFloat hv
  -- the product of two significands has at least 53 bits, so it is rounded as a normal float
  have hproductLow : 2 ^ 52 ≤ m * c := Nat.le_trans hmlow (Nat.le_mul_of_pos_right m hpos)
  have hproductLog : (m * c).log2 ≤ 105 := by
    apply Nat.le_of_lt_succ
    rw [Nat.log2_lt (by omega)]
    calc m * c < 2 ^ 53 * 2 ^ 53 := Nat.mul_lt_mul'' hmhigh hc
      _ = 2 ^ 106 := (Nat.pow_add 2 53 53).symm
  obtain ⟨product, carried, hppos, hround, hplow, hphigh, hcarried, hpupper, hplower⟩ :=
    roundWithAccuracy_normal .positive .exact hproductLow
      (show -1074 ≤ ((raised : Int) - lowered) + -d by omega)
  have hexponent : ((raised : Int) - lowered) + -d + carried =
      (raised + carried : Nat) - (lowered + d : Nat) := by omega
  have hmul : mul Format.binary64 v.toFloat.toModel.unpack factor.toModel.unpack =
      .finite .positive product ((raised + carried : Nat) - (lowered + d : Nat)) hppos := by
    rw [hcount, hfactor]
    simp only [mul, ← hexponent]
    exact hround
  refine ⟨product, raised + carried, lowered + d, hppos, ?_, ?_, ?_⟩
  · change unpack Format.binary64 (pack Format.binary64
      (mul Format.binary64 v.toFloat.toModel.unpack factor.toModel.unpack)) = _
    rw [hmul, unpack_pack_normal _ hppos hplow hphigh (by omega) (by omega)]
  · calc product * 2 ^ (raised + carried) * 2 ^ (104 + d)
        = product * 2 ^ carried * 2 ^ 52 * (2 ^ raised * (2 ^ 52 * 2 ^ d)) := by ring
      _ ≤ m * c * (2 ^ 52 + 1) * (2 ^ raised * (2 ^ 52 * 2 ^ d)) := Nat.mul_le_mul_right _ hpupper
      _ = m * 2 ^ raised * 2 ^ 52 * (2 ^ d * (c * (2 ^ 52 + 1))) := by ring
      _ ≤ v.toNat * 2 ^ lowered * (2 ^ 52 + 1) * (2 ^ d * (c * (2 ^ 52 + 1))) :=
          Nat.mul_le_mul_right _ hmupper
      _ = v.toNat * 2 ^ (lowered + d) * (c * (2 ^ 52 + 1) ^ 2) := by ring
  · calc v.toNat * 2 ^ (lowered + d) * (c * 2 ^ 104)
        = v.toNat * 2 ^ lowered * 2 ^ 52 * (c * (2 ^ 52 * 2 ^ d)) := by ring
      _ ≤ m * 2 ^ raised * (2 ^ 52 + 1) * (c * (2 ^ 52 * 2 ^ d)) := Nat.mul_le_mul_right _ hmlower
      _ = m * c * 2 ^ 52 * (2 ^ raised * 2 ^ d * (2 ^ 52 + 1)) := by ring
      _ ≤ product * 2 ^ carried * (2 ^ 52 + 1) * (2 ^ raised * 2 ^ d * (2 ^ 52 + 1)) :=
          Nat.mul_le_mul_right _ hplower
      _ = product * 2 ^ (raised + carried) * 2 ^ d * (2 ^ 52 + 1) ^ 2 := by ring

/-- Scaling a count is the whole part of a fraction, which is larger or smaller than the exact
product by at most two roundings. -/
theorem scaleWord_eq_div {factor : Float} {c : Nat} {hpos : 0 < c}
    (hfactor : factor.toModel.unpack = .finite .positive c (-53) hpos)
    (hhigh : c * (2 ^ 52 + 1) ^ 2 < 2 ^ 157) {v : UInt64} (hv : v ≠ 0) :
    ∃ a b : Nat, 0 < b ∧ (Numerics.scaleWord factor v).toNat = a / b ∧
      a * 2 ^ 157 ≤ v.toNat * b * (c * (2 ^ 52 + 1) ^ 2) ∧
      v.toNat * b * (c * 2 ^ 104) ≤ a * 2 ^ 53 * (2 ^ 52 + 1) ^ 2 := by
  obtain ⟨m, up, down, hm, hmul, hupper, hlower⟩ :=
    unpack_count_mul (d := 53) hfactor (by omega) (by decide) hv
  have hfits : m * 2 ^ up / 2 ^ down < 2 ^ 64 :=
    Nat.lt_trans (div_lt_of_scaled hv (Nat.two_pow_pos _) hupper hhigh) v.toNat_lt
  refine ⟨m * 2 ^ up, 2 ^ down, Nat.two_pow_pos _, ?_, hupper, hlower⟩
  rw [← toNat_toUInt64 hm hfits, ← hmul]
  rfl

/-- A factor that stays below one under two roundings lowers every count. -/
theorem scaleWord_lt {factor : Float} {c : Nat} {hpos : 0 < c}
    (hfactor : factor.toModel.unpack = .finite .positive c (-53) hpos)
    (hhigh : c * (2 ^ 52 + 1) ^ 2 < 2 ^ 157) {v : UInt64} (hv : v ≠ 0) :
    Numerics.scaleWord factor v < v := by
  obtain ⟨a, b, hb, hscaled, hupper, -⟩ := scaleWord_eq_div hfactor hhigh hv
  rw [UInt64.lt_iff_toNat_lt, hscaled]
  exact div_lt_of_scaled hv hb hupper hhigh

/-- Two fractions that are near two products with the same factor compare as the products do, when
these are further apart than what the roundings `r / d` can bring together. -/
theorem cross_mul_le {a b a' b' v w c h d r : Nat} (hh : 0 < h) (hd : 0 < d) (hc : 0 < c)
    (hr : 0 < r) (hupper : a * (h * d) ≤ v * b * (c * r)) (hlower : w * b' * (c * d) ≤ a' * h * r)
    (hgap : v * (r * r) ≤ w * (d * d)) : a * b' ≤ a' * b := by
  apply Nat.le_of_mul_le_mul_right (c := h * d * d * c * r) _ (by positivity)
  calc a * b' * (h * d * d * c * r) = a * (h * d) * (b' * c * r * d) := by ring
    _ ≤ v * b * (c * r) * (b' * c * r * d) := Nat.mul_le_mul_right _ hupper
    _ = v * (r * r) * (b * b' * c * c * d) := by ring
    _ ≤ w * (d * d) * (b * b' * c * c * d) := Nat.mul_le_mul_right _ hgap
    _ = w * b' * (c * d) * (b * c * d * d) := by ring
    _ ≤ a' * h * r * (b * c * d * d) := Nat.mul_le_mul_right _ hlower
    _ = a' * b * (h * d * d * c * r) := by ring

/-- Four roundings do not make up for a difference of one between two counts of 32 bits. -/
theorem gap_of_lt {v w : Nat} (hvw : v < w) (hsmall : v < 2 ^ 32) :
    v * ((2 ^ 52 + 1) ^ 2 * (2 ^ 52 + 1) ^ 2) ≤ w * (2 ^ 104 * 2 ^ 104) := by
  calc v * ((2 ^ 52 + 1) ^ 2 * (2 ^ 52 + 1) ^ 2)
      ≤ v * (2 ^ 104 * 2 ^ 104 + 2 ^ 176) := Nat.mul_le_mul_left _ (by decide)
    _ = v * (2 ^ 104 * 2 ^ 104) + v * 2 ^ 176 := Nat.mul_add ..
    _ ≤ v * (2 ^ 104 * 2 ^ 104) + 2 ^ 32 * 2 ^ 176 :=
        Nat.add_le_add_left (Nat.mul_le_mul_right _ hsmall.le) _
    _ = (v + 1) * (2 ^ 104 * 2 ^ 104) := by
        rw [Nat.add_mul, Nat.one_mul]
        rfl
    _ ≤ w * (2 ^ 104 * 2 ^ 104) := Nat.mul_le_mul_right _ hvw

/-- Two counts that differ, and that are far below the 52 bits of a rounding, are not swapped by
scaling: all roundings together are smaller than the difference of one. -/
theorem scaleWord_le_scaleWord {factor : Float} {c : Nat} {hpos : 0 < c}
    (hfactor : factor.toModel.unpack = .finite .positive c (-53) hpos)
    (hhigh : c * (2 ^ 52 + 1) ^ 2 < 2 ^ 157) {v w : UInt64} (hv : v ≠ 0)
    (hvw : v < w) (hsmall : v.toNat < 2 ^ 32) :
    Numerics.scaleWord factor v ≤ Numerics.scaleWord factor w := by
  have hlt : v.toNat < w.toNat := UInt64.lt_iff_toNat_lt.mp hvw
  have hw : w ≠ 0 := by
    rintro rfl
    exact Nat.not_lt_zero _ hlt
  obtain ⟨a, b, hb, hscaledV, hupper, -⟩ := scaleWord_eq_div hfactor hhigh hv
  obtain ⟨a', b', hb', hscaledW, -, hlower⟩ := scaleWord_eq_div hfactor hhigh hw
  rw [Nat.pow_add 2 53 104] at hupper
  have hcross : a * b' ≤ a' * b :=
    cross_mul_le (Nat.two_pow_pos 53) (Nat.two_pow_pos 104) hpos (by decide) hupper hlower
      (gap_of_lt hlt hsmall)
  rw [UInt64.le_iff_toNat_le, hscaledV, hscaledW, Nat.le_div_iff_mul_le hb']
  apply Nat.le_of_mul_le_mul_right (c := b) _ hb
  calc a / b * b' * b = a / b * b * b' := by ring
    _ ≤ a * b' := Nat.mul_le_mul_right _ (Nat.div_mul_le_self ..)
    _ ≤ a' * b := hcross

theorem unpack_decay : (1.0 / decayBase).toModel.unpack =
    .finite .positive 8339999309945362 (-53) (by decide) := rfl

/-- Ageing lowers every count. -/
theorem scaleWord_decay_lt {v : UInt64} (hv : v ≠ 0) :
    Numerics.scaleWord (1.0 / decayBase) v < v :=
  scaleWord_lt unpack_decay (by decide) hv

/-- Ageing swaps no two counts of 32 bits. -/
theorem scaleWord_decay_mono {v w : UInt64} (hvw : v ≤ w) (hw : w.toNat < 2 ^ 32) :
    Numerics.scaleWord (1.0 / decayBase) v ≤ Numerics.scaleWord (1.0 / decayBase) w := by
  by_cases hv : v = 0
  · subst hv
    have hzero : Numerics.scaleWord (1.0 / decayBase) 0 = 0 := by decide +kernel
    rw [hzero]
    exact UInt64.zero_le
  · rcases UInt64.lt_or_eq_of_le hvw with hlt | rfl
    · have hsmall := Nat.lt_trans (UInt64.lt_iff_toNat_lt.mp hlt) hw
      exact scaleWord_le_scaleWord unpack_decay (by decide) hv hlt hsmall
    · exact UInt64.le_refl _

/-- Ageing raises no count. -/
theorem scaleWord_decay_le (v : UInt64) : Numerics.scaleWord (1.0 / decayBase) v ≤ v := by
  by_cases hv : v = 0
  · subst hv
    decide +kernel
  · exact UInt64.le_of_lt (scaleWord_decay_lt hv)

end FlowSketch.Binary64
