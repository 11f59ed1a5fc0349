import FlowSketch.Hash.Digest
import Mathlib.Data.Nat.ModEq
import Mathlib.Data.Nat.Prime.Basic

/-!
# FlowSketch.Proofs.Hash

**Under different seeds a short key has different hashes.** Up to eight bytes, the hash of a key takes
the seed into one word and from then on only permutes the words, so no two seeds lead to the same hash
(`digest_injective`). Longer keys go through folded products, which are no permutations.

Every step is shown to lose nothing by itself:

* multiplication by an odd word, which has no factor in common with the number of words;
* a word xored onto its own shift, since a difference that equals its own shift is zero;
* a word xored onto two of its rotations. A difference that this does not show equals the xor of its
  two rotations, and then also the xor of its rotations by twice the distances (`turned_twice`). After
  three doublings one of them is a whole turn, and nothing is left for the other.
-/

namespace FlowSketch.Hash

open Function (Injective)

/-! ### Products -/

/-- Multiplication by an odd word permutes the words. -/
theorem mul_injective_of_odd {m : UInt64} (hm : Odd m.toNat) : Injective fun x : UInt64 => x * m := by
  intro x y h
  have hmod : x.toNat * m.toNat ≡ y.toNat * m.toNat [MOD 2 ^ 64] := by
    have hnat := congrArg UInt64.toNat h
    simp only [UInt64.toNat_mul] at hnat
    exact hnat
  have hcoprime : Nat.Coprime (2 ^ 64) m.toNat := (Nat.coprime_two_left.mpr hm).pow_left 64
  have hcancel := Nat.ModEq.cancel_right_of_coprime hcoprime hmod
  exact UInt64.toNat_inj.mp (hcancel.eq_of_lt_of_lt x.toNat_lt y.toNat_lt)

/-! ### Shifts -/

theorem xor_eq_xor_comm {x y a b : UInt64} (h : x ^^^ a = y ^^^ b) : x ^^^ y = a ^^^ b := by
  rw [← UInt64.xor_eq_zero_iff] at h ⊢
  rw [← h]
  ac_rfl

/-- A word that equals its own shift is zero. -/
theorem eq_zero_of_eq_shiftRight {d k : UInt64} (hk : k.toNat % 64 ≠ 0) (h : d = d >>> k) : d = 0 := by
  have hnat := congrArg UInt64.toNat h
  rw [UInt64.toNat_shiftRight, Nat.shiftRight_eq_div_pow] at hnat
  refine UInt64.toNat_inj.mp (Nat.eq_zero_of_not_pos fun hpos => ?_)
  have hlt := Nat.div_lt_self hpos (Nat.one_lt_two_pow hk)
  omega

/-- Xoring a word onto its own shift permutes the words. -/
theorem xorShift_injective {k : UInt64} (hk : k.toNat % 64 ≠ 0) :
    Injective fun x : UInt64 => x ^^^ (x >>> k) := by
  intro x y h
  have hdiff : x ^^^ y = (x ^^^ y) >>> k := by
    rw [UInt64.shiftRight_xor]
    exact xor_eq_xor_comm h
  exact UInt64.xor_eq_zero_iff.mp (eq_zero_of_eq_shiftRight hk hdiff)

/-- A small number that is added to the shift does not reach the bits that the shift is taken from. -/
theorem shiftRight_add_shiftRight {n : UInt64} (hn : n.toNat < 2 ^ 34) (x : UInt64) :
    ((x >>> 35) + n) >>> 35 = 0 := by
  have hx := x.toNat_lt
  refine UInt64.toNat_inj.mp ?_
  rw [UInt64.toNat_shiftRight, UInt64.toNat_add, UInt64.toNat_shiftRight, Nat.shiftRight_eq_div_pow,
    Nat.shiftRight_eq_div_pow]
  change (x.toNat / 2 ^ 35 + n.toNat) % 2 ^ 64 / 2 ^ 35 = 0
  omega

/-- Xoring a word onto its own shift by 35 with a small number added permutes the words. -/
theorem xorShiftAdd_injective {n : UInt64} (hn : n.toNat < 2 ^ 34) :
    Injective fun x : UInt64 => x ^^^ ((x >>> 35) + n) := by
  intro x y h
  dsimp only at h
  -- the upper bits pass unchanged and give away what the lower ones were xored with
  have hupper : x >>> 35 = y >>> 35 := by
    have hshift := congrArg (fun w : UInt64 => w >>> 35) h
    simpa only [UInt64.shiftRight_xor, shiftRight_add_shiftRight hn, UInt64.xor_zero] using hshift
  rw [hupper] at h
  exact (UInt64.xor_left_inj _).mp h

/-! ### Rotations -/

/-- A bit of a rotated word is the bit `count` places below it, around the end of the word. -/
theorem getLsbD_rotateLeft (count : UInt64) (hpos : 0 < count.toNat) (hlt : count.toNat < 64)
    (x : UInt64) {i : Nat} (hi : i < 64) :
    (rotateLeft x count).toBitVec.getLsbD i =
      x.toBitVec.getLsbD ((i + (64 - count.toNat)) % 64) := by
  have hback : (64 - count).toNat = 64 - count.toNat := by
    rw [UInt64.toNat_sub_of_le]
    · rfl
    · exact UInt64.le_iff_toNat_le.mpr (Nat.le_of_lt hlt)
  have hleft : (count.toBitVec % 64).toNat = count.toNat := Nat.mod_eq_of_lt hlt
  have hright : ((64 - count).toBitVec % 64).toNat = 64 - count.toNat := by
    show (64 - count).toNat % 64 = 64 - count.toNat
    omega
  simp only [rotateLeft, UInt64.toBitVec_or, UInt64.toBitVec_shiftLeft, UInt64.toBitVec_shiftRight,
    BitVec.getLsbD_or, BitVec.shiftLeft_eq', BitVec.ushiftRight_eq', BitVec.getLsbD_shiftLeft,
    BitVec.getLsbD_ushiftRight, hleft, hright]
  by_cases hwrap : i < count.toNat
  · have hmod : (i + (64 - count.toNat)) % 64 = 64 - count.toNat + i := by omega
    simp [hwrap, hmod]
  · have hmod : (i + (64 - count.toNat)) % 64 = i - count.toNat := by omega
    have hout : x.toBitVec.getLsbD (64 - count.toNat + i) = false :=
      BitVec.getLsbD_of_ge _ _ (by omega)
    simp [hwrap, hmod, hi, hout]

theorem rotateLeft_xor (count : UInt64) (hpos : 0 < count.toNat) (hlt : count.toNat < 64)
    (x y : UInt64) : rotateLeft (x ^^^ y) count = rotateLeft x count ^^^ rotateLeft y count := by
  refine UInt64.toBitVec_inj.mp (BitVec.eq_of_getLsbD_eq fun i hi => ?_)
  simp only [UInt64.toBitVec_xor, BitVec.getLsbD_xor, getLsbD_rotateLeft count hpos hlt _ hi]

/-- An equation between a bit and two bits in fixed distances holds for twice the distances too. -/
theorem turned_twice {bit : Nat → Bool} {m n : Nat}
    (h : ∀ i, bit i = (bit (i + m) ^^ bit (i + n))) (i : Nat) :
    bit i = (bit (i + 2 * m) ^^ bit (i + 2 * n)) := by
  have hm : bit (i + m) = (bit (i + 2 * m) ^^ bit (i + m + n)) := by
    rw [h (i + m), Nat.two_mul, Nat.add_assoc i m m]
  have hn : bit (i + n) = (bit (i + m + n) ^^ bit (i + 2 * n)) := by
    rw [h (i + n), Nat.add_right_comm, Nat.two_mul, Nat.add_assoc i n n]
  rw [h i, hm, hn, Bool.xor_assoc, ← Bool.xor_assoc (bit (i + m + n)), Bool.xor_self, Bool.false_xor]

/-- A word that equals the xor of its rotations by 49 and 24 is zero. -/
theorem eq_zero_of_eq_rotations {d : UInt64} (h : d = rotateLeft d 49 ^^^ rotateLeft d 24) :
    d = 0 := by
  let bit (i : Nat) : Bool := d.toBitVec.getLsbD (i % 64)
  have hturn (i k : Nat) : bit (i + 64 * k) = bit i := by
    simp only [bit, Nat.add_mul_mod_self_left]
  have honce (i : Nat) : bit i = (bit (i + 15) ^^ bit (i + 40)) := by
    have hi : i % 64 < 64 := Nat.mod_lt i (by decide)
    have h49 := getLsbD_rotateLeft 49 (by decide) (by decide) d hi
    have h24 := getLsbD_rotateLeft 24 (by decide) (by decide) d hi
    have hbit := congrArg (fun w : UInt64 => w.toBitVec.getLsbD (i % 64)) h
    simp only [UInt64.toBitVec_xor, BitVec.getLsbD_xor, h49, h24, Nat.mod_add_mod] at hbit
    exact hbit
  -- after three doublings the second distance is five whole turns
  have hturned := turned_twice (turned_twice (turned_twice honce))
  have hnone (i : Nat) : bit i = false := by
    have hhere : bit (i + 8) = (bit (i + 64 * 2) ^^ bit (i + 8 + 64 * 5)) := hturned (i + 8)
    rw [hturn, hturn] at hhere
    exact Bool.xor_left_inj.mp (hhere.symm.trans (Bool.false_xor _).symm)
  refine UInt64.toBitVec_inj.mp (BitVec.eq_of_getLsbD_eq fun i hi => ?_)
  have hzero := hnone i
  simp only [bit, Nat.mod_eq_of_lt hi] at hzero
  exact hzero.trans BitVec.getLsbD_zero.symm

/-- Xoring a word onto its rotations by 49 and 24 permutes the words. -/
theorem xorRotations_injective :
    Injective fun x : UInt64 => x ^^^ rotateLeft x 49 ^^^ rotateLeft x 24 := by
  intro x y h
  have hdiff : x ^^^ y = rotateLeft (x ^^^ y) 49 ^^^ rotateLeft (x ^^^ y) 24 := by
    rw [rotateLeft_xor 49 (by decide) (by decide), rotateLeft_xor 24 (by decide) (by decide)]
    simp only [UInt64.xor_assoc] at h
    rw [xor_eq_xor_comm h]
    ac_rfl
  exact UInt64.xor_eq_zero_iff.mp (eq_zero_of_eq_rotations hdiff)

/-! ### Avalanches -/

theorem shortAvalanche_injective : Injective shortAvalanche := by
  have hfirst : Injective fun h : UInt64 => h ^^^ (h >>> 33) := xorShift_injective (by decide)
  have hsecond : Injective fun h : UInt64 => h ^^^ (h >>> 29) := xorShift_injective (by decide)
  have hlast : Injective fun h : UInt64 => h ^^^ (h >>> 32) := xorShift_injective (by decide)
  have htwo := mul_injective_of_odd (m := prime64Two) (by decide)
  have hthree := mul_injective_of_odd (m := prime64Three) (by decide)
  exact hlast.comp (hthree.comp (hsecond.comp (htwo.comp hfirst)))

/-- The avalanche of four to eight bytes permutes the words, for every length below 2³⁴. -/
theorem rotatingAvalanche_injective {length : UInt64} (hlength : length.toNat < 2 ^ 34) :
    Injective (rotatingAvalanche length) := by
  have hadd := xorShiftAdd_injective hlength
  have hlast : Injective fun h : UInt64 => h ^^^ (h >>> 28) := xorShift_injective (by decide)
  have hmul := mul_injective_of_odd (m := multiplierTwo) (by decide)
  exact hlast.comp (hmul.comp (hadd.comp (hmul.comp xorRotations_injective)))

/-! ### Seeds -/

theorem lowHalf_xor_shiftLeft (x y : UInt64) : lowHalf (x ^^^ (y <<< 32)) = lowHalf x := by
  have hlow (z : UInt64) : (lowHalf z).toNat = z.toNat % 2 ^ 32 :=
    Nat.and_two_pow_sub_one_eq_mod z.toNat 32
  have hshift : (y <<< 32).toNat % 2 ^ 32 = 0 := by
    rw [UInt64.toNat_shiftLeft, Nat.shiftLeft_eq]
    change y.toNat * 2 ^ 32 % 2 ^ 64 % 2 ^ 32 = 0
    omega
  refine UInt64.toNat_inj.mp ?_
  rw [hlow, hlow, UInt64.toNat_xor, Nat.xor_mod_two_pow, hshift, Nat.xor_zero]

/-- Xoring the reversed lower half onto the upper half permutes the words. -/
theorem xorSwapped_injective :
    Injective fun seed : UInt64 => seed ^^^ (swapBytes32 (lowHalf seed) <<< 32) := by
  intro seed seed' h
  dsimp only at h
  -- the lower half passes unchanged and gives away what the upper one was xored with
  have hlow : lowHalf seed = lowHalf seed' := by
    have hhalf := congrArg lowHalf h
    rwa [lowHalf_xor_shiftLeft, lowHalf_xor_shiftLeft] at hhalf
  rw [hlow] at h
  exact (UInt64.xor_left_inj _).mp h

/-- No two seeds lead to the same hash of an input of up to eight bytes. -/
theorem digest_injective {input : Array UInt8} (hsize : input.size ≤ 8) : Injective (digest input) := by
  intro seed seed' h
  simp only [digest, if_pos hsize] at h
  split at h
  · exact (UInt64.xor_left_inj _).mp (shortAvalanche_injective h)
  · split at h
    · exact (UInt64.add_right_inj _).mp ((UInt64.xor_right_inj _).mp (shortAvalanche_injective h))
    · have hlength : (UInt64.ofNat input.size).toNat < 2 ^ 34 := by
        rw [UInt64.toNat_ofNat_of_lt' (Nat.lt_of_le_of_lt hsize (by decide))]
        omega
      have hword := rotatingAvalanche_injective hlength h
      exact xorSwapped_injective ((UInt64.sub_right_inj _).mp ((UInt64.xor_right_inj _).mp hword))

end FlowSketch.Hash
