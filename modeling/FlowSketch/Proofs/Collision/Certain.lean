import FlowSketch.Proofs.Binary64.Scaling
import FlowSketch.Proofs.Cell

/-!
# FlowSketch.Proofs.Collision.Certain

**Where chance has no say.** If every unit is sure to lower the incumbent, spending units is a
subtraction (`erode_of_certain`): the newcomer wins the cell exactly if it has no fewer units than
the incumbent, and otherwise the incumbent keeps the difference. If no unit can lower the incumbent,
nothing happens, however many there are. In neither case is the random stream touched.

A loss is sure when its probability is at least one, and impossible when it is at most zero; the two
tests are made in this order, and no float passes both (`not_one_le_of_le_zero`). With base one every
loss is sure, since a count times the logarithm of one is a zero (`decayProbability_one`).
-/

namespace FlowSketch

open Float.Model (Format UnpackedFloat)
open Float.Model.UnpackedFloat (neg pack unpack)

/-! ### Spending units -/

section Erosion

variable {σ : Type} {gap : GapSource σ} {counter : Nat} {s : σ}

/-- If the next unit always takes one from the counter, the units are subtracted. -/
theorem erode_of_certain (hgap : ∀ n, n ≠ 0 → n ≤ counter → gap n s = (some 1, s)) (units : Nat) :
    erode gap counter units s = (counter - units, s) := by
  induction counter generalizing units with
  | zero => rw [erode, Nat.zero_sub]
  | succ n ih =>
      have hdraw := hgap (n + 1) (Nat.succ_ne_zero n) (Nat.le_refl _)
      unfold erode
      rw [hdraw]
      dsimp only
      by_cases hspent : units < 1
      · obtain rfl : units = 0 := by omega
        rw [if_pos hspent, Nat.sub_zero]
      · have hleft : n - (units - 1) = n + 1 - units := by omega
        rw [if_neg hspent, ih (fun m hm hle => hgap m hm (Nat.le_succ_of_le hle)), hleft]

/-- If no number of units takes one from the counter, all of it is left. -/
theorem erode_of_impossible (hpos : counter ≠ 0) (hgap : gap counter s = (none, s)) (units : Nat) :
    erode gap counter units s = (counter, s) := by
  obtain ⟨n, rfl⟩ := Nat.exists_eq_succ_of_ne_zero hpos
  unfold erode
  rw [hgap]

end Erosion

/-! ### Receiving a count -/

namespace Cell

variable {σ : Type} {gap : GapSource σ} {c : Cell} {fingerprint : UInt32} {s : σ}

theorem toNat_counter_ne_zero (hempty : c.isEmpty = false) : c.counter.toNat ≠ 0 :=
  fun hzero => counter_ne_zero hempty (UInt32.toNat_inj.mp hzero)

/-- Where every unit counts, the newcomer wins the cell unless the incumbent has more units. -/
theorem receive_of_certain (hempty : c.isEmpty = false) (hforeign : c.fingerprint ≠ fingerprint)
    (hgap : ∀ n, n ≠ 0 → n ≤ c.counter.toNat → gap n s = (some 1, s)) (increment : UInt32) :
    c.receive gap fingerprint increment s =
      if c.counter ≤ increment then ⟨.replaced, ⟨fingerprint, increment⟩, s⟩
      else ⟨.decayed increment.toNat, ⟨c.fingerprint, c.counter - increment⟩, s⟩ := by
  rw [receive, hempty, if_neg Bool.false_ne_true, if_neg hforeign, erode_of_certain hgap]
  by_cases hle : c.counter ≤ increment
  · have hnone : c.counter.toNat - increment.toNat = 0 :=
      Nat.sub_eq_zero_of_le (UInt32.le_iff_toNat_le.mp hle)
    rw [if_pos hle, hnone]
  · have hlt : increment < c.counter := UInt32.not_le.mp hle
    have hlt' := UInt32.lt_iff_toNat_lt.mp hlt
    obtain ⟨left, hleft⟩ : ∃ left, c.counter.toNat - increment.toNat = left + 1 :=
      ⟨c.counter.toNat - increment.toNat - 1, by omega⟩
    have hlost : c.counter.toNat - (left + 1) = increment.toNat := by omega
    have hcounter : UInt32.ofNat (left + 1) = c.counter - increment := by
      have hword := c.counter.toNat_lt
      rw [← UInt32.toNat_inj, UInt32.toNat_sub_of_le _ _ (UInt32.le_of_lt hlt), hleft,
        UInt32.toNat_ofNat_of_lt' (by show left + 1 < 2 ^ 32; omega)]
    rw [if_neg hle, hleft]
    dsimp only
    rw [hlost, hcounter]

/-- Where no unit counts, the cell stays as it was. -/
theorem receive_of_impossible (hempty : c.isEmpty = false) (hforeign : c.fingerprint ≠ fingerprint)
    (hgap : gap c.counter.toNat s = (none, s)) (increment : UInt32) :
    c.receive gap fingerprint increment s = ⟨.decayed 0, c, s⟩ := by
  have hpos := toNat_counter_ne_zero hempty
  obtain ⟨n, hn⟩ := Nat.exists_eq_succ_of_ne_zero hpos
  have hcounter : UInt32.ofNat (n + 1) = c.counter := by rw [← UInt32.ofNat_toNat (x := c.counter), hn]
  rw [receive, hempty, if_neg Bool.false_ne_true, if_neg hforeign,
    erode_of_impossible hpos hgap, hn]
  dsimp only
  rw [Nat.sub_self, hcounter]

end Cell

/-! ### Probabilities -/

namespace Binary64

/-- No float is both at most zero and at least one. -/
theorem not_one_le_of_le_zero {p : Float} (h : p ≤ 0.0) : ¬ (1.0 : Float) ≤ p := by
  have hzero : (0.0 : Float).toModel.unpack = .zero .positive := rfl
  intro hle
  have hlow : UnpackedFloat.le p.toModel.unpack (0.0 : Float).toModel.unpack = true :=
    of_decide_eq_true h
  have hhigh : UnpackedFloat.le (1.0 : Float).toModel.unpack p.toModel.unpack = true :=
    of_decide_eq_true hle
  have hone : (1.0 : Float).toModel.unpack = .finite .positive (2 ^ 52) (-52) (by decide) := rfl
  rw [hzero] at hlow
  rw [hone] at hhigh
  cases hp : p.toModel.unpack with
  | notANumber =>
      rw [hp] at hlow
      cases hlow
  | zero sign =>
      rw [hp] at hhigh
      cases hhigh
  | infinity sign =>
      rw [hp] at hlow hhigh
      cases sign with
      | positive => cases hlow
      | negative => cases hhigh
  | finite sign m e hpos =>
      rw [hp] at hlow hhigh
      cases sign with
      | positive => cases hlow
      | negative => cases hhigh

/-- A count with its sign turned is a negative number. -/
theorem unpack_neg_toFloat {v : UInt64} (hv : v ≠ 0) :
    ∃ (m : Nat) (e : Int) (hpos : 0 < m),
      (-v.toFloat).toModel.unpack = .finite .negative m e hpos := by
  obtain ⟨m, raised, lowered, hpos, hfloat, hlow, hhigh, hraised, hlowered, -⟩ := unpack_toFloat hv
  refine ⟨m, raised - lowered, hpos, ?_⟩
  change unpack Format.binary64 (pack Format.binary64 (neg v.toFloat.toModel.unpack)) = _
  rw [hfloat]
  exact unpack_pack_normal .negative hpos hlow hhigh (by omega) (by omega)

/-- A count with its sign turned, times zero, is the negative zero. -/
theorem neg_toFloat_mul_zero (v : UInt64) : -v.toFloat * 0.0 = -0.0 := by
  have hzero : (0.0 : Float).toModel.unpack = .zero .positive := rfl
  have hproduct : (-v.toFloat * 0.0).toModel.unpack = .zero .negative := by
    change unpack Format.binary64 (pack Format.binary64
      (.mul Format.binary64 (-v.toFloat).toModel.unpack (0.0 : Float).toModel.unpack)) = _
    by_cases hv : v = 0
    · subst hv
      rfl
    · obtain ⟨m, e, hpos, hneg⟩ := unpack_neg_toFloat hv
      rw [hneg, hzero]
      change unpack Format.binary64 (pack Format.binary64 (.zero .negative)) = .zero .negative
      rfl
  exact eq_of_unpack_eq hproduct

end Binary64

namespace Numerics

variable {num : Numerics} {probability : Nat → Float} {counter : Nat}

/-- A sure loss takes the next unit, and draws nothing. -/
theorem gapOf_of_one_le (h : 1.0 ≤ probability counter) (g : Xoshiro) :
    num.gapOf probability counter g = (some 1, g) :=
  if_pos h

/-- An impossible loss takes no number of units, and draws nothing. -/
theorem gapOf_of_le_zero (h : probability counter ≤ 0.0) (g : Xoshiro) :
    num.gapOf probability counter g = (none, g) := by
  unfold gapOf
  dsimp only
  rw [if_neg (Binary64.not_one_le_of_le_zero h), if_pos h]

/-- With base one every loss is sure. -/
theorem decayProbability_one (hln : num.ln 1.0 = 0.0) (hexp : num.exp (-0.0) = 1.0)
    (counter : Nat) : num.decayProbability 1.0 counter = 1.0 := by
  rw [decayProbability, hln, Binary64.neg_toFloat_mul_zero, hexp]

end Numerics

/-! ### Collisions without chance -/

/-- At a cell of another key with sure losses the newcomer wins unless the incumbent has more units,
and then keeps the difference; with impossible losses the cell stays as it was. The random stream is
not touched. With base one, all losses are sure. -/
theorem Cell.receive_without_chance (num : Numerics) (base : Float) {c : Cell}
    {fingerprint : UInt32} (hempty : c.isEmpty = false) (hforeign : c.fingerprint ≠ fingerprint)
    (increment : UInt32) (s : Xoshiro) :
    ((∀ n, n ≠ 0 → n ≤ c.counter.toNat → 1.0 ≤ num.decayProbability base n) →
      c.receive (num.gap base) fingerprint increment s =
        if c.counter ≤ increment then ⟨.replaced, ⟨fingerprint, increment⟩, s⟩
        else ⟨.decayed increment.toNat, ⟨c.fingerprint, c.counter - increment⟩, s⟩) ∧
    (num.decayProbability base c.counter.toNat ≤ 0.0 →
      c.receive (num.gap base) fingerprint increment s = ⟨.decayed 0, c, s⟩) ∧
    (num.ln 1.0 = 0.0 → num.exp (-0.0) = 1.0 → ∀ n, 1.0 ≤ num.decayProbability 1.0 n) := by
  refine ⟨fun hcertain => ?_, fun himpossible => ?_, fun hln hexp n => ?_⟩
  · exact receive_of_certain hempty hforeign
      (fun n hn hle => Numerics.gapOf_of_one_le (hcertain n hn hle) s) increment
  · exact receive_of_impossible hempty hforeign (Numerics.gapOf_of_le_zero himpossible s) increment
  · rw [Numerics.decayProbability_one hln hexp n]
    decide +kernel

/-- Real functions near the two ends: the logarithms of one and of the base of the decay, and an
exponential that is one at zero and vanishes far below. -/
def steepNumerics : Numerics :=
  { Numerics.machine with
    ln := fun x => if x == 1.0 then 0.0 else 0.0769610411361284
    exp := fun x => if x < -745.2 then 0.0 else 1.0 }

/-- With base one, of three units five leave nothing and two leave one; a counter of a hundred
thousand does not notice the largest increment there is. -/
theorem Cell.receive_without_chance_three :
    (Cell.mk 7 3).isEmpty = false ∧ (7 : UInt32) ≠ 42 ∧
      steepNumerics.ln 1.0 = 0.0 ∧ steepNumerics.exp (-0.0) = 1.0 ∧
      steepNumerics.decayProbability decayBase 100000 ≤ 0.0 ∧
      Cell.receive (steepNumerics.gap 1.0) ⟨7, 3⟩ 42 5 (.ofSeed 1) =
        ⟨.replaced, ⟨42, 5⟩, .ofSeed 1⟩ ∧
      Cell.receive (steepNumerics.gap 1.0) ⟨7, 3⟩ 42 2 (.ofSeed 1) =
        ⟨.decayed 2, ⟨7, 1⟩, .ofSeed 1⟩ ∧
      Cell.receive (steepNumerics.gap decayBase) ⟨7, 100000⟩ 42 4294967295 (.ofSeed 1) =
        ⟨.decayed 0, ⟨7, 100000⟩, .ofSeed 1⟩ := by
  have hempty : (Cell.mk 7 3).isEmpty = false := by decide
  have hempty' : (Cell.mk 7 100000).isEmpty = false := by decide
  have hforeign : (7 : UInt32) ≠ 42 := by decide
  have hln : steepNumerics.ln 1.0 = 0.0 := by decide +kernel
  have hexp : steepNumerics.exp (-0.0) = 1.0 := by decide +kernel
  have himpossible : steepNumerics.decayProbability decayBase 100000 ≤ 0.0 := by decide +kernel
  have hfive := receive_without_chance steepNumerics 1.0 hempty hforeign 5 (.ofSeed 1)
  have htwo := receive_without_chance steepNumerics 1.0 hempty hforeign 2 (.ofSeed 1)
  have hmost := receive_without_chance steepNumerics decayBase hempty' hforeign 4294967295 (.ofSeed 1)
  exact ⟨hempty, hforeign, hln, hexp, himpossible,
    hfive.1 fun n _ _ => hfive.2.2 hln hexp n, htwo.1 fun n _ _ => htwo.2.2 hln hexp n,
    hmost.2.1 himpossible⟩

end FlowSketch
