import FlowSketch.Proofs.Binary64.Division

/-!
# FlowSketch.Proofs.Binary64.Columns

**Every row has at least three columns.** The base of the natural logarithm by a fraction is above
two: it is no smaller than the base itself, but for one unit in the last place, and the base is far
more than that above two (`two_lt_euler_div`). What is above two is rounded up to three or more
(`three_le_ceilNat`). This holds of infinity too, so no case is made of a quotient that overflows.
-/

namespace FlowSketch.Binary64

open Float.Model (UnpackedFloat)

theorem unpack_two : (2.0 : Float).toModel.unpack =
    .finite .positive (2 ^ 52) (-51) (by decide) := rfl

/-- The base of the natural logarithm by a fraction is above two. -/
theorem two_lt_euler_div {epsilon : Float} (h : Accuracy.isFraction epsilon = true) :
    2.0 < Accuracy.euler / epsilon := by
  have hlt : UnpackedFloat.lt (2.0 : Float).toModel.unpack
      (Accuracy.euler / epsilon).toModel.unpack = true := by
    rcases quotient_bounds unpack_euler (by decide) (by decide) (.inr rfl) h with
      hinfinite | ⟨m, e, hpos, hfinite, -, hvalue⟩
    · rw [hinfinite]
      rfl
    · have hcompare : (compare (-51) e).then (compare (2 ^ 52) m) = .lt := by
        rcases hvalue with he | ⟨rfl, hm⟩
        · rw [Int.compare_eq_lt.mpr he]
          rfl
        · rw [Int.compare_eq_eq.mpr rfl, Nat.compare_eq_lt.mpr (by omega)]
          rfl
      rw [unpack_two, hfinite]
      simpa [UnpackedFloat.lt, UnpackedFloat.compare] using hcompare
  exact decide_eq_true hlt

/-- The whole part of a float above two. -/
theorem two_le_toUInt64 {x : Float} (h : 2.0 < x) : 2 ≤ x.toUInt64.toNat := by
  have hlt : UnpackedFloat.lt (2.0 : Float).toModel.unpack x.toModel.unpack = true :=
    of_decide_eq_true h
  change 2 ≤ x.toModel.unpack.toUInt64.toNat
  rw [unpack_two] at hlt
  cases hx : x.toModel.unpack with
  | notANumber =>
      rw [hx] at hlt
      cases hlt
  | zero sign =>
      rw [hx] at hlt
      cases hlt
  | infinity sign =>
      cases sign with
      | positive => decide
      | negative =>
          rw [hx] at hlt
          cases hlt
  | finite sign m e hpos =>
      obtain ⟨-, -, hnormal⟩ := finite_bounds hx
      rw [hx] at hlt
      cases sign with
      | negative => cases hlt
      | positive =>
          have hcompare : (compare (-51) e).then (compare (2 ^ 52) m) = .lt := by
            simpa [UnpackedFloat.lt, UnpackedFloat.compare] using hlt
          have hplace : -51 ≤ e := by
            rcases Ordering.then_eq_lt.mp hcompare with he | ⟨he, -⟩
            · exact Int.le_of_lt (Int.compare_eq_lt.mp he)
            · exact Int.le_of_eq (Int.compare_eq_eq.mp he)
          have hlow : 2 ^ 52 ≤ m := hnormal.resolve_right (by omega)
          obtain ⟨up, down, rfl, hdown⟩ : ∃ up down : Nat, e = up - (down : Int) ∧ down ≤ 51 :=
            ⟨e.toNat, (-e).toNat, by omega, by omega⟩
          have hwhole : 2 ≤ m * 2 ^ up / 2 ^ down := by
            rw [Nat.le_div_iff_mul_le (Nat.two_pow_pos down)]
            calc 2 * 2 ^ down ≤ 2 * 2 ^ 51 :=
                  Nat.mul_le_mul_left 2 (Nat.pow_le_pow_right (by decide) hdown)
              _ ≤ m := hlow
              _ ≤ m * 2 ^ up := Nat.le_mul_of_pos_right m (Nat.two_pow_pos up)
          rw [toNat_toUInt64_eq_min]
          omega

/-- A float above two, rounded up. -/
theorem three_le_ceilNat {x : Float} (h : 2.0 < x) : 3 ≤ ceilNat x := by
  have hwhole := two_le_toUInt64 h
  unfold ceilNat
  dsimp only
  split
  · omega
  · rename_i hnot
    by_contra hless
    have heq : x.toUInt64 = 2 := UInt64.toNat_inj.mp (show _ = 2 by omega)
    have hfloat : (2 : UInt64).toFloat = 2.0 := by decide +kernel
    rw [heq, hfloat] at hnot
    exact hnot h

/-- Every row of a grid has at least three columns. -/
theorem three_le_columns {epsilon : Float} (h : Accuracy.isFraction epsilon = true) :
    3 ≤ Accuracy.columns epsilon :=
  three_le_ceilNat (two_lt_euler_div h)

end FlowSketch.Binary64
