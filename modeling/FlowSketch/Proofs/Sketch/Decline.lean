import FlowSketch.Proofs.Binary64.Factor
import FlowSketch.Proofs.Grid.Ageing
import FlowSketch.Proofs.Sketch.Exact

/-!
# FlowSketch.Proofs.Sketch.Decline

**Ageing raises no estimate.** This is a matter of the grid alone: it needs neither a sound grid nor
a listed key, and any factor between zero and one will do (`estimates_decline`). What could raise an
estimate is that the row with the least count falls out of the minimum. It does so when its count
comes to nothing, and then the key's estimate is zero (`Grid.estimate_attenuate_le`).
-/

namespace FlowSketch

/-- A scaling by a factor between zero and one raises no estimate. -/
theorem Grid.estimate_scaled_le {factor : Float} (hlow : 0.0 ≤ factor) (hhigh : factor ≤ 1.0)
    (g : Grid) (key : Key) :
    (g.attenuate (Numerics.scaleWord factor)).estimate key ≤ g.estimate key := by
  refine Grid.estimate_attenuate_le (fun n => ?_) g key
  apply Binary64.scaleWord_le_of_factor hlow hhigh
  rw [UInt32.toNat_toUInt64]
  exact n.toNat_lt

namespace Sketch

/-- In every grid, whatever its cells hold, a scaling by a factor between zero and one raises the
estimate of no key. So ageing a sketch raises no estimate, of listed and other keys alike. -/
theorem estimates_decline :
    (∀ factor : Float, 0.0 ≤ factor → factor ≤ 1.0 → ∀ (g : Grid) (key : Key),
      (g.attenuate (Numerics.scaleWord factor)).estimate key ≤ g.estimate key) ∧
    ∀ num : Numerics, num.scale = Numerics.scaleWord → ∀ (s : Sketch) (key : Key),
      (s.decay num).estimate key ≤ s.estimate key := by
  refine ⟨fun factor hlow hhigh => Grid.estimate_scaled_le hlow hhigh, ?_⟩
  intro num hscale s key
  have hlow : (0.0 : Float) ≤ 1.0 / decayBase := by decide +kernel
  have hhigh : 1.0 / decayBase ≤ 1.0 := by decide +kernel
  show (s.grid.attenuate (num.scale (1.0 / decayBase))).estimate key ≤ s.grid.estimate key
  rw [hscale]
  exact Grid.estimate_scaled_le hlow hhigh s.grid key

/-- A grid of two rows in which a key has one occurrence in the first row and thirty in the second. -/
def lopsidedGrid : Grid :=
  let g := Grid.empty ⟨2, 6⟩
  let first := g.locate [3] 0
  let second := g.locate [3] 1
  (g.setCell 0 first.column ⟨first.fingerprint, 1⟩).setCell 1 second.column
    ⟨second.fingerprint, 30⟩

/-- The one occurrence comes to nothing, and the thirty do not step in. -/
theorem estimates_decline_lopsidedGrid :
    (0.0 : Float) ≤ 0.9 ∧ (0.9 : Float) ≤ 1.0 ∧ lopsidedGrid.estimate [3] = 1 ∧
      (lopsidedGrid.attenuate (Numerics.scaleWord 0.9)).reading [3] 0 = .vacant ∧
      (lopsidedGrid.attenuate (Numerics.scaleWord 0.9)).reading [3] 1 = .own 27 ∧
      (lopsidedGrid.attenuate (Numerics.scaleWord 0.9)).estimate [3] ≤ 1 ∧
      quarterNumerics.scale = Numerics.scaleWord ∧
      (twoRowSketch.add quarterNumerics [3] 30).estimate [3] = 30 ∧
      ((twoRowSketch.add quarterNumerics [3] 30).decay quarterNumerics).estimate [3] ≤ 30 := by
  have hlow : (0.0 : Float) ≤ 0.9 := by decide +kernel
  have hhigh : (0.9 : Float) ≤ 1.0 := by decide +kernel
  have hbefore : lopsidedGrid.estimate [3] = 1 := by decide +kernel
  have hrecorded : (twoRowSketch.add quarterNumerics [3] 30).estimate [3] = 30 := by decide +kernel
  refine ⟨hlow, hhigh, hbefore, by decide +kernel, by decide +kernel, ?_, rfl, hrecorded, ?_⟩
  · have hgrid := estimates_decline.1 0.9 hlow hhigh lopsidedGrid [3]
    rwa [hbefore] at hgrid
  · have hsketch := estimates_decline.2 quarterNumerics rfl
      (twoRowSketch.add quarterNumerics [3] 30) [3]
    rwa [hrecorded] at hsketch

end Sketch

end FlowSketch
