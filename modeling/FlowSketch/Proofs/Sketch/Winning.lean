import FlowSketch.Proofs.Grid.Winning
import FlowSketch.Proofs.Sketch.Agreement

/-!
# FlowSketch.Proofs.Sketch.Winning

**Recording a key may lower its own estimate.** It does if a cell is won from another key in the course
of it and the count is less than the estimate was (`add_lowers_estimate`), and only then
(`add_falls_by_winning`). A newcomer to a cell gets its increment and nothing else, which keeps the cell
from claiming occurrences for the key that were another key's; the price is that the cells of one key may
disagree, and that the least of them speaks.
-/

namespace FlowSketch.Sketch

variable {num : Numerics} {s : Sketch}

/-- Another occurrence of `[1]` takes its shared place away from `[3]`, and its estimate goes from two
to one. -/
theorem add_lowers_estimate :
    Reachable quarterNumerics sharedSketch ∧ (1 : UInt64) ≠ 0 ∧ sharedSketch.estimate [1] = 2 ∧
      (sharedSketch.add quarterNumerics [1] 1).estimate [1] = 1 ∧
      ¬ sharedSketch.estimate [1] ≤ (sharedSketch.add quarterNumerics [1] 1).estimate [1] :=
  ⟨reachable_sharedSketch, by decide, by decide +kernel, by decide +kernel, by decide +kernel⟩

/-- A count that is recorded in a reachable sketch lowers the estimate of its own key if and only if the
key wins a cell that was another key's and the increment is below the estimate that the key had. After a
win the estimate is the increment. This is so for every source of random gaps in every state, of which
that of the sketch is one. -/
theorem add_falls_by_winning (hs : Reachable num s) (key : Key) {count : UInt64}
    (hcount : count ≠ 0) :
    s.grid.FallsByWinning key (increment count) (s.add num key count).grid ∧
    ∀ {σ : Type} (gap : GapSource σ) (t : σ),
      s.grid.FallsByWinning key (increment count)
        (s.grid.record gap key (increment count) t).grid := by
  have hsound := hs.sound
  have hinc := increment_ne_zero hcount
  have hrecord : ∀ {σ : Type} (gap : GapSource σ) (t : σ),
      s.grid.FallsByWinning key (increment count)
        (s.grid.record gap key (increment count) t).grid := fun gap t =>
    (hsound.grid.receives_record hsound.width_ne_zero gap key hinc t).fallsByWinning hinc
  refine ⟨?_, hrecord⟩
  rw [add_of_ne_zero key hcount]
  exact hrecord _ _

/-- The estimate that fell was lowered by a cell that was won, to the increment. -/
theorem add_falls_by_winning_sharedSketch :
    Reachable quarterNumerics sharedSketch ∧ (1 : UInt64) ≠ 0 ∧
      sharedSketch.grid.Wins [1] (sharedSketch.add quarterNumerics [1] 1).grid ∧
      (sharedSketch.add quarterNumerics [1] 1).estimate [1] = 1 := by
  have hfalls := (add_falls_by_winning reachable_sharedSketch [1] (by decide : (1 : UInt64) ≠ 0)).1
  have hlower : (sharedSketch.add quarterNumerics [1] 1).grid.estimate [1] <
      sharedSketch.grid.estimate [1] := by decide +kernel
  have hwins := (hfalls.falls_iff.mp hlower).1
  exact ⟨reachable_sharedSketch, by decide, hwins, hfalls.won hwins⟩

end FlowSketch.Sketch
