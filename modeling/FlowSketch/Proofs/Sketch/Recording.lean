import FlowSketch.Proofs.Grid.Recording
import FlowSketch.Proofs.Leaderboard.Standing
import FlowSketch.Proofs.Sketch.Storage

/-!
# FlowSketch.Proofs.Sketch.Recording

**What recording a key does to a sketch.** The count that the key is offered to the leaderboard with
is read off the cells while they are written. It is the estimate that a query gives afterwards, since
no place of the key is left empty, so the view shows the key with at least its estimate, or has no
room for it (`add_reaches_view`).
-/

namespace FlowSketch.Sketch

variable {num : Numerics} {s : Sketch}

/-- The key is offered with the estimate that a query gives afterwards. -/
theorem Sound.leastCount_recorded (hs : s.Sound num) (key : Key) {count : UInt64}
    (hcount : count ≠ 0) :
    Grid.leastCount (s.recorded num key count).readings = (s.add num key count).estimate key := by
  rw [add_of_ne_zero key hcount]
  exact hs.grid.leastCount_record_eq hs.width_ne_zero _ key (increment_ne_zero hcount) _

/-- When a count of a key that is short enough to be listed was recorded in a reachable sketch, none of
the key's cells is empty, and the leaderboard was offered the key at the estimate that a query gives
now. If that estimate is positive, the view lists the key with no less, or is full of entries with no
less. -/
theorem add_reaches_view (hs : Reachable num s) {key : Key} (hlength : key.length ≤ maxWord32)
    {count : UInt64} (hcount : count ≠ 0) {after : Sketch} (hafter : s.add num key count = after) :
    (∀ row, row < after.grid.depth → ∃ c,
      after.grid.cell? row (after.grid.locate key row).column = some c ∧ c.isEmpty = false) ∧
    Grid.leastCount (s.recorded num key count).readings = after.estimate key ∧
    after.board = (s.board.offer key (after.estimate key)).2 ∧
    (after.estimate key ≠ 0 →
      (∃ x ∈ after.topK, x.1 = key ∧ after.estimate key ≤ x.2) ∨
        after.topK.length = after.accuracy.k ∧ ∀ x ∈ after.topK, after.estimate key ≤ x.2) := by
  have hsound := hs.sound
  have hread := hsound.leastCount_recorded key hcount
  have hboard : after.board = (s.board.offer key (after.estimate key)).2 := by
    rw [← hafter, ← hread, add_of_ne_zero key hcount, if_pos hlength]
  have hgrid : after.grid = (s.recorded num key count).grid := by
    rw [← hafter, add_of_ne_zero key hcount]
  refine ⟨fun row hrow => ?_, hafter ▸ hread, hboard, fun hpos => ?_⟩
  · rw [hgrid, toShape_recorded] at hrow
    rw [hgrid, recorded, Grid.locate_record]
    exact hsound.grid.taken_record hsound.width_ne_zero _ key (increment_ne_zero hcount) _ hrow
  · have hcapacity : s.board.capacity = after.accuracy.k := by
      rw [← hafter, accuracy_add]
      exact hsound.capacity
    rw [topK, hboard, Leaderboard.length_ranking, ← hcapacity]
    rcases hsound.board.listed_or_full key hpos with ⟨e, he, hkey, hle⟩ | ⟨hfull, hleast⟩
    · exact .inl ⟨e.listed, Leaderboard.mem_ranking.mpr ⟨e, he, rfl⟩, hkey, hle⟩
    · refine .inr ⟨hfull, fun x hx => ?_⟩
      obtain ⟨e, he, rfl⟩ := Leaderboard.mem_ranking.mp hx
      exact hleast e he

/-- A sketch of one row whose only rank is taken. -/
def takenSketch : Sketch :=
  oneKeySketch.add halfNumerics [1] 5

theorem reachable_takenSketch : Reachable halfNumerics takenSketch :=
  (Reachable.create create_oneKeySketch).add [1] 5

/-- A lighter key stays out, at the estimate that a query gives. -/
theorem add_reaches_view_takenSketch :
    Reachable halfNumerics takenSketch ∧ ([5] : Key).length ≤ maxWord32 ∧ (4 : UInt64) ≠ 0 ∧
      (takenSketch.add halfNumerics [5] 4).estimate [5] = 4 ∧
      (takenSketch.add halfNumerics [5] 4).topK = [([1], 5)] ∧
      (takenSketch.add halfNumerics [5] 4).board =
        (takenSketch.board.offer [5] ((takenSketch.add halfNumerics [5] 4).estimate [5])).2 ∧
      ((∃ x ∈ (takenSketch.add halfNumerics [5] 4).topK, x.1 = [5] ∧ 4 ≤ x.2) ∨
        (takenSketch.add halfNumerics [5] 4).topK.length = 1 ∧
          ∀ x ∈ (takenSketch.add halfNumerics [5] 4).topK, 4 ≤ x.2) := by
  have hestimate : (takenSketch.add halfNumerics [5] 4).estimate [5] = 4 := by decide +kernel
  obtain ⟨-, -, hboard, hview⟩ :=
    add_reaches_view reachable_takenSketch (by decide : ([5] : Key).length ≤ maxWord32)
      (by decide : (4 : UInt64) ≠ 0) rfl
  rw [hestimate] at hview
  exact ⟨reachable_takenSketch, by decide, by decide, hestimate, by decide +kernel, hboard,
    hview (by decide)⟩

end FlowSketch.Sketch
