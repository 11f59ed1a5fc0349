import FlowSketch.Proofs.Leaderboard.Frame
import FlowSketch.Proofs.Sketch.Recording

/-!
# FlowSketch.Proofs.Sketch.Frame

**What recording a key leaves alone.** The grid is written at the places of the key only, one in each
row, and the rows do not overlap. The leaderboard gets one offer, which is the key at the estimate that
a query gives afterwards. So no other listed key changes its estimate or its rank among the others; at
most the last one leaves, and it had a smaller estimate (`add_leaves_others`).
-/

namespace FlowSketch.Sketch

variable {num : Numerics} {s : Sketch}

/-- Recording leaves the leaderboard alone, or it is the offer of the key at its new estimate. -/
theorem Sound.board_add (hs : s.Sound num) (key : Key) (count : UInt64) :
    (s.add num key count).board = s.board ∨
      (s.add num key count).board = (s.board.offer key ((s.add num key count).estimate key)).2 := by
  by_cases hcount : count = 0
  · left
    rw [Sketch.add, if_pos hcount]
  · by_cases hlength : key.length ≤ maxWord32
    · right
      rw [← hs.leastCount_recorded key hcount, add_of_ne_zero key hcount, if_pos hlength]
    · left
      rw [add_of_ne_zero key hcount, if_neg hlength]

/-- Recording leaves every cell that is not at a place of the key. -/
theorem Sound.cell?_add (hs : s.Sound num) (key : Key) (count : UInt64) {row column : Nat}
    (hcolumn : column < s.grid.width) (hne : column ≠ (s.grid.locate key row).column) :
    (s.add num key count).grid.cell? row column = s.grid.cell? row column := by
  by_cases hcount : count = 0
  · rw [Sketch.add, if_pos hcount]
  · rw [add_of_ne_zero key hcount]
    exact hs.grid.cell?_record_of_ne _ key _ _ hcolumn hne

/-- Recording a key in a reachable sketch keeps the parameters, the shape and every cell but the one at
the key's place in each row. The ranked entries of all other keys are the same, with their estimates,
their ages and their order, unless the key was not listed and supplants the last entry of a full ranking:
the least by estimate and age, with an estimate below that of the key, at which the key is listed now. A
count of zero changes nothing at all. -/
theorem add_leaves_others (hs : Reachable num s) (key : Key) (count : UInt64) {after : Sketch}
    (hafter : s.add num key count = after) :
    after.accuracy = s.accuracy ∧ s.board.capacity = s.accuracy.k ∧
    after.grid.toShape = s.grid.toShape ∧ after.grid.cells.size = s.grid.cells.size ∧
    (∀ row column, column < s.grid.width → column ≠ (s.grid.locate key row).column →
      after.grid.cell? row column = s.grid.cell? row column) ∧
    (Entry.besides key after.board.rankedEntries = Entry.besides key s.board.rankedEntries ∨
      ∃ least, s.board.Supplants after.board key (after.estimate key) least) ∧
    (count = 0 → after = s) := by
  subst hafter
  have hsound := hs.sound
  have haccuracy : (s.add num key count).accuracy = s.accuracy := accuracy_add key count
  have hshape := ((hsound.add key count).agrees hsound haccuracy).1
  refine ⟨haccuracy, hsound.capacity, hshape, ?_, fun row column => hsound.cell?_add key count, ?_,
    fun hcount => if_pos hcount⟩
  · rw [(hsound.add key count).grid.size, hsound.grid.size, hshape]
  · rcases hsound.board_add key count with hboard | hboard
    · exact .inl (by rw [hboard])
    · -- the estimate is now a number like any other that the key could be offered at
      generalize (s.add num key count).estimate key = estimate at hboard ⊢
      rw [hboard]
      exact hsound.board.besides_offer key estimate

/-- A third key supplants the older one of two that tie. The other one and its cell stay. -/
theorem add_leaves_others_tiedSketch :
    Reachable halfNumerics tiedSketch ∧ tiedSketch.topK = [([2], 3), ([1], 3)] ∧
      (tiedSketch.add halfNumerics [5] 4).topK = [([5], 4), ([2], 3)] ∧
      (∃ least, tiedSketch.board.Supplants (tiedSketch.add halfNumerics [5] 4).board [5] 4 least) ∧
      (tiedSketch.add halfNumerics [5] 4).grid.cell? 0 1 = tiedSketch.grid.cell? 0 1 := by
  have hestimate : (tiedSketch.add halfNumerics [5] 4).estimate [5] = 4 := by decide +kernel
  obtain ⟨-, -, -, -, hcells, hview, -⟩ := add_leaves_others reachable_tiedSketch [5] 4 rfl
  rw [hestimate] at hview
  have hleft : Entry.besides [5] (tiedSketch.add halfNumerics [5] 4).board.rankedEntries ≠
      Entry.besides [5] tiedSketch.board.rankedEntries := by decide +kernel
  refine ⟨reachable_tiedSketch, by decide +kernel, by decide +kernel, hview.resolve_left hleft, ?_⟩
  exact hcells 0 1 (by decide +kernel) (by decide +kernel)

end FlowSketch.Sketch
