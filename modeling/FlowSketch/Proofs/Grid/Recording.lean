import FlowSketch.Proofs.Grid.Ageing
import FlowSketch.Proofs.Grid.Exact

/-!
# FlowSketch.Proofs.Grid.Recording

**Recording reads back what a query would.** Recording returns what it has just written, row by row,
and passes over the rows where the key is not the owner. A query looks the key up again, and gives up
at an empty place. The two agree because the rows do not overlap, so the readings that recording
returns are still those of the finished grid (`Sound.readings_record_eq`), and because a cell that has
received a count is never empty (`Sound.taken_record`).
-/

namespace FlowSketch.Grid

variable {σ : Type} {g : Grid}

/-- Recording leaves the key's place in every row with the cell that has received the count, and
returns what these cells say. -/
theorem Sound.cells_record (hg : g.Sound) (hwidth : g.width ≠ 0) (gap : GapSource σ) (key : Key)
    (increment : UInt32) (s : σ) :
    ∃ states : Nat → σ,
      (g.record gap key increment s).readings = (List.range g.depth).map (fun row =>
        (receivedAt gap key increment g row (states row)).read (g.locate key row).fingerprint) ∧
      ∀ row, row < g.depth →
        (g.record gap key increment s).grid.cell? row (g.locate key row).column =
          some (receivedAt gap key increment g row (states row)) := by
  obtain ⟨states, hreadings, hcells⟩ := recordRows_spec gap key increment List.nodup_range g hg.size s
  refine ⟨states, hreadings, fun row hrow => ?_⟩
  have hcolumn := locate_column_lt hwidth key row
  obtain ⟨before, hbefore⟩ := hg.exists_cell hrow hcolumn
  rw [Grid.record, hcells row _ hcolumn, if_pos ⟨List.mem_range.mpr hrow, rfl⟩, hbefore]
  rfl

/-- Recording leaves the cells at other places. -/
theorem Sound.cell?_record_of_ne (hg : g.Sound) (gap : GapSource σ) (key : Key)
    (increment : UInt32) (s : σ) {row column : Nat} (hcolumn : column < g.width)
    (hne : column ≠ (g.locate key row).column) :
    (g.record gap key increment s).grid.cell? row column = g.cell? row column := by
  obtain ⟨states, -, hcells⟩ := recordRows_spec gap key increment List.nodup_range g hg.size s
  rw [Grid.record, hcells row column hcolumn, if_neg fun h => hne h.2]

theorem locate_record (gap : GapSource σ) (key : Key) (increment : UInt32) (g : Grid) (s : σ) :
    (g.record gap key increment s).grid.locate = g.locate :=
  locate_of_shape (toShape_recordRows ..)

/-- The readings that a recording returns are those of the grid it leaves. -/
theorem Sound.readings_record_eq (hg : g.Sound) (hwidth : g.width ≠ 0) (gap : GapSource σ)
    (key : Key) (increment : UInt32) (s : σ) :
    (g.record gap key increment s).readings =
      (g.record gap key increment s).grid.readings key := by
  have hshape : (g.record gap key increment s).grid.toShape = g.toShape := toShape_recordRows ..
  obtain ⟨states, hreadings, hcells⟩ := hg.cells_record hwidth gap key increment s
  rw [hreadings, readings, hshape]
  refine List.map_congr_left fun row hrow => ?_
  rw [reading, locate_record, hcells row (List.mem_range.mp hrow), Option.getD_some]

/-- After a recording no place of the key is empty. -/
theorem Sound.taken_record (hg : g.Sound) (hwidth : g.width ≠ 0) (gap : GapSource σ) (key : Key)
    {increment : UInt32} (hinc : increment ≠ 0) (s : σ) {row : Nat} (hrow : row < g.depth) :
    ∃ c, (g.record gap key increment s).grid.cell? row (g.locate key row).column = some c ∧
      c.isEmpty = false := by
  obtain ⟨states, -, hcells⟩ := hg.cells_record hwidth gap key increment s
  refine ⟨_, hcells row hrow, ?_⟩
  obtain ⟨outcome, hchange⟩ := change_receivedAt gap key increment g row (states row)
  rw [Bool.eq_false_iff, ne_eq, Cell.isEmpty_iff]
  exact hchange.counter_ne_zero hinc

/-- A cell that is not empty does not read as vacant. -/
theorem reading_ne_vacant_of_cell {key : Key} {row : Nat} {c : Cell}
    (hcell : g.cell? row (g.locate key row).column = some c) (hfull : c.isEmpty = false) :
    g.reading key row ≠ .vacant := by
  rw [reading, hcell, Option.getD_some, Cell.read, hfull, if_neg Bool.false_ne_true]
  split <;> exact Reading.noConfusion

/-- The least count that a recording reads back is the estimate of the key in the grid it leaves. -/
theorem Sound.leastCount_record_eq (hg : g.Sound) (hwidth : g.width ≠ 0) (gap : GapSource σ)
    (key : Key) {increment : UInt32} (hinc : increment ≠ 0) (s : σ) :
    leastCount (g.record gap key increment s).readings =
      (g.record gap key increment s).grid.estimate key := by
  have hshape : (g.record gap key increment s).grid.toShape = g.toShape := toShape_recordRows ..
  rw [hg.readings_record_eq hwidth]
  refine (estimate_of_taken fun row hrow => ?_).symm
  rw [hshape] at hrow
  obtain ⟨c, hcell, hfull⟩ := hg.taken_record hwidth gap key hinc s hrow
  rw [← locate_record gap key increment g s] at hcell
  exact reading_ne_vacant_of_cell hcell hfull

end FlowSketch.Grid
