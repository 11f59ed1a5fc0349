import FlowSketch.Grid
import FlowSketch.Proofs.Cell
import Mathlib.Data.List.Nodup

/-!
# FlowSketch.Proofs.Grid

**What recording does to the cells.** The cells of a grid stand in one array, but a row and a column
inside the row name one place of it only (`index_inj`). So the rows do not disturb each other:
recording a key changes in every row the cell at the key's place, by what that cell itself receives,
and no other cell (`recordRows_spec`). The readings it returns are those of the changed cells.

A grid is `Sound` if its array has the size that its shape says and every cell is whole; all
operations on grids keep it so. Sound grids whose cells do not tie anywhere (`TieFree`) merge to the
same grid in either order (`Sound.merge_comm`).
-/

namespace FlowSketch.Grid

/-- The array has the size of the shape, and every cell is whole. -/
structure Sound (g : Grid) : Prop where
  size : g.cells.size = g.cellCount
  whole : ∀ c ∈ g.cells.toList, c.Whole

variable {g : Grid} {row row' column column' : Nat}

/-! ### Places in the array -/

theorem index_inj (hc : column < g.width) (hc' : column' < g.width)
    (h : g.index row column = g.index row' column') : row = row' ∧ column = column' := by
  have hpos : 0 < g.width := Nat.zero_lt_of_lt hc
  have hrow := congrArg (· / g.width) h
  have hcolumn := congrArg (· % g.width) h
  simp only [index, Nat.mul_comm _ g.width, Nat.mul_add_div hpos, Nat.div_eq_of_lt hc,
    Nat.div_eq_of_lt hc', Nat.add_zero] at hrow
  simp only [index, Nat.mul_comm _ g.width, Nat.mul_add_mod, Nat.mod_eq_of_lt hc,
    Nat.mod_eq_of_lt hc'] at hcolumn
  exact ⟨hrow, hcolumn⟩

theorem index_lt (hr : row < g.depth) (hc : column < g.width) :
    g.index row column < g.cellCount := by
  calc g.index row column < row * g.width + g.width := Nat.add_lt_add_left hc _
    _ = (row + 1) * g.width := (Nat.succ_mul _ _).symm
    _ ≤ g.cellCount := Nat.mul_le_mul_right _ hr

/-- Inside the shape of a sound grid there is a cell. -/
theorem Sound.exists_cell (hg : g.Sound) (hr : row < g.depth) (hc : column < g.width) :
    ∃ c, g.cell? row column = some c := by
  have hlt : g.index row column < g.cells.size := by
    rw [hg.size]
    exact index_lt hr hc
  exact ⟨_, Array.getElem?_eq_getElem hlt⟩

theorem Sound.whole_cell (hg : g.Sound) {c : Cell} (h : g.cell? row column = some c) : c.Whole :=
  hg.whole c (Array.mem_toList_iff.mpr (Array.mem_of_getElem? h))

/-- A sound grid with a cell has columns. -/
theorem Sound.width_ne_zero (hg : g.Sound) {c : Cell} (h : g.cell? row column = some c) :
    g.width ≠ 0 := by
  intro hw
  have hlt := (Array.getElem?_eq_some_iff.mp h).choose
  rw [hg.size, Shape.cellCount, hw] at hlt
  exact absurd hlt (Nat.not_lt_zero _)

/-- Every cell of the array has a row and a column. -/
theorem exists_place {i : Nat} (hi : i < g.cellCount) :
    ∃ row column, row < g.depth ∧ column < g.width ∧ g.index row column = i := by
  have hpos : 0 < g.width := by
    by_contra hw
    rw [Shape.cellCount, Nat.eq_zero_of_not_pos hw] at hi
    exact absurd hi (Nat.not_lt_zero i)
  refine ⟨i / g.width, i % g.width, ?_, Nat.mod_lt i hpos, ?_⟩
  · rw [Nat.div_lt_iff_lt_mul hpos]
    exact hi
  · show i / g.width * g.width + i % g.width = i
    rw [Nat.mul_comm]
    exact Nat.div_add_mod i g.width

/-- Sound grids of one shape that agree place by place are equal. -/
theorem Sound.ext {g' : Grid} (hg : g.Sound) (hg' : g'.Sound) (hshape : g.toShape = g'.toShape)
    (h : ∀ row column, row < g.depth → column < g.width →
      g.cell? row column = g'.cell? row column) : g = g' := by
  have hcells : g.cells = g'.cells := by
    refine Array.ext_getElem? fun i => ?_
    by_cases hi : i < g.cellCount
    · obtain ⟨row, column, hr, hc, rfl⟩ := exists_place hi
      have hindex : g'.index row column = g.index row column := by rw [index, index, hshape]
      have hcell := h row column hr hc
      rw [cell?, cell?, hindex] at hcell
      exact hcell
    · rw [Array.getElem?_eq_none (by rw [hg.size]; exact Nat.le_of_not_lt hi),
        Array.getElem?_eq_none (by rw [hg'.size, ← hshape]; exact Nat.le_of_not_lt hi)]
  show Grid.mk g.toShape g.cells = Grid.mk g'.toShape g'.cells
  rw [hshape, hcells]

/-- A grid is sound if it is so place by place. -/
theorem sound_of_cells (hsize : g.cells.size = g.cellCount)
    (hwhole : ∀ row column c, row < g.depth → column < g.width → g.cell? row column = some c →
      c.Whole) : g.Sound where
  size := hsize
  whole := by
    intro c hc
    obtain ⟨i, hi⟩ := List.mem_iff_getElem?.mp hc
    rw [Array.getElem?_toList] at hi
    have hlt : i < g.cellCount := by
      rw [← hsize]
      exact (Array.getElem?_eq_some_iff.mp hi).choose
    obtain ⟨row, column, hr, hcol, rfl⟩ := exists_place hlt
    exact hwhole row column c hr hcol hi

/-- A located column lies inside its row, unless the rows have no cells at all. -/
theorem locate_column_lt (hw : g.width ≠ 0) (key : Key) (row : Nat) :
    (g.locate key row).column < g.width :=
  Place.column_lt (Nat.pos_of_ne_zero hw) key row

/-! ### One row -/

theorem cell?_setCell (g : Grid) (row column : Nat) (c : Cell) (row' column' : Nat) :
    (g.setCell row column c).cell? row' column' =
      if g.index row column = g.index row' column' then
        (g.cell? row' column').map fun _ => c
      else g.cell? row' column' := by
  show (g.cells.setIfInBounds _ c)[g.index row' column']? = _
  rw [Array.getElem?_setIfInBounds]
  unfold cell?
  by_cases hindex : g.index row column = g.index row' column'
  · rw [if_pos hindex, if_pos hindex, hindex]
    split
    · rename_i hlt
      rw [Array.getElem?_eq_getElem hlt]
      rfl
    · rename_i hge
      rw [Array.getElem?_eq_none (Nat.le_of_not_lt hge)]
      rfl
  · rw [if_neg hindex, if_neg hindex]

/-- Inside the rows a write shows at its own row and column, and nowhere else. -/
theorem cell?_setCell_of_lt (hc : column < g.width) (hc' : column' < g.width) (c : Cell) :
    (g.setCell row column c).cell? row' column' =
      if row' = row ∧ column' = column then (g.cell? row' column').map fun _ => c
      else g.cell? row' column' := by
  rw [cell?_setCell]
  by_cases hplace : row' = row ∧ column' = column
  · obtain ⟨rfl, rfl⟩ := hplace
    rw [if_pos rfl, if_pos ⟨rfl, rfl⟩]
  · rw [if_neg hplace, if_neg]
    intro hindex
    obtain ⟨hrow, hcolumn⟩ := index_inj hc hc' hindex
    exact hplace ⟨hrow.symm, hcolumn.symm⟩

/-- Writing into one row leaves the key's places in the other rows as they were. -/
theorem cell?_setCell_locate (hsize : g.cells.size = g.cellCount) {key : Key} {c : Cell}
    (hne : row ≠ row') :
    (g.setCell row (g.locate key row).column c).cell? row' (g.locate key row').column =
      g.cell? row' (g.locate key row').column := by
  rw [cell?_setCell]
  by_cases hindex : g.index row (g.locate key row).column = g.index row' (g.locate key row').column
  · by_cases hw : g.width = 0
    · -- without columns there are no cells, and nothing is written
      have hnone : g.cell? row' (g.locate key row').column = none := by
        apply Array.getElem?_eq_none
        rw [hsize, Shape.cellCount, hw]
        exact Nat.zero_le _
      rw [if_pos hindex, hnone]
      rfl
    · exact absurd (index_inj (locate_column_lt hw key row) (locate_column_lt hw key row') hindex).1
        hne
  · rw [if_neg hindex]

/-- What the cell at the key's place in a row becomes when the source of gaps is in a state. -/
def receivedAt {σ : Type} (gap : GapSource σ) (key : Key) (increment : UInt32) (g : Grid)
    (row : Nat) (s : σ) : Cell :=
  (((g.cell? row (g.locate key row).column).getD .vacant).receive gap
    (g.locate key row).fingerprint increment s).cell

theorem receivedAt_setCell {σ : Type} (gap : GapSource σ) (key : Key) (increment : UInt32)
    (hsize : g.cells.size = g.cellCount) (hne : row ≠ row') (c : Cell) (s : σ) :
    receivedAt gap key increment (g.setCell row (g.locate key row).column c) row' s =
      receivedAt gap key increment g row' s := by
  have hlocate : (g.setCell row (g.locate key row).column c).locate key = g.locate key := rfl
  unfold receivedAt
  rw [hlocate, cell?_setCell_locate hsize hne]

/-- Recording changes the cells at the key's places in the given rows, and returns the readings of
the changed cells. The states of the source of gaps are those that it has at each row. -/
theorem recordRows_spec {σ : Type} (gap : GapSource σ) (key : Key) (increment : UInt32)
    {rows : List Nat} (hnodup : rows.Nodup) (g : Grid) (hsize : g.cells.size = g.cellCount)
    (s : σ) :
    ∃ states : Nat → σ,
      (recordRows gap key increment rows g s).readings =
        rows.map (fun row =>
          (receivedAt gap key increment g row (states row)).read (g.locate key row).fingerprint) ∧
      ∀ row column, column < g.width →
        (recordRows gap key increment rows g s).grid.cell? row column =
          if row ∈ rows ∧ column = (g.locate key row).column then
            (g.cell? row column).map fun _ => receivedAt gap key increment g row (states row)
          else g.cell? row column := by
  induction rows generalizing g s with
  | nil =>
      refine ⟨fun _ => s, rfl, ?_⟩
      intro row column _
      rw [if_neg fun h => absurd h.1 List.not_mem_nil]
      rfl
  | cons first rest ih =>
      obtain ⟨hfirst, hrest⟩ := List.nodup_cons.mp hnodup
      generalize hnext : recordRow gap key increment g s first = next
      have hgrid : next.grid = g.setCell first (g.locate key first).column
          (receivedAt gap key increment g first s) := by
        rw [← hnext]
        rfl
      have hshape : next.grid.toShape = g.toShape := by rw [hgrid, toShape_setCell]
      have hlocate : next.grid.locate key = g.locate key := by rw [hgrid]; rfl
      obtain ⟨states, hreadings, hcells⟩ :=
        ih hrest next.grid (by rw [hgrid, size_setCell]; exact hsize) next.state
      have hlater : ∀ row ∈ rest, receivedAt gap key increment next.grid row (states row) =
          receivedAt gap key increment g row (states row) := by
        intro row hrow
        have hne : first ≠ row := fun heq => hfirst (heq ▸ hrow)
        rw [hgrid, receivedAt_setCell gap key increment hsize hne]
      -- the first row is served in the state at hand, the others as the induction says
      refine ⟨fun row => if row = first then s else states row, ?_, ?_⟩
      · have hhead : next.readings =
            [(receivedAt gap key increment g first s).read (g.locate key first).fingerprint] := by
          rw [← hnext]
          rfl
        simp only [recordRows, hnext, hreadings, hhead, hlocate, List.map_cons, if_true,
          List.singleton_append]
        congr 1
        apply List.map_congr_left
        intro row hrow
        have hne : row ≠ first := fun heq => hfirst (heq ▸ hrow)
        rw [hlater row hrow, if_neg hne]
      · intro row column hcolumn
        simp only [recordRows, hnext]
        rw [hcells row column (by rw [hgrid]; exact hcolumn), hlocate]
        have hplace : (g.locate key first).column < g.width :=
          locate_column_lt (Nat.ne_of_gt (Nat.zero_lt_of_lt hcolumn)) key first
        by_cases hrow : row = first
        · subst hrow
          rw [if_neg fun h => hfirst h.1, hgrid, cell?_setCell_of_lt hplace hcolumn]
          by_cases hcol : column = (g.locate key row).column
          · rw [if_pos ⟨rfl, hcol⟩, if_pos ⟨List.mem_cons_self, hcol⟩, if_pos rfl]
          · rw [if_neg fun h => hcol h.2, if_neg fun h => hcol h.2]
        · have hframe : next.grid.cell? row column = g.cell? row column := by
            rw [hgrid, cell?_setCell_of_lt hplace hcolumn, if_neg fun h => hrow h.1]
          rw [hframe, if_neg hrow]
          by_cases htouched : row ∈ rest ∧ column = (g.locate key row).column
          · rw [if_pos htouched, if_pos ⟨List.mem_cons_of_mem _ htouched.1, htouched.2⟩,
              hlater row htouched.1]
          · rw [if_neg htouched, if_neg]
            intro h
            rcases List.mem_cons.mp h.1 with heq | hmem
            · exact hrow heq
            · exact htouched ⟨hmem, h.2⟩

/-! ### All rows -/

/-- The cell at a key's place becomes what one of the four effects makes of it. -/
theorem change_receivedAt {σ : Type} (gap : GapSource σ) (key : Key) (increment : UInt32)
    (g : Grid) (row : Nat) (s : σ) :
    ∃ outcome, ((g.cell? row (g.locate key row).column).getD .vacant).Change
      (g.locate key row).fingerprint increment outcome (receivedAt gap key increment g row s) :=
  ⟨_, Cell.change_receive gap _ _ increment s⟩

/-- After a recording, a cell is the one that was there or, at the key's place, one of the effects
on it. -/
theorem Sound.cell?_record {σ : Type} (hg : g.Sound) (gap : GapSource σ) (key : Key)
    (increment : UInt32) (s : σ) {after : Cell} (hr : row < g.depth) (hc : column < g.width)
    (h : (g.record gap key increment s).grid.cell? row column = some after) :
    ∃ before, g.cell? row column = some before ∧
      (after = before ∨ column = (g.locate key row).column ∧
        ∃ outcome, before.Change (g.locate key row).fingerprint increment outcome after) := by
  obtain ⟨states, -, hcells⟩ := recordRows_spec gap key increment List.nodup_range g hg.size s
  rw [record, hcells row column hc] at h
  obtain ⟨before, hbefore⟩ := hg.exists_cell hr hc
  refine ⟨before, hbefore, ?_⟩
  by_cases htouched : row ∈ List.range g.depth ∧ column = (g.locate key row).column
  · obtain ⟨-, rfl⟩ := htouched
    obtain ⟨outcome, hchange⟩ := change_receivedAt gap key increment g row (states row)
    rw [if_pos ⟨List.mem_range.mpr hr, rfl⟩, hbefore] at h
    rw [hbefore] at hchange
    cases h
    exact .inr ⟨rfl, outcome, hchange⟩
  · rw [if_neg htouched, hbefore] at h
    cases h
    exact .inl rfl

/-- The readings that a recording returns are those of cells that have just received the count. -/
theorem Sound.readings_record {σ : Type} (hg : g.Sound) (gap : GapSource σ) (key : Key)
    (increment : UInt32) (s : σ) {reading : Reading}
    (h : reading ∈ (g.record gap key increment s).readings) :
    ∃ row outcome after, row < g.depth ∧
      ((g.cell? row (g.locate key row).column).getD .vacant).Change
        (g.locate key row).fingerprint increment outcome after ∧
      reading = after.read (g.locate key row).fingerprint := by
  obtain ⟨states, hreadings, -⟩ := recordRows_spec gap key increment List.nodup_range g hg.size s
  rw [record, hreadings] at h
  obtain ⟨row, hrow, rfl⟩ := List.mem_map.mp h
  obtain ⟨outcome, hchange⟩ := change_receivedAt gap key increment g row (states row)
  exact ⟨row, outcome, _, List.mem_range.mp hrow, hchange, rfl⟩

/-! ### Soundness is kept -/

theorem eq_vacant_of_replicate {n : Nat} (h : g.cells = Array.replicate n .vacant) {c : Cell}
    (hc : g.cell? row column = some c) : c = .vacant := by
  rw [cell?, h] at hc
  have hmem := Array.mem_toList_iff.mpr (Array.mem_of_getElem? hc)
  rw [Array.toList_replicate] at hmem
  exact List.eq_of_mem_replicate hmem

theorem sound_of_replicate {n : Nat} (h : g.cells = Array.replicate n .vacant)
    (hsize : g.cells.size = g.cellCount) : g.Sound := by
  refine sound_of_cells hsize ?_
  intro row column c _ _ hc
  rw [eq_vacant_of_replicate h hc]
  exact Cell.whole_vacant

theorem sound_empty (shape : Shape) : (empty shape).Sound :=
  sound_of_replicate rfl (size_empty shape)

theorem isEmpty_empty (shape : Shape) : (empty shape).isEmpty = true := by
  rw [isEmpty, Array.all_eq_true']
  intro c hc
  rw [Array.eq_of_mem_replicate hc]
  rfl

/-- Where no cell has a count, no cell has an owner either. -/
theorem Sound.isEmpty_iff (hg : g.Sound) : g.isEmpty = true ↔ g = .empty g.toShape := by
  constructor
  · intro h
    have hcells : g.cells = Array.replicate g.cellCount .vacant :=
      Array.eq_replicate_iff.mpr ⟨hg.size, fun c hc =>
        (hg.whole c (Array.mem_toList_iff.mpr hc)).eq_vacant (Array.all_eq_true'.mp h c hc)⟩
    show Grid.mk g.toShape g.cells = Grid.mk g.toShape _
    rw [hcells]
  · intro h
    rw [h]
    exact isEmpty_empty g.toShape

theorem Sound.record {σ : Type} (hg : g.Sound) (gap : GapSource σ) (key : Key)
    {increment : UInt32} (hinc : increment ≠ 0) (s : σ) :
    (g.record gap key increment s).grid.Sound := by
  have hshape : (g.record gap key increment s).grid.toShape = g.toShape := toShape_recordRows ..
  refine sound_of_cells ?_ ?_
  · rw [hshape, ← hg.size]
    exact size_recordRows ..
  · intro row column after hr hc hafter
    rw [hshape] at hr hc
    obtain ⟨before, hbefore, rfl | ⟨-, outcome, hchange⟩⟩ :=
      hg.cell?_record gap key increment s hr hc hafter
    · exact hg.whole_cell hbefore
    · exact hchange.whole (hg.whole_cell hbefore) (Place.fingerprint_ne_zero _ _ _) hinc

theorem Sound.attenuate (hg : g.Sound) (scale : UInt64 → UInt64) : (g.attenuate scale).Sound where
  size := (size_attenuate scale g).trans hg.size
  whole := by
    intro c hc
    rw [Grid.attenuate, Array.toList_map] at hc
    obtain ⟨before, hbefore, rfl⟩ := List.mem_map.mp hc
    exact (hg.whole before hbefore).attenuate scale

theorem Sound.clear (hg : g.Sound) : g.clear.Sound :=
  sound_of_replicate rfl ((size_clear g).trans hg.size)

theorem cell?_attenuate (scale : UInt64 → UInt64) (g : Grid) (row column : Nat) :
    (g.attenuate scale).cell? row column = (g.cell? row column).map (Cell.attenuate scale) :=
  Array.getElem?_map

/-- Where both grids have a cell, the merged grid has the merge of the two. -/
theorem cell?_merge_of {mine theirs : Grid} (hshape : mine.toShape = theirs.toShape) {a b : Cell}
    (ha : mine.cell? row column = some a) (hb : theirs.cell? row column = some b) :
    (mine.merge theirs).cell? row column = some (a.merge b) := by
  have hindex : theirs.index row column = mine.index row column := by
    rw [index, index, hshape]
  rw [cell?, hindex] at hb
  exact Array.getElem?_zipWith_eq_some.mpr ⟨a, b, ha, hb, rfl⟩

/-- A cell of a merged grid is the merge of the two cells at its place. -/
theorem cell?_merge {mine theirs : Grid} (hshape : mine.toShape = theirs.toShape) {c : Cell}
    (h : (mine.merge theirs).cell? row column = some c) :
    ∃ a b, mine.cell? row column = some a ∧ theirs.cell? row column = some b ∧ c = a.merge b := by
  have hindex : theirs.index row column = mine.index row column := by
    rw [index, index, hshape]
  obtain ⟨a, b, ha, hb, rfl⟩ := Array.getElem?_zipWith_eq_some.mp h
  refine ⟨a, b, ha, ?_, rfl⟩
  rw [cell?, hindex]
  exact hb

theorem Sound.merge {mine theirs : Grid} (hmine : mine.Sound) (htheirs : theirs.Sound)
    (hshape : mine.toShape = theirs.toShape) : (mine.merge theirs).Sound := by
  refine sound_of_cells ?_ ?_
  · rw [size_merge (by rw [hmine.size, htheirs.size, hshape])]
    exact hmine.size
  · intro row column c _ _ hc
    obtain ⟨a, b, ha, hb, rfl⟩ := cell?_merge hshape hc
    exact (hmine.whole_cell ha).merge (htheirs.whole_cell hb)

/-! ### The order of a merge -/

/-- At no place do different owners meet with equal counts. -/
def TieFree (mine theirs : Grid) : Prop :=
  ∀ row, row < mine.depth → ∀ column, column < mine.width →
    ∀ a ∈ mine.cell? row column, ∀ b ∈ theirs.cell? row column, ¬ a.Ties b

instance (mine theirs : Grid) : Decidable (mine.TieFree theirs) :=
  inferInstanceAs (Decidable (∀ row, row < mine.depth → ∀ column, column < mine.width → _))

/-- Without ties it does not matter which grid takes in the other. -/
theorem Sound.merge_comm {mine theirs : Grid} (hmine : mine.Sound) (htheirs : theirs.Sound)
    (hshape : mine.toShape = theirs.toShape) (h : mine.TieFree theirs) :
    mine.merge theirs = theirs.merge mine := by
  refine (hmine.merge htheirs hshape).ext (htheirs.merge hmine hshape.symm) hshape ?_
  intro row column hr hc
  obtain ⟨a, ha⟩ := hmine.exists_cell hr hc
  obtain ⟨b, hb⟩ := htheirs.exists_cell (hshape ▸ hr) (hshape ▸ hc)
  rw [cell?_merge_of hshape ha hb, cell?_merge_of hshape.symm hb ha,
    (hmine.whole_cell ha).merge_comm (htheirs.whole_cell hb) (h row hr column hc a ha b hb)]

end FlowSketch.Grid
