import FlowSketch.Proofs.Checked.Word
import FlowSketch.Proofs.Grid

/-!
# FlowSketch.Proofs.Checked.Grid

**Cells are read and written inside the array, and counters stay in their words.** The index of a
cell is a product and a sum; it is below the number of cells because a row is below the depth and a
column, as the remainder of a hash, below the width. So a machine reads every cell that an estimate
looks at and writes every cell that a recording changes (`estimateChecked_eq`, `recordChecked_eq`).

In a collision the units that are left and the counter go down, and the number of lost units goes
up. The units that a gap covers were there to be spent, and every lost unit was one of the counter, so
neither difference falls below zero and the number of lost units fits where the counter did
(`erodeChecked_eq`).
-/

namespace FlowSketch

/-! ### Collisions -/

/-- What a collision leaves: the units that were lost, the counter, and the following state of the
source of gaps. -/
structure Eroded (σ : Type) where
  lost : Nat
  left : Nat
  state : σ

/-- Units are spent on a counter in gaps, and the lost ones are counted. -/
def erodeChecked {σ : Type} (gap : GapSource σ) (counter remaining lost : Nat) (s : σ) :
    Checked (Eroded σ) :=
  match gap counter s with
  | (none, s) => return ⟨lost, counter, s⟩
  | (some g, s) =>
    if remaining < g then return ⟨lost, counter, s⟩
    else do
      let remaining ← Checked.minus remaining g
      let lost ← Checked.plus 32 lost 1
      match counter with
      | 0 => .error .underflow
      | left + 1 => if left = 0 then return ⟨lost, 0, s⟩ else erodeChecked gap left remaining lost s

/-- Every lost unit is one of the counter. -/
theorem erodeChecked_eq {σ : Type} (gap : GapSource σ) {counter lost : Nat} (hpos : counter ≠ 0)
    (hfits : lost + counter < 2 ^ 32) (remaining : Nat) (s : σ) :
    erodeChecked gap counter remaining lost s =
      .ok ⟨lost + (counter - (erode gap counter remaining s).1),
        (erode gap counter remaining s).1, (erode gap counter remaining s).2⟩ := by
  induction counter generalizing remaining lost s with
  | zero => exact absurd rfl hpos
  | succ left ih =>
      unfold erodeChecked erode
      cases hgap : gap (left + 1) s with
      | mk next after =>
          cases next with
          | none =>
              simp only [Nat.sub_self, Nat.add_zero]
              rfl
          | some g =>
              by_cases hshort : remaining < g
              · simp only [hshort, if_true, Nat.sub_self, Nat.add_zero]
                rfl
              · simp only [hshort, if_false]
                rw [Checked.minus_ok (Nat.le_of_not_lt hshort), Checked.ok_bind,
                  Checked.plus_ok (by omega), Checked.ok_bind]
                by_cases hzero : left = 0
                · subst hzero
                  simp [erode]
                  rfl
                · have hle := erode_le gap left (remaining - g) after
                  simp only [hzero, if_false]
                  rw [ih hzero (by omega)]
                  have hlost : lost + 1 + (left - (erode gap left (remaining - g) after).1) =
                      lost + (left + 1 - (erode gap left (remaining - g) after).1) := by omega
                  rw [hlost]

/-- A cell receives a count. -/
def Cell.receiveChecked {σ : Type} (gap : GapSource σ) (c : Cell) (fingerprint increment : UInt32)
    (s : σ) : Checked (Received σ) := do
  Checked.assert (fingerprint ≠ 0)
  Checked.assert (increment ≠ 0)
  if c.isEmpty then
    return { outcome := .inserted, cell := { fingerprint, counter := increment }, state := s }
  else if c.fingerprint = fingerprint then
    return {
      outcome := .reinforced
      cell := { c with counter := saturatingSum c.counter increment }
      state := s }
  else
    let eroded ← erodeChecked gap c.counter.toNat increment.toNat 0 s
    if eroded.left = 0 then
      return {
        outcome := .replaced
        cell := { fingerprint, counter := increment }
        state := eroded.state }
    else
      return {
        outcome := .decayed eroded.lost
        cell := { c with counter := UInt32.ofNat eroded.left }
        state := eroded.state }

theorem Cell.receiveChecked_eq {σ : Type} (gap : GapSource σ) (c : Cell)
    {fingerprint increment : UInt32} (hfingerprint : fingerprint ≠ 0) (hincrement : increment ≠ 0)
    (s : σ) :
    c.receiveChecked gap fingerprint increment s = .ok (c.receive gap fingerprint increment s) := by
  unfold receiveChecked receive
  rw [Checked.assert_ok hfingerprint, Checked.ok_bind, Checked.assert_ok hincrement,
    Checked.ok_bind]
  cases hempty : c.isEmpty with
  | true => rfl
  | false =>
      by_cases hown : c.fingerprint = fingerprint
      · simp only [hown, if_true, Bool.false_eq_true, if_false]
        rfl
      · have hpos : c.counter.toNat ≠ 0 := fun hzero =>
          counter_ne_zero hempty (UInt32.toNat_inj.mp hzero)
        have hfits : 0 + c.counter.toNat < 2 ^ 32 := by
          rw [Nat.zero_add]
          exact c.counter.toNat_lt
        simp only [hown, Bool.false_eq_true, if_false]
        rw [erodeChecked_eq gap hpos hfits, Checked.ok_bind]
        cases erode gap c.counter.toNat increment.toNat s with
        | mk left after =>
            cases left with
            | zero => rfl
            | succ left => simp; rfl

namespace Grid

variable {g : Grid} {key : Key} {row column : Nat}

/-! ### Single cells -/

/-- The place of a key in a row. -/
def locateChecked (g : Grid) (key : Key) (row : Nat) : Checked Place := do
  let input := key.toArray
  let column ← Checked.remainder
    (Hash.digest input (Place.columnSeed (UInt64.ofNat row))).toNat g.width
  return {
    column
    fingerprint := Place.fingerprintOf
      (Hash.digest input (Place.fingerprintSeed (UInt64.ofNat row))) }

/-- The index of a cell in the array. -/
def indexChecked (g : Grid) (row column : Nat) : Checked Nat := do
  let start ← Checked.times 64 row g.width
  Checked.plus 64 start column

/-- The cell at a row and a column. -/
def cellChecked (g : Grid) (row column : Nat) : Checked Cell := do
  let i ← g.indexChecked row column
  Checked.read g.cells i

/-- The array has the size of the shape, which a machine can count, and the rows have cells. -/
structure Addressable (g : Grid) : Prop where
  size : g.cells.size = g.cellCount
  count_lt : g.cellCount < 2 ^ 64
  width_ne_zero : g.width ≠ 0

theorem Addressable.locateChecked_eq (hg : g.Addressable) :
    g.locateChecked key row = .ok (g.locate key row) := by
  rw [locateChecked, Checked.remainder_ok hg.width_ne_zero]
  rfl

theorem Addressable.column_lt (hg : g.Addressable) : (g.locate key row).column < g.width :=
  locate_column_lt hg.width_ne_zero key row

/-- The index of a cell inside the shape is below the number of cells. -/
theorem Addressable.indexChecked_eq (hg : g.Addressable) (hr : row < g.depth)
    (hc : column < g.width) :
    g.indexChecked row column = .ok (g.index row column) ∧ g.index row column < g.cells.size := by
  have hlt : row * g.width + column < g.cellCount := index_lt hr hc
  have hcount := hg.count_lt
  refine ⟨?_, ?_⟩
  · rw [indexChecked, Checked.times_ok (by omega), Checked.ok_bind, Checked.plus_ok (by omega)]
    rfl
  · rw [hg.size]
    exact hlt

theorem Addressable.cellChecked_eq (hg : g.Addressable) (hr : row < g.depth)
    (hc : column < g.width) :
    g.cellChecked row column = .ok ((g.cell? row column).getD .vacant) := by
  obtain ⟨hindex, hlt⟩ := hg.indexChecked_eq hr hc
  rw [cellChecked, hindex, Checked.ok_bind, cell?, Array.getElem?_eq_getElem hlt]
  exact Checked.read_ok (Array.getElem?_eq_getElem hlt)

/-! ### Estimates -/

/-- The lesser of a count and the least one so far, if there was one. -/
def lower (least : Option UInt32) (count : UInt32) : Option UInt32 :=
  some (match least with
    | none => count
    | some m => min m count)

theorem foldl_lower_some (counts : List UInt32) (m : UInt32) :
    counts.foldl lower (some m) = some (counts.foldl min m) := by
  induction counts generalizing m with
  | nil => rfl
  | cons count rest ih => exact ih (min m count)

/-- Comparing one count after the other finds the least one. -/
theorem foldl_lower_none (counts : List UInt32) : counts.foldl lower none = counts.min? := by
  cases counts with
  | nil => rfl
  | cons count rest => exact foldl_lower_some rest count

/-- The least count so far, after a row has been read. -/
def lowerReading (least : Option UInt32) : Reading → Option UInt32
  | .own count => lower least count
  | .vacant | .foreign => least

theorem foldl_lowerReading (readings : List Reading) (least : Option UInt32) :
    readings.foldl lowerReading least = (readings.filterMap Reading.count?).foldl lower least := by
  induction readings generalizing least with
  | nil => rfl
  | cons reading rest ih =>
      cases reading with
      | vacant => exact ih least
      | foreign => exact ih least
      | own count => exact ih (lower least count)

theorem foldl_lowerReading_none (readings : List Reading) :
    readings.foldl lowerReading none = Reading.least? readings :=
  (foldl_lowerReading readings none).trans (foldl_lower_none _)

/-- The estimate of a key from some rows on, with the least count so far. -/
def estimateFrom (g : Grid) (key : Key) : List Nat → Option UInt32 → Checked UInt64
  | [], least => return (least.getD 0).toUInt64
  | row :: rows, least => do
    let place ← g.locateChecked key row
    let c ← g.cellChecked row place.column
    if c.isEmpty then return 0
    else estimateFrom g key rows (lowerReading least (c.read place.fingerprint))

/-- The estimated count of a key. -/
def estimateChecked (g : Grid) (key : Key) : Checked UInt64 :=
  estimateFrom g key (List.range g.depth) none

theorem Addressable.estimateFrom_eq (hg : g.Addressable) {rows : List Nat}
    (hrows : ∀ row ∈ rows, row < g.depth) (least : Option UInt32) :
    estimateFrom g key rows least =
      .ok (if (rows.map (g.reading key)).any (· == .vacant) then 0
        else (((rows.map (g.reading key)).foldl lowerReading least).getD 0).toUInt64) := by
  induction rows generalizing least with
  | nil => rfl
  | cons row rows ih =>
      have hrow := hrows row List.mem_cons_self
      rw [estimateFrom, hg.locateChecked_eq, Checked.ok_bind, hg.cellChecked_eq hrow hg.column_lt,
        Checked.ok_bind, ih fun later hlater => hrows later (List.mem_cons_of_mem _ hlater)]
      change (if ((g.cell? row (g.locate key row).column).getD .vacant).isEmpty = true then _
        else _) = _
      have hreading : g.reading key row = ((g.cell? row (g.locate key row).column).getD
        .vacant).read (g.locate key row).fingerprint := rfl
      rw [← hreading]
      -- an empty place ends the search, and is the only one that reads as vacant
      have hvacant : (g.reading key row == .vacant) =
          ((g.cell? row (g.locate key row).column).getD .vacant).isEmpty := by
        rw [hreading, Cell.read]
        cases ((g.cell? row (g.locate key row).column).getD .vacant).isEmpty with
        | true => rfl
        | false =>
            simp only [Bool.false_eq_true, if_false]
            split <;> rfl
      rw [List.map_cons, List.any_cons, List.foldl_cons, hvacant]
      cases ((g.cell? row (g.locate key row).column).getD .vacant).isEmpty with
      | true => rfl
      | false => rfl

/-- Every index that an estimate uses is below the number of cells. -/
theorem Addressable.estimateChecked_eq (hg : g.Addressable) :
    g.estimateChecked key = .ok (g.estimate key) := by
  rw [estimateChecked, hg.estimateFrom_eq fun row hrow => List.mem_range.mp hrow,
    foldl_lowerReading_none]
  rfl

/-! ### Recording -/

/-- A recording under way: the least count that was read back, the grid, and the state of the source
of gaps. -/
structure Recording (σ : Type) where
  least : Option UInt32
  grid : Grid
  state : σ

/-- The key's places in some rows receive an increment, one after the other. -/
def recordChecked {σ : Type} (gap : GapSource σ) (key : Key) (increment : UInt32) :
    List Nat → Recording σ → Checked (Recording σ)
  | [], r => return r
  | row :: rows, r => do
    let place ← r.grid.locateChecked key row
    let i ← r.grid.indexChecked row place.column
    let before ← Checked.read r.grid.cells i
    let received ← before.receiveChecked gap place.fingerprint increment r.state
    let cells ← Checked.write r.grid.cells i received.cell
    recordChecked gap key increment rows {
      least := lowerReading r.least (received.cell.read place.fingerprint)
      grid := { r.grid with cells }
      state := received.state }

/-- A write keeps the array addressable. -/
theorem Addressable.setCell (hg : g.Addressable) (c : Cell) :
    (g.setCell row column c).Addressable where
  size := (size_setCell ..).trans hg.size
  count_lt := hg.count_lt
  width_ne_zero := hg.width_ne_zero

/-- Every index that a recording uses is below the number of cells. -/
theorem Addressable.recordChecked_eq {σ : Type} (gap : GapSource σ) {increment : UInt32}
    (hincrement : increment ≠ 0) {rows : List Nat} (hg : g.Addressable)
    (hrows : ∀ row ∈ rows, row < g.depth) (least : Option UInt32) (s : σ) :
    recordChecked gap key increment rows ⟨least, g, s⟩ =
      .ok ⟨(recordRows gap key increment rows g s).readings.foldl lowerReading least,
        (recordRows gap key increment rows g s).grid,
        (recordRows gap key increment rows g s).state⟩ := by
  induction rows generalizing g least s with
  | nil => rfl
  | cons row rows ih =>
      have hrow := hrows row List.mem_cons_self
      obtain ⟨hindex, hlt⟩ := hg.indexChecked_eq hrow (locate_column_lt hg.width_ne_zero key row)
      have hread : Checked.read g.cells (g.index row (g.locate key row).column) =
          .ok ((g.cell? row (g.locate key row).column).getD .vacant) := by
        rw [cell?, Array.getElem?_eq_getElem hlt]
        exact Checked.read_ok (Array.getElem?_eq_getElem hlt)
      have hreceive := Cell.receiveChecked_eq gap
        ((g.cell? row (g.locate key row).column).getD .vacant)
        (Place.fingerprint_ne_zero g.width key row) hincrement s
      change Cell.receiveChecked gap _ (g.locate key row).fingerprint increment s = _ at hreceive
      rw [recordChecked, hg.locateChecked_eq, Checked.ok_bind, hindex, Checked.ok_bind, hread,
        Checked.ok_bind, hreceive, Checked.ok_bind, Checked.write_ok hlt, Checked.ok_bind]
      refine (ih (g := g.setCell row (g.locate key row).column _) (hg.setCell _)
        (fun later hlater => hrows later (List.mem_cons_of_mem _ hlater)) _ _).trans ?_
      rw [recordRows, List.foldl_append]
      rfl

/-! ### Whole grids -/

/-- The grid of a shape without any counts. -/
def emptyChecked (shape : Shape) : Checked Grid := do
  Checked.assert (0 < shape.depth ∧ 0 < shape.width)
  let count ← Checked.times 64 shape.depth shape.width
  return { toShape := shape, cells := Array.replicate count .vacant }

theorem emptyChecked_eq {shape : Shape} (hdepth : shape.depth ≠ 0) (hwidth : shape.width ≠ 0)
    (hcount : shape.cellCount < 2 ^ 64) : emptyChecked shape = .ok (.empty shape) := by
  rw [emptyChecked, Checked.assert_ok ⟨Nat.pos_of_ne_zero hdepth, Nat.pos_of_ne_zero hwidth⟩,
    Checked.ok_bind, Checked.times_ok hcount]
  rfl

/-- Two grids combined cell by cell. -/
def mergeChecked (mine theirs : Grid) : Checked Grid := do
  Checked.assert (mine.toShape = theirs.toShape)
  return mine.merge theirs

theorem mergeChecked_eq {mine theirs : Grid} (h : mine.toShape = theirs.toShape) :
    mine.mergeChecked theirs = .ok (mine.merge theirs) := by
  rw [mergeChecked, Checked.assert_ok h]
  rfl

/-- The cells that a scaling empties, counted after some others. -/
def countEmptied (scale : UInt64 → UInt64) : List Cell → Nat → Checked Nat
  | [], emptied => return emptied
  | c :: rest, emptied => do
    if c.emptiedBy scale then countEmptied scale rest (← Checked.plus 64 emptied 1)
    else countEmptied scale rest emptied

theorem countEmptied_eq (scale : UInt64 → UInt64) {cells : List Cell} {emptied : Nat}
    (h : emptied + cells.length < 2 ^ 64) :
    countEmptied scale cells emptied = .ok (emptied + cells.countP (Cell.emptiedBy scale)) := by
  induction cells generalizing emptied with
  | nil => rfl
  | cons c rest ih =>
      rw [List.length_cons] at h
      rw [countEmptied, List.countP_cons]
      split
      · rw [Checked.plus_ok (by omega), Checked.ok_bind, ih (by omega)]
        congr 1
        omega
      · exact ih (by omega)

/-- Every cell scaled, with the number of those that this empties. -/
def attenuateChecked (scale : UInt64 → UInt64) (g : Grid) : Checked (Nat × Grid) := do
  return (← countEmptied scale g.cells.toList 0, g.attenuate scale)

theorem Addressable.attenuateChecked_eq (hg : g.Addressable) (scale : UInt64 → UInt64) :
    g.attenuateChecked scale = .ok (g.emptiedBy scale, g.attenuate scale) := by
  have hlength : 0 + g.cells.toList.length < 2 ^ 64 := by
    rw [Array.length_toList, hg.size, Nat.zero_add]
    exact hg.count_lt
  rw [attenuateChecked, countEmptied_eq scale hlength, Nat.zero_add, Array.countP_toList]
  rfl

/-- The storage cost of the cells in bits. -/
def memoryBitsChecked (g : Grid) : Checked Nat := do
  let count ← Checked.times 64 g.depth g.width
  Checked.times 64 count cellBits

theorem memoryBitsChecked_eq (h : g.memoryBits < 2 ^ 64) :
    g.memoryBitsChecked = .ok g.memoryBits := by
  have hbits : g.depth * g.width * 64 < 2 ^ 64 := h
  rw [memoryBitsChecked, Checked.times_ok (by omega), Checked.ok_bind]
  exact Checked.times_ok h

end Grid

end FlowSketch
