import FlowSketch.Collision
import FlowSketch.Place
import FlowSketch.Shape

/-!
# FlowSketch.Grid

**The grid of cells.** Each row of the grid is a hash table of its own in which a key owns at most
one cell, the one at its place (`Place.locate`). The cells stand in one array, row after row.

A key's estimate is the least count among its own cells. A key that is recorded fills its place in
every row, so an empty place there means that a count has been scaled away, and the estimate is
zero. Recording returns the readings of the key's places after the fact; their least count is what
`estimate` would then say.
-/

namespace FlowSketch

/-- A table of `depth` rows of `width` cells. -/
structure Grid extends Shape where
  cells : Array Cell
deriving DecidableEq, Repr, Inhabited

namespace Grid

/-- The grid of a shape without any counts. -/
def empty (shape : Shape) : Grid where
  toShape := shape
  cells := Array.replicate shape.cellCount .vacant

@[simp] theorem size_empty (shape : Shape) : (empty shape).cells.size = shape.cellCount := by
  simp [empty]

/-- The bits that one cell takes: a fingerprint and a counter of 32 bits each. -/
def cellBits : Nat := 64

/-- The storage cost of the cells in bits. -/
def memoryBits (g : Grid) : Nat :=
  g.cellCount * cellBits

/-! ### Single cells -/

/-- The index of a cell in the array. -/
def index (g : Grid) (row column : Nat) : Nat :=
  row * g.width + column

/-- The cell at a row and a column, if the array reaches that far. -/
def cell? (g : Grid) (row column : Nat) : Option Cell :=
  g.cells[g.index row column]?

/-- The grid with one cell overwritten. -/
def setCell (g : Grid) (row column : Nat) (c : Cell) : Grid :=
  let i := g.index row column
  { g with cells := g.cells.setIfInBounds i c }

@[simp] theorem toShape_setCell (g : Grid) (row column : Nat) (c : Cell) :
    (g.setCell row column c).toShape = g.toShape := rfl

@[simp] theorem size_setCell (g : Grid) (row column : Nat) (c : Cell) :
    (g.setCell row column c).cells.size = g.cells.size := by
  simp [setCell]

/-- The place of a key in a row. -/
def locate (g : Grid) (key : Key) (row : Nat) : Place :=
  Place.locate g.width key row

/-! ### Estimates -/

/-- What the cell at the key's place in a row says about the key. -/
def reading (g : Grid) (key : Key) (row : Nat) : Reading :=
  let place := g.locate key row
  ((g.cell? row place.column).getD .vacant).read place.fingerprint

/-- What the key's places say about it, row by row. -/
def readings (g : Grid) (key : Key) : List Reading :=
  (List.range g.depth).map (g.reading key)

/-- The least count of the key's own cells, zero without any. -/
def leastCount (readings : List Reading) : UInt64 :=
  ((Reading.least? readings).getD 0).toUInt64

/-- The estimate that readings lead to: zero as soon as one place is empty, otherwise the least
count of the key's own cells. -/
def estimateOf (readings : List Reading) : UInt64 :=
  if readings.any (· == .vacant) then 0 else leastCount readings

/-- The estimated count of a key. -/
def estimate (g : Grid) (key : Key) : UInt64 :=
  estimateOf (g.readings key)

/-! ### Recording -/

/-- A recording: what the key's places say about it afterwards, the grid, and the following state
of the source of gaps. -/
structure Recorded (σ : Type) where
  readings : List Reading
  grid : Grid
  state : σ

/-- The key's place in one row receives an increment. -/
def recordRow {σ : Type} (gap : GapSource σ) (key : Key) (increment : UInt32) (g : Grid) (s : σ)
    (row : Nat) : Recorded σ :=
  let place := g.locate key row
  let before := (g.cell? row place.column).getD .vacant
  let received := before.receive gap place.fingerprint increment s
  { readings := [received.cell.read place.fingerprint]
    grid := g.setCell row place.column received.cell
    state := received.state }

/-- The key's places in some rows receive an increment, one after the other. -/
def recordRows {σ : Type} (gap : GapSource σ) (key : Key) (increment : UInt32) :
    List Nat → Grid → σ → Recorded σ
  | [], g, s => { readings := [], grid := g, state := s }
  | row :: rows, g, s =>
    let first := recordRow gap key increment g s row
    let others := recordRows gap key increment rows first.grid first.state
    { others with readings := first.readings ++ others.readings }

/-- All places of a key receive an increment. -/
def record {σ : Type} (gap : GapSource σ) (key : Key) (increment : UInt32) (g : Grid) (s : σ) :
    Recorded σ :=
  recordRows gap key increment (List.range g.depth) g s

/-- Recording keeps the shape. -/
@[simp] theorem toShape_recordRows {σ : Type} (gap : GapSource σ) (key : Key) (increment : UInt32)
    (rows : List Nat) (g : Grid) (s : σ) :
    (recordRows gap key increment rows g s).grid.toShape = g.toShape := by
  induction rows generalizing g s with
  | nil => rfl
  | cons row rows ih => exact (ih _ _).trans rfl

/-- Recording keeps the number of cells. -/
@[simp] theorem size_recordRows {σ : Type} (gap : GapSource σ) (key : Key) (increment : UInt32)
    (rows : List Nat) (g : Grid) (s : σ) :
    (recordRows gap key increment rows g s).grid.cells.size = g.cells.size := by
  induction rows generalizing g s with
  | nil => rfl
  | cons row rows ih => exact (ih _ _).trans (size_setCell _ _ _ _)

/-! ### Whole grids -/

/-- Every cell scaled. -/
def attenuate (scale : UInt64 → UInt64) (g : Grid) : Grid :=
  { g with cells := g.cells.map (Cell.attenuate scale) }

/-- The number of cells that a scaling empties. -/
def emptiedBy (scale : UInt64 → UInt64) (g : Grid) : Nat :=
  g.cells.countP (Cell.emptiedBy scale)

/-- Two grids of one shape, combined cell by cell. -/
def merge (mine theirs : Grid) : Grid :=
  { mine with cells := Array.zipWith Cell.merge mine.cells theirs.cells }

@[simp] theorem size_attenuate (scale : UInt64 → UInt64) (g : Grid) :
    (g.attenuate scale).cells.size = g.cells.size := by
  simp [attenuate]

/-- Grids of one size have a merge of that size. -/
theorem size_merge {mine theirs : Grid} (h : mine.cells.size = theirs.cells.size) :
    (mine.merge theirs).cells.size = mine.cells.size := by
  simp [merge, h]

/-- A grid is empty when all its cells are. -/
def isEmpty (g : Grid) : Bool :=
  g.cells.all Cell.isEmpty

/-- The grid without its counts. -/
def clear (g : Grid) : Grid :=
  { g with cells := Array.replicate g.cells.size .vacant }

@[simp] theorem size_clear (g : Grid) : g.clear.cells.size = g.cells.size := by
  simp [clear]

end Grid

end FlowSketch
