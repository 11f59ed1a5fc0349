/-!
# FlowSketch.Shape

**The shape of a grid.** A shape is a number of rows and a number of columns. It is derived from the
accuracy parameters, carried by every grid, and written in front of an encoded sketch.
-/

namespace FlowSketch

/-- The number of rows and columns of a grid. -/
structure Shape where
  depth : Nat
  width : Nat
deriving DecidableEq, Repr, Inhabited

/-- The number of cells of a grid of the shape. -/
def Shape.cellCount (s : Shape) : Nat :=
  s.depth * s.width

/-- The largest number of a 32-bit field. -/
def maxWord32 : Nat := 4294967295

end FlowSketch
