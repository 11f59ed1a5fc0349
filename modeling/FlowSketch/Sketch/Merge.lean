import FlowSketch.Sketch.Basic

/-!
# FlowSketch.Sketch.Merge

**Merging two sketches.** Sketches of one configuration are merged cell by cell. The leaderboard is
then built anew: the keys listed on either side are offered at their estimates in the merged grid,
the receiver's first, and on each side the lowest ranked first, so that keys that come to tie keep
the order they had. Merging an empty sketch changes nothing.
-/

namespace FlowSketch

/-! ### Configurations -/

/-- What two sketches must have in common to be merged. -/
structure Configuration where
  accuracy : Accuracy
  shape : Shape
deriving Repr, Inhabited

namespace Configuration

/-- Do two configurations agree? Accuracies are compared as numbers. -/
def agrees (a b : Configuration) : Bool :=
  a.accuracy.k == b.accuracy.k &&
    a.accuracy.epsilon == b.accuracy.epsilon &&
    a.accuracy.delta == b.accuracy.delta &&
    a.shape == b.shape

/-- The configuration in words. -/
def text (c : Configuration) : String :=
  "k=" ++ Nat.repr c.accuracy.k ++
    ", epsilon=" ++ Decimal.floatText c.accuracy.epsilon ++
    ", delta=" ++ Decimal.floatText c.accuracy.delta ++
    ", depth=" ++ Nat.repr c.shape.depth ++
    ", width=" ++ Nat.repr c.shape.width

end Configuration

/-- Why two sketches are not merged. -/
inductive MergeError where
  /-- Their configurations differ. -/
  | incompatible (expected found : Configuration)
deriving Repr, Inhabited

namespace MergeError

/-- The sentence about two configurations that differ. -/
def sentence (expected found : String) : String :=
  "incompatible config: expected " ++ expected ++ ", found " ++ found

/-- The message of the error. -/
def message : MergeError → String
  | incompatible expected found => sentence expected.text found.text

end MergeError

/-! ### The merge -/

namespace Sketch

/-- The configuration of a sketch. -/
def configuration (s : Sketch) : Configuration where
  accuracy := s.accuracy
  shape := s.grid.toShape

/-- The keys of a leaderboard from the lowest rank up, each at its estimate in a grid. -/
def reoffers (grid : Grid) (board : Leaderboard) : List (Key × UInt64) :=
  board.ranking.reverse.map fun listed => (listed.1, grid.estimate listed.1)

/-- The sketch that has taken in all counts of another one of its configuration. -/
def absorb (mine theirs : Sketch) : Sketch :=
  let grid := mine.grid.merge theirs.grid
  { mine with
    grid
    board := (Leaderboard.empty mine.accuracy.k).offerAll
      (reoffers grid mine.board ++ reoffers grid theirs.board)
    total := saturatingTotal mine.total theirs.total }

/-- The receiver merged with another sketch. -/
def merge (mine theirs : Sketch) : Except MergeError Sketch :=
  if !mine.configuration.agrees theirs.configuration then
    .error (.incompatible mine.configuration theirs.configuration)
  else if theirs.isEmpty then .ok mine
  else .ok (mine.absorb theirs)

end Sketch

end FlowSketch
