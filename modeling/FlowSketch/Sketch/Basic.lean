import FlowSketch.Accuracy
import FlowSketch.Grid
import FlowSketch.Leaderboard

/-!
# FlowSketch.Sketch.Basic

**The sketch.** A sketch counts keyed events in fixed memory. It joins a grid of fingerprinted
counters, which estimates every key, with a leaderboard of the `k` heaviest keys, and it owns the
random stream that settles collisions in the grid. Every key recorded is counted in the grid first
and then offered to the leaderboard with the count its own cells now show.
-/

namespace FlowSketch

/-- A sketch of a stream of keys. -/
structure Sketch where
  accuracy : Accuracy
  grid : Grid
  board : Leaderboard
  /-- The number of recordings, whatever their counts. -/
  total : UInt64
  random : Xoshiro
deriving Inhabited

/-- The base of the decay: a counter `c` is lowered by one unit of a rival with probability
`decayBase ^ -c`, and ageing divides all counts by the base. -/
def decayBase : Float := 1.08

/-- The seed of a sketch for which none is given. -/
def defaultSeed : UInt64 := 0x853c49e6748fea9b

/-- The sum of two counts, at most the largest word. -/
def saturatingTotal (a b : UInt64) : UInt64 :=
  UInt64.ofNat (min (a.toNat + b.toNat) 18446744073709551615)

/-- The sum in the natural numbers, cut at the largest word. -/
theorem toNat_saturatingTotal (a b : UInt64) :
    (saturatingTotal a b).toNat = min (a.toNat + b.toNat) 18446744073709551615 := by
  unfold saturatingTotal
  rw [UInt64.toNat_ofNat']
  omega

namespace Sketch

/-- The sketch that has seen nothing, for parameters that are in order. -/
def create (num : Numerics) (accuracy : Accuracy) (seed : UInt64) :
    Except ParameterError Sketch := do
  let shape ← accuracy.shape num
  return {
    accuracy
    grid := .empty shape
    board := .empty accuracy.k
    total := 0
    random := .ofSeed seed }

/-! ### Recording -/

/-- Occurrences of a key are recorded, `count` of them. A count that no cell can hold is cut to the
largest one that it can, and a count of zero is no recording. A key too long for an encoding is
counted but never listed. -/
def add (num : Numerics) (s : Sketch) (key : Key) (count : UInt64) : Sketch :=
  if count = 0 then s
  else
    let increment := UInt32.ofNat (min count.toNat maxWord32)
    let recorded := s.grid.record (num.gap decayBase) key increment s.random
    { s with
      grid := recorded.grid
      board :=
        if key.length ≤ maxWord32 then
          (s.board.offer key (Grid.leastCount recorded.readings)).2
        else s.board
      total := saturatingTotal s.total 1
      random := recorded.state }

/-- One occurrence of a key is recorded. -/
def update (num : Numerics) (s : Sketch) (key : Key) : Sketch :=
  s.add num key 1

/-- One occurrence of each key is recorded, in order. -/
def updateBatch (num : Numerics) (s : Sketch) (keys : List Key) : Sketch :=
  keys.foldl (fun s key => s.update num key) s

/-! ### Queries -/

/-- The estimated count of a key. -/
def estimate (s : Sketch) (key : Key) : UInt64 :=
  s.grid.estimate key

/-- Does the estimate of a key reach a threshold? -/
def exceedsThreshold (s : Sketch) (key : Key) (threshold : UInt64) : Bool :=
  threshold ≤ s.estimate key

/-- Is a key listed? -/
def contains (s : Sketch) (key : Key) : Bool :=
  s.board.contains key

/-- The listed keys with their listed estimates, heaviest first. -/
def topK (s : Sketch) : List (Key × UInt64) :=
  s.board.ranking

/-- The listed keys whose listed estimate reaches a threshold, heaviest first. -/
def heavyHitters (s : Sketch) (threshold : UInt64) : List (Key × UInt64) :=
  s.topK.filter fun listed => threshold ≤ listed.2

/-- A sketch is empty when nothing was recorded, nothing is listed and no cell has a count. -/
def isEmpty (s : Sketch) : Bool :=
  s.total == 0 && s.board.isEmpty && s.grid.isEmpty

/-- The size and the traffic of a sketch. -/
structure Statistics where
  total : UInt64
  k : Nat
  shape : Shape
  memoryBits : Nat
deriving DecidableEq, Repr

/-- The size and the traffic so far. -/
def statistics (s : Sketch) : Statistics where
  total := s.total
  k := s.accuracy.k
  shape := s.grid.toShape
  memoryBits := s.grid.memoryBits

/-- The one-line description of a sketch. -/
def display (s : Sketch) : String :=
  "HeavyKeeper(k=" ++ Nat.repr s.accuracy.k ++ ", depth=" ++ Nat.repr s.grid.depth ++
    ", width=" ++ Nat.repr s.grid.width ++ ")"

/-! ### Ageing -/

/-- All counts and all listed estimates divided by the base of the decay. What comes to nothing
leaves the grid and the leaderboard. -/
def decay (num : Numerics) (s : Sketch) : Sketch :=
  let scale := num.scale (1.0 / decayBase)
  { s with grid := s.grid.attenuate scale, board := s.board.decay scale }

/-- The sketch without its counts. Its random stream goes on. -/
def clear (s : Sketch) : Sketch :=
  { s with grid := s.grid.clear, board := s.board.clear, total := 0 }

end Sketch

end FlowSketch
