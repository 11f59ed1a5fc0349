import FlowSketch.Cell
import FlowSketch.Numerics
import FlowSketch.Xoshiro

/-!
# FlowSketch.Collision

**Settling a collision.** A count arrives at a cell. An empty cell takes it, a cell of the same
fingerprint adds it. At a cell of another key each unit of the count lowers the incumbent's counter
by one with probability `base ^ -counter`; the newcomer owns the cell once the counter has come
down to zero, and is otherwise dropped.

The units are not tossed one by one. A *gap* is the number of units up to and including the next one
that lowers the counter, so one random draw stands for a whole run of units that change nothing.
`erode` spends a count in gaps from any source of gaps, and `Cell.receive` is the whole rule over any
such source. The source that draws from the random stream is `Numerics.gap`.
-/

namespace FlowSketch

/-- A source of gaps: from a counter and a state, the units up to the next loss, or `none` if no
number of units will do, and the following state. -/
abbrev GapSource (σ : Type) := Nat → σ → Option Nat × σ

/-! ### Erosion -/

/-- What is left of a counter after a number of units has been spent on it. It falls by one for each
gap that the units still cover. -/
def erode {σ : Type} (gap : GapSource σ) : (counter units : Nat) → σ → Nat × σ
  | 0, _, s => (0, s)
  | n + 1, units, s =>
    match gap (n + 1) s with
    | (none, s) => (n + 1, s)
    | (some g, s) => if units < g then (n + 1, s) else erode gap n (units - g) s

/-- Erosion never adds to a counter. -/
theorem erode_le {σ : Type} (gap : GapSource σ) (counter units : Nat) (s : σ) :
    (erode gap counter units s).1 ≤ counter := by
  induction counter generalizing units s with
  | zero => simp [erode]
  | succ n ih =>
      unfold erode
      split
      · exact Nat.le_refl _
      · split
        · exact Nat.le_refl _
        · exact Nat.le_succ_of_le (ih _ _)

/-! ### Receiving a count -/

/-- What became of a count at a cell. -/
inductive Outcome where
  /-- The cell was empty and now belongs to the key. -/
  | inserted
  /-- The cell was the key's own. -/
  | reinforced
  /-- Another key lost some units, possibly none, and kept the cell. -/
  | decayed (lost : Nat)
  /-- Another key lost all its units and the cell. -/
  | replaced
deriving DecidableEq, Repr, Inhabited

/-- A count received: what became of it, the cell afterwards, and the following state of the source
of gaps. -/
structure Received (σ : Type) where
  outcome : Outcome
  cell : Cell
  state : σ
deriving DecidableEq, Repr

/-- A cell receives `increment` units of the key with a fingerprint. A newcomer that wins the cell
has its whole increment counted. -/
def Cell.receive {σ : Type} (gap : GapSource σ) (c : Cell) (fingerprint increment : UInt32)
    (s : σ) : Received σ :=
  if c.isEmpty then
    { outcome := .inserted, cell := { fingerprint, counter := increment }, state := s }
  else if c.fingerprint = fingerprint then
    { outcome := .reinforced
      cell := { c with counter := saturatingSum c.counter increment }
      state := s }
  else
    match erode gap c.counter.toNat increment.toNat s with
    | (0, s) =>
      { outcome := .replaced, cell := { fingerprint, counter := increment }, state := s }
    | (left + 1, s) =>
      { outcome := .decayed (c.counter.toNat - (left + 1))
        cell := { c with counter := UInt32.ofNat (left + 1) }
        state := s }

/-! ### Random gaps -/

namespace Numerics

/-- The probability that one unit lowers a counter: `base ^ -counter`. -/
def decayProbability (num : Numerics) (base : Float) (counter : Nat) : Float :=
  num.exp (-(UInt64.ofNat counter).toFloat * num.ln base)

/-- The gap that a uniform `u` in `(0, 1]` stands for: a geometric variable with success
probability `p`, by inversion. -/
def geometric (num : Numerics) (p u : Float) : Nat :=
  (num.ln u / num.lnOnePlus (-p)).toUInt64.toNat + 1

/-- Random gaps for any law of decay. Certain and impossible losses draw nothing. -/
def gapOf (num : Numerics) (probability : Nat → Float) : GapSource Xoshiro := fun counter g =>
  let p := probability counter
  if p ≥ 1.0 then (some 1, g)
  else if p ≤ 0.0 then (none, g)
  else
    let (u, g) := g.unit
    (some (num.geometric p (1.0 - u)), g)

/-- Random gaps under exponential decay with a base. -/
def gap (num : Numerics) (base : Float) : GapSource Xoshiro :=
  num.gapOf (num.decayProbability base)

end Numerics

end FlowSketch
