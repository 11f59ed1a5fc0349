/-!
# FlowSketch.Cell

**One cell of a grid.** A cell holds the fingerprint of the key that owns it and that key's count.
It is empty when its counter is zero. The operations here are those that look at no other cell:
reading it on behalf of a fingerprint, scaling it down, and combining it with the cell at the same
place of another grid.
-/

namespace FlowSketch

/-- A fingerprint with a counter. -/
structure Cell where
  fingerprint : UInt32
  counter : UInt32
deriving DecidableEq, Repr, Inhabited

namespace Cell

/-- The cell that no key owns. -/
def vacant : Cell := { fingerprint := 0, counter := 0 }

/-- A cell without a count is empty, whatever its fingerprint. -/
def isEmpty (c : Cell) : Bool :=
  c.counter == 0

@[simp] theorem isEmpty_vacant : vacant.isEmpty = true := rfl

theorem isEmpty_iff (c : Cell) : c.isEmpty = true ↔ c.counter = 0 := by
  simp [isEmpty]

/-- The sum of two counters, at most the largest counter. -/
def saturatingSum (a b : UInt32) : UInt32 :=
  UInt32.ofNat (min (a.toNat + b.toNat) 4294967295)

/-- The sum in the natural numbers, cut at the largest counter. -/
theorem toNat_saturatingSum (a b : UInt32) :
    (saturatingSum a b).toNat = min (a.toNat + b.toNat) 4294967295 := by
  unfold saturatingSum
  rw [UInt32.toNat_ofNat']
  omega

end Cell

/-! ### Reading -/

/-- What a cell says about a key: nothing is stored, another key owns it, or a count. -/
inductive Reading where
  | vacant
  | foreign
  | own (counter : UInt32)
deriving DecidableEq, Repr, Inhabited

namespace Reading

/-- The count, if the cell is the key's own. -/
def count? : Reading → Option UInt32
  | own counter => some counter
  | vacant | foreign => none

/-- The least count of the key's own cells, if it has any. -/
def least? (readings : List Reading) : Option UInt32 :=
  (readings.filterMap count?).min?

end Reading

/-- What the cell says about the key with a fingerprint. -/
def Cell.read (c : Cell) (fingerprint : UInt32) : Reading :=
  if c.isEmpty then .vacant
  else if c.fingerprint = fingerprint then .own c.counter
  else .foreign

/-! ### Scaling -/

namespace Cell

/-- A counter under a scaling of words, at most the largest counter. -/
def scaleCounter (scale : UInt64 → UInt64) (counter : UInt32) : UInt32 :=
  UInt32.ofNat (min (scale counter.toUInt64).toNat 4294967295)

/-- The cell with its counter scaled. A cell that loses its whole count loses its owner too. -/
def attenuate (scale : UInt64 → UInt64) (c : Cell) : Cell :=
  if c.isEmpty then c
  else
    let counter := scaleCounter scale c.counter
    if counter = 0 then vacant else { c with counter }

/-- Does the scaling empty a cell that was not empty? -/
def emptiedBy (scale : UInt64 → UInt64) (c : Cell) : Bool :=
  !c.isEmpty && (c.attenuate scale).isEmpty

/-! ### Merging -/

/-- Two cells for one place. A count without a rival stands, counts of one owner add up, and of two
owners the heavier keeps the cell, the first one if they are equally heavy. -/
def merge (mine theirs : Cell) : Cell :=
  if theirs.isEmpty then mine
  else if mine.isEmpty then theirs
  else if mine.fingerprint = theirs.fingerprint then
    { mine with counter := saturatingSum mine.counter theirs.counter }
  else if mine.counter < theirs.counter then theirs
  else mine

/-- An empty cell adds nothing. -/
@[simp] theorem merge_vacant (c : Cell) : c.merge vacant = c := rfl

end Cell

end FlowSketch
