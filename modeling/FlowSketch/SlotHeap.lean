/-!
# FlowSketch.SlotHeap

**A binary heap of slot numbers that knows where each slot is.** The entries stay in an arena of
slots that the heap does not see; it arranges the slot numbers `0 … n - 1` so that no slot is
lighter than the one at its parent position, the lightest standing at position zero. `order` lists
the slots by position and `place` is its inverse, so a slot whose entry changes can be sifted from
where it stands. What *lighter* means is a test on slot numbers that the caller passes in, because
it looks at the arena of the moment.
-/

namespace FlowSketch

/-- Slot numbers in heap order, with the position of each slot. -/
structure SlotHeap where
  /-- The slot at each position. -/
  order : Array Nat
  /-- The position of each slot. -/
  place : Array Nat
deriving DecidableEq, Repr, Inhabited

namespace SlotHeap

/-- The heap of no slots. -/
def empty : SlotHeap := { order := #[], place := #[] }

/-- The number of slots. -/
def size (h : SlotHeap) : Nat := h.order.size

/-- The slot at a position, zero outside the heap. -/
def slotAt (h : SlotHeap) (position : Nat) : Nat :=
  h.order.getD position 0

/-- The position of a slot, zero outside the heap. -/
def positionOf (h : SlotHeap) (slot : Nat) : Nat :=
  h.place.getD slot 0

/-- The lightest slot. -/
def lightest? (h : SlotHeap) : Option Nat :=
  h.order[0]?

/-! ### Positions -/

/-- The parent of a position other than zero. -/
def parent (position : Nat) : Nat := (position - 1) / 2

/-- The first child of a position. -/
def leftChild (position : Nat) : Nat := 2 * position + 1

theorem parent_lt {position : Nat} (h : position ≠ 0) : parent position < position := by
  unfold parent
  omega

theorem lt_leftChild (position : Nat) : position < leftChild position := by
  unfold leftChild
  omega

/-! ### Moves -/

/-- The slots at two positions exchanged. -/
def swap (h : SlotHeap) (i j : Nat) : SlotHeap :=
  let a := h.slotAt i
  let b := h.slotAt j
  { order := h.order.swapIfInBounds i j
    place := (h.place.setIfInBounds b i).setIfInBounds a j }

@[simp] theorem size_swap (h : SlotHeap) (i j : Nat) : (h.swap i j).size = h.size := by
  simp [swap, size]

/-- The child of a position to compare with: the second one if there is one and it is lighter. -/
def lighterChild (lighter : Nat → Nat → Bool) (h : SlotHeap) (position : Nat) : Nat :=
  let left := leftChild position
  if left + 1 < h.size && lighter (h.slotAt (left + 1)) (h.slotAt left) then left + 1 else left

theorem lt_lighterChild (lighter : Nat → Nat → Bool) (h : SlotHeap) (position : Nat) :
    position < lighterChild lighter h position := by
  have hleft := lt_leftChild position
  unfold lighterChild
  dsimp only
  split <;> omega

theorem lighterChild_lt (lighter : Nat → Nat → Bool) {h : SlotHeap} {position : Nat}
    (hleft : leftChild position < h.size) : lighterChild lighter h position < h.size := by
  unfold lighterChild
  dsimp only
  split
  · rename_i hright
    simp only [Bool.and_eq_true, decide_eq_true_eq] at hright
    exact hright.1
  · exact hleft

/-- The slot at a position moves towards the top until its parent is not heavier. -/
def siftUp (lighter : Nat → Nat → Bool) (h : SlotHeap) (position : Nat) : SlotHeap :=
  if _ : position = 0 then h
  else if lighter (h.slotAt position) (h.slotAt (parent position)) then
    siftUp lighter (h.swap position (parent position)) (parent position)
  else h
termination_by position
decreasing_by exact parent_lt ‹_›

/-- The slot at a position moves towards the bottom until no child is lighter. -/
def siftDown (lighter : Nat → Nat → Bool) (h : SlotHeap) (position : Nat) : SlotHeap :=
  if _ : leftChild position < h.size then
    let child := lighterChild lighter h position
    if lighter (h.slotAt child) (h.slotAt position) then
      siftDown lighter (h.swap position child) child
    else h
  else h
termination_by h.size - position
decreasing_by
  have hlt := lt_lighterChild lighter h position
  have hle := lighterChild_lt lighter ‹leftChild position < h.size›
  rw [size_swap]
  omega

/-! ### Building -/

/-- A further slot, numbered after all others, enters the heap. -/
def push (lighter : Nat → Nat → Bool) (h : SlotHeap) : SlotHeap :=
  let slot := h.size
  siftUp lighter { order := h.order.push slot, place := h.place.push slot } slot

/-- Every slot at the position of its own number. -/
def identity (count : Nat) : SlotHeap where
  order := Array.range count
  place := Array.range count

/-- The slots at the first `count` positions sifted down, the last of them first. -/
def siftDownAll (lighter : Nat → Nat → Bool) : (count : Nat) → SlotHeap → SlotHeap
  | 0, h => h
  | count + 1, h => siftDownAll lighter count (siftDown lighter h count)

/-- The heap of a number of slots, arranged from the bottom up. -/
def build (lighter : Nat → Nat → Bool) (count : Nat) : SlotHeap :=
  siftDownAll lighter (count / 2) (identity count)

end SlotHeap

end FlowSketch
