import FlowSketch.Proofs.Checked.Word
import FlowSketch.Proofs.SlotHeap

/-!
# FlowSketch.Proofs.Checked.SlotHeap

**A heap moves slots inside its two arrays.** Every position that a sift looks at is the one it
starts from, a parent or a child that was compared with the size; every slot number that it finds
there is below the size, because slots and positions are inverse to each other. So a swap reads and
writes inside both arrays (`swapChecked_eq`), and sifting, pushing and building are made of such
swaps. The number of a child is at most twice the size, so it fits into a word unless the heap has
`2 ^ 63` slots or more; sifting up calculates parents only, and goes through in any case.

The test on slot numbers reads the arena, so it is a checked one here. `Tests` says that on the slots
of the heap it gives what the unchecked test gives.
-/

namespace FlowSketch.SlotHeap

variable {lighter : Nat → Nat → Bool} {lighterC : Nat → Nat → Checked Bool} {h : SlotHeap}
  {n i j position : Nat}

/-- On the first `n` slots the checked test goes through, with the outcome of the other one. -/
def Tests (lighterC : Nat → Nat → Checked Bool) (lighter : Nat → Nat → Bool) (n : Nat) : Prop :=
  ∀ a < n, ∀ b < n, lighterC a b = .ok (lighter a b)

/-! ### Swaps -/

/-- The slots at two positions exchanged, and their new positions noted. -/
def swapChecked (h : SlotHeap) (i j : Nat) : Checked SlotHeap := do
  let a ← Checked.read h.order i
  let b ← Checked.read h.order j
  let order ← Checked.write h.order i b
  let order ← Checked.write order j a
  let atI ← Checked.read order i
  let place ← Checked.write h.place atI i
  let atJ ← Checked.read order j
  let place ← Checked.write place atJ j
  return { order, place }

theorem Consistent.read_order (hc : h.Consistent n) (hi : i < n) :
    Checked.read h.order i = .ok (h.slotAt i) :=
  Checked.read_ok_getD (hc.size_order.symm ▸ hi) 0

theorem Consistent.read_place (hc : h.Consistent n) (hi : i < n) :
    Checked.read h.place i = .ok (h.positionOf i) :=
  Checked.read_ok_getD (hc.size_place.symm ▸ hi) 0

theorem swapIfInBounds_eq (xs : Array Nat) (hi : i < xs.size) (hj : j < xs.size) :
    (xs.setIfInBounds i (xs.getD j 0)).setIfInBounds j (xs.getD i 0) = xs.swapIfInBounds i j := by
  apply Array.ext_getElem?
  intro p
  simp [Array.swapIfInBounds, hi, hj, Array.getElem?_setIfInBounds, Array.getElem?_swap]

/-- A swap inside the heap reads and writes inside both arrays. -/
theorem Consistent.swapChecked_eq (hc : h.Consistent n) (hi : i < n) (hj : j < n) :
    h.swapChecked i j = .ok (h.swap i j) := by
  have hi' : i < h.order.size := hc.size_order.symm ▸ hi
  have hj' : j < h.order.size := hc.size_order.symm ▸ hj
  have hswap := swapIfInBounds_eq h.order hi' hj'
  change (h.order.setIfInBounds i (h.slotAt j)).setIfInBounds j (h.slotAt i) = _ at hswap
  have hread : ∀ p < n, Checked.read (h.order.swapIfInBounds i j) p =
      .ok ((h.swap i j).slotAt p) := by
    intro p hp
    refine Checked.read_ok_getD ?_ 0
    show p < (h.swap i j).size
    rw [size_swap, hc.size_eq]
    exact hp
  have hplace : ∀ s < n, s < h.place.size := fun s hs => hc.size_place.symm ▸ hs
  rw [swapChecked, hc.read_order hi, Checked.ok_bind, hc.read_order hj, Checked.ok_bind,
    Checked.write_ok hi', Checked.ok_bind, Checked.write_ok (by rwa [Array.size_setIfInBounds]),
    Checked.ok_bind, hswap, hread i hi, Checked.ok_bind, hread j hj,
    slotAt_swap_left hi' hj', slotAt_swap_right hi' hj',
    Checked.write_ok (hplace _ (hc.slotAt_lt j hj)), Checked.ok_bind, Checked.ok_bind,
    Checked.write_ok (by rw [Array.size_setIfInBounds]; exact hplace _ (hc.slotAt_lt i hi)),
    Checked.ok_bind]
  rfl

/-! ### Sifting up -/

/-- The slot at a position moves towards the top until its parent is not heavier. -/
def siftUpChecked (lighterC : Nat → Nat → Checked Bool) (h : SlotHeap) (position : Nat) :
    Checked SlotHeap :=
  if position = 0 then return h
  else
    match _hminus : Checked.minus position 1 with
    | .error fault => .error fault
    | .ok before => do
      let parent := before / 2
      if ← lighterC (← Checked.read h.order position) (← Checked.read h.order parent) then
        let h ← h.swapChecked position parent
        siftUpChecked lighterC h parent
      else return h
termination_by position
decreasing_by
  obtain ⟨hle, rfl⟩ := Checked.minus_eq_ok.mp _hminus
  omega

/-- One round of sifting up reads inside the heap. -/
theorem siftUpChecked_step (htests : Tests lighterC lighter n) (hc : h.Consistent n)
    (hne : position ≠ 0) (hposition : position < n) :
    siftUpChecked lighterC h position =
      if lighter (h.slotAt position) (h.slotAt (parent position)) then
        siftUpChecked lighterC (h.swap position (parent position)) (parent position)
      else .ok h := by
  have hparent : parent position < n := Nat.lt_trans (parent_lt hne) hposition
  have hminus : Checked.minus position 1 = .ok (position - 1) :=
    Checked.minus_ok (Nat.one_le_iff_ne_zero.mpr hne)
  rw [siftUpChecked, if_neg hne]
  split
  · rename_i fault hfault
    rw [hminus] at hfault
    cases hfault
  · rename_i before hbefore
    rw [hminus] at hbefore
    cases hbefore
    have htest := htests _ (hc.slotAt_lt position hposition) _ (hc.slotAt_lt _ hparent)
    change (Checked.read h.order position >>= fun slot =>
      Checked.read h.order (parent position) >>= fun other => lighterC slot other >>= fun less =>
        if less then h.swapChecked position (parent position) >>= fun h =>
          siftUpChecked lighterC h (parent position)
        else .ok h) = _
    rw [hc.read_order hposition, Checked.ok_bind, hc.read_order hparent, Checked.ok_bind, htest,
      Checked.ok_bind, hc.swapChecked_eq hposition hparent]
    rfl

theorem siftUpChecked_eq (htests : Tests lighterC lighter n) (hc : h.Consistent n)
    (hposition : position < n) :
    siftUpChecked lighterC h position = .ok (siftUp lighter h position) := by
  fun_induction siftUp lighter h position with
  | case1 h =>
      rw [siftUpChecked]
      rfl
  | case2 h position hne hlt ih =>
      have hparent : parent position < n := Nat.lt_trans (parent_lt hne) hposition
      rw [siftUpChecked_step htests hc hne hposition, if_pos hlt]
      exact ih (hc.swap hposition hparent) hparent
  | case3 h position hne hnot =>
      rw [siftUpChecked_step htests hc hne hposition, if_neg hnot]

/-! ### Sifting down -/

/-- The number of the first child of a position. -/
def leftChildChecked (position : Nat) : Checked Nat := do
  let twice ← Checked.times 64 2 position
  Checked.plus 64 twice 1

theorem leftChildChecked_eqUnless (hposition : position < n) :
    Checked.EqUnless (2 ^ 63 ≤ n) (leftChildChecked position) (.ok (leftChild position)) :=
  ((Checked.times_eqUnless 64 2 position).mono fun hlarge => by omega).bind
    ((Checked.plus_eqUnless 64 (2 * position) 1).mono fun hlarge => by omega)

theorem leftChildChecked_eq_ok {left : Nat} (hleft : leftChildChecked position = .ok left) :
    left = leftChild position := by
  unfold leftChildChecked Checked.times at hleft
  split at hleft
  · rw [Checked.ok_bind, Checked.plus] at hleft
    split at hleft
    · cases hleft
      rfl
    · cases hleft
  · cases hleft

/-- Is there a second child, and is it lighter than the first one? -/
def secondIsLighter (lighterC : Nat → Nat → Checked Bool) (length : Nat) (h : SlotHeap)
    (left : Nat) : Checked Bool := do
  let right ← Checked.plus 64 left 1
  if right < length then lighterC (← Checked.read h.order right) (← Checked.read h.order left)
  else return false

/-- The slot at a position moves towards the bottom of the first positions, until no child is
lighter. -/
def siftDownWithin (lighterC : Nat → Nat → Checked Bool) (length : Nat) (h : SlotHeap)
    (position : Nat) : Checked SlotHeap :=
  match _hleft : leftChildChecked position with
  | .error fault => .error fault
  | .ok left =>
    if _hlength : left < length then do
      let second ← secondIsLighter lighterC length h left
      let child := if second then left + 1 else left
      if ← lighterC (← Checked.read h.order child) (← Checked.read h.order position) then
        let h ← h.swapChecked position child
        siftDownWithin lighterC length h child
      else return h
    else return h
termination_by length - position
decreasing_by
  have hlt := lt_leftChild position
  rw [← leftChildChecked_eq_ok _hleft] at hlt
  split <;> omega

/-- The slot at a position moves towards the bottom until no child is lighter. -/
def siftDownChecked (lighterC : Nat → Nat → Checked Bool) (h : SlotHeap) (position : Nat) :
    Checked SlotHeap :=
  siftDownWithin lighterC h.order.size h position

theorem secondIsLighter_eqUnless (htests : Tests lighterC lighter n) (hc : h.Consistent n)
    (hleft : leftChild position < n) :
    Checked.EqUnless (2 ^ 63 ≤ n) (secondIsLighter lighterC n h (leftChild position))
      (.ok (leftChild position + 1 < h.size &&
        lighter (h.slotAt (leftChild position + 1)) (h.slotAt (leftChild position)))) := by
  refine ((Checked.plus_eqUnless 64 (leftChild position) 1).mono fun hlarge => by omega).bind
    (.inl ?_)
  rw [hc.size_eq]
  by_cases hright : leftChild position + 1 < n
  · have htest := htests _ (hc.slotAt_lt _ hright) _ (hc.slotAt_lt _ hleft)
    rw [if_pos hright, hc.read_order hright, Checked.ok_bind, hc.read_order hleft, Checked.ok_bind,
      htest, decide_eq_true hright, Bool.true_and]
  · rw [if_neg hright, decide_eq_false hright, Bool.false_and]
    rfl

/-- One round of sifting down reads inside the heap. -/
theorem siftDownWithin_step (htests : Tests lighterC lighter n) (hc : h.Consistent n)
    (hposition : position < n) :
    Checked.EqUnless (2 ^ 63 ≤ n) (siftDownWithin lighterC n h position)
      (if leftChild position < n then
        if lighter (h.slotAt (lighterChild lighter h position)) (h.slotAt position) then
          siftDownWithin lighterC n (h.swap position (lighterChild lighter h position))
            (lighterChild lighter h position)
        else .ok h
      else .ok h) := by
  have hchildOk := leftChildChecked_eqUnless hposition
  rw [siftDownWithin]
  split
  · rename_i fault hfault
    rw [hfault] at hchildOk
    rcases hchildOk with hok | ⟨hover, hlarge⟩
    · cases hok
    · cases hover
      exact .inr ⟨rfl, hlarge⟩
  · rename_i left hleftOk
    obtain rfl := leftChildChecked_eq_ok hleftOk
    by_cases hleft : leftChild position < n
    · have hchild : lighterChild lighter h position < n := by
        have hlt := lighterChild_lt lighter (hc.size_eq.symm ▸ hleft)
        rwa [hc.size_eq] at hlt
      have htest := htests _ (hc.slotAt_lt _ hchild) _ (hc.slotAt_lt _ hposition)
      rw [dif_pos hleft, if_pos hleft]
      refine (secondIsLighter_eqUnless htests hc hleft).bind (.inl ?_)
      have hsame : (if leftChild position + 1 < h.size &&
          lighter (h.slotAt (leftChild position + 1)) (h.slotAt (leftChild position))
          then leftChild position + 1 else leftChild position) = lighterChild lighter h position :=
        rfl
      simp only [hsame]
      rw [hc.read_order hchild, Checked.ok_bind, hc.read_order hposition, Checked.ok_bind,
        htest, Checked.ok_bind, hc.swapChecked_eq hposition hchild]
      rfl
    · rw [dif_neg hleft, if_neg hleft]
      exact .inl rfl

theorem siftDownChecked_eqUnless (htests : Tests lighterC lighter n) (hc : h.Consistent n)
    (hposition : position < n) :
    Checked.EqUnless (2 ^ 63 ≤ n) (siftDownChecked lighterC h position)
      (.ok (siftDown lighter h position)) := by
  rw [siftDownChecked, hc.size_order]
  fun_induction siftDown lighter h position with
  | case1 h position hleft child hlt ih =>
      have hchild : child < n := hc.size_eq ▸ lighterChild_lt lighter hleft
      have hstep := siftDownWithin_step htests hc hposition
      rw [if_pos (hc.size_eq ▸ hleft), if_pos hlt] at hstep
      exact hstep.trans (ih (hc.swap hposition hchild) hchild)
  | case2 h position hleft child hnot =>
      have hstep := siftDownWithin_step htests hc hposition
      rwa [if_pos (hc.size_eq ▸ hleft), if_neg hnot] at hstep
  | case3 h position hleft =>
      have hstep := siftDownWithin_step htests hc hposition
      rwa [if_neg (hc.size_eq ▸ hleft)] at hstep

/-! ### Pushing and building -/

/-- A further slot enters the heap at its last position. -/
def pushChecked (lighterC : Nat → Nat → Checked Bool) (h : SlotHeap) (slot : Nat) :
    Checked SlotHeap := do
  let order := h.order.push slot
  let last ← Checked.minus order.size 1
  siftUpChecked lighterC { order, place := h.place.push last } last

theorem pushChecked_eq (htests : Tests lighterC lighter (n + 1)) (hc : h.Consistent n) :
    pushChecked lighterC h n = .ok (push lighter h) := by
  have hlast : (h.order.push n).size - 1 = n := by rw [Array.size_push, hc.size_order]; rfl
  have hone : 1 ≤ (h.order.push n).size := by rw [Array.size_push]; exact Nat.le_add_left 1 _
  have hpushed := consistent_pushed hc
  rw [hc.size_eq] at hpushed
  rw [pushChecked]
  simp only [Checked.minus_ok hone, Checked.ok_bind, hlast]
  rw [siftUpChecked_eq htests hpushed (Nat.lt_succ_self n), push, hc.size_eq]

/-- The slots at the first `count` positions sifted down, the last of them first. -/
def siftDownAllChecked (lighterC : Nat → Nat → Checked Bool) :
    (count : Nat) → SlotHeap → Checked SlotHeap
  | 0, h => return h
  | count + 1, h => do
    let h ← siftDownChecked lighterC h count
    siftDownAllChecked lighterC count h

theorem siftDownAllChecked_eqUnless (htests : Tests lighterC lighter n) {count : Nat}
    (hcount : count ≤ n) (hc : h.Consistent n) :
    Checked.EqUnless (2 ^ 63 ≤ n) (siftDownAllChecked lighterC count h)
      (.ok (siftDownAll lighter count h)) := by
  induction count generalizing h with
  | zero => exact .inl rfl
  | succ count ih =>
      exact (siftDownChecked_eqUnless htests hc hcount).bind
        (ih (Nat.le_of_succ_le hcount) (consistent_siftDown hc))

/-- The heap of a number of slots, arranged from the bottom up. -/
def buildChecked (lighterC : Nat → Nat → Checked Bool) (count : Nat) : Checked SlotHeap :=
  siftDownAllChecked lighterC (count / 2) (identity count)

theorem buildChecked_eqUnless (htests : Tests lighterC lighter n) :
    Checked.EqUnless (2 ^ 63 ≤ n) (buildChecked lighterC n) (.ok (build lighter n)) :=
  siftDownAllChecked_eqUnless htests (Nat.div_le_self n 2) (consistent_identity n)

end FlowSketch.SlotHeap
