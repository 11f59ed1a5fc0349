import FlowSketch.SlotHeap
import Mathlib.Algebra.Group.Nat.Defs

/-!
# FlowSketch.Proofs.SlotHeap

**The heap keeps its order and knows where its slots are.** `Consistent` says that `order` and
`place` are inverse to each other on the slots `0 … n - 1`; every move is made of swaps, and a swap
inside the heap keeps it. `Ordered` says that no slot is lighter than the slot at its parent
position, for any test `lighter` that is a weak order.

Both sifts start from a heap that is ordered but for the pairs around one position, and repair it
(`ordered_siftUp`, `ordered_siftDown`). While a sift is under way, the slot at its position is the
only one that may stand wrongly (`LightAt`, `HeavyAt`): the pairs that avoid it are in order and its
children are in order with its parent. One swap passes this on to the next position. Building from
the bottom up orders the pairs below ever higher positions.
The main consequence is `lighter_lightest`: no slot is lighter than the one on top.

A sift up halves the number of its position in every round, and a sift down doubles it. Each of them
ends after as many rounds as the size has binary digits (`siftUpRounds_eq`, `siftDownRounds_eq`),
however the slots compare.
-/

namespace FlowSketch.SlotHeap

/-! ### Exchanging two positions -/

/-- A swap exchanges the slots at its two positions and no others. -/
theorem slotAt_swap {h : SlotHeap} {i j : Nat} (hi : i < h.size) (hj : j < h.size) (p : Nat) :
    (h.swap i j).slotAt p =
      if p = i then h.slotAt j else if p = j then h.slotAt i else h.slotAt p := by
  unfold size at hi hj
  by_cases hpi : p = i
  · subst hpi
    simp [swap, slotAt, Array.swapIfInBounds, hi, hj]
  · by_cases hpj : p = j
    · subst hpj
      simp [swap, slotAt, Array.swapIfInBounds, hi, hj, hpi]
    · simp [swap, slotAt, Array.swapIfInBounds, hi, hj, Array.getElem?_swap, hpi, hpj,
        Ne.symm hpi, Ne.symm hpj]

theorem slotAt_swap_left {h : SlotHeap} {i j : Nat} (hi : i < h.size) (hj : j < h.size) :
    (h.swap i j).slotAt i = h.slotAt j := by
  rw [slotAt_swap hi hj, if_pos rfl]

theorem slotAt_swap_right {h : SlotHeap} {i j : Nat} (hi : i < h.size) (hj : j < h.size) :
    (h.swap i j).slotAt j = h.slotAt i := by
  rw [slotAt_swap hi hj]
  split
  · rename_i hji
    rw [hji]
  · rw [if_pos rfl]

theorem slotAt_swap_of_ne {h : SlotHeap} {i j p : Nat} (hi : i < h.size) (hj : j < h.size)
    (hpi : p ≠ i) (hpj : p ≠ j) : (h.swap i j).slotAt p = h.slotAt p := by
  rw [slotAt_swap hi hj, if_neg hpi, if_neg hpj]

/-! ### Slots and positions are inverse -/

/-- The heap arranges the slots `0 … n - 1`, and `place` is the inverse of `order`. -/
structure Consistent (h : SlotHeap) (n : Nat) : Prop where
  /-- There is a position for every slot. -/
  size_order : h.order.size = n
  /-- The position of every slot is noted. -/
  size_place : h.place.size = n
  /-- Every position holds one of the slots. -/
  slotAt_lt : ∀ p < n, h.slotAt p < n
  /-- Every slot has one of the positions. -/
  positionOf_lt : ∀ s < n, h.positionOf s < n
  /-- The slot at a position is noted there. -/
  positionOf_slotAt : ∀ p < n, h.positionOf (h.slotAt p) = p
  /-- A slot stands where it is noted. -/
  slotAt_positionOf : ∀ s < n, h.slotAt (h.positionOf s) = s

namespace Consistent

variable {h : SlotHeap} {n : Nat}

theorem size_eq (hc : h.Consistent n) : h.size = n := hc.size_order

theorem empty : SlotHeap.empty.Consistent 0 where
  size_order := rfl
  size_place := rfl
  slotAt_lt := fun p hp => absurd hp (Nat.not_lt_zero p)
  positionOf_lt := fun s hs => absurd hs (Nat.not_lt_zero s)
  positionOf_slotAt := fun p hp => absurd hp (Nat.not_lt_zero p)
  slotAt_positionOf := fun s hs => absurd hs (Nat.not_lt_zero s)

/-- Different positions hold different slots. -/
theorem slotAt_inj (hc : h.Consistent n) {p q : Nat} (hp : p < n) (hq : q < n)
    (heq : h.slotAt p = h.slotAt q) : p = q := by
  rw [← hc.positionOf_slotAt p hp, heq, hc.positionOf_slotAt q hq]

/-- The positions noted after a swap: the two slots have changed places. -/
theorem positionOf_swap (hc : h.Consistent n) {i j : Nat} (hi : i < n) (hj : j < n) (s : Nat) :
    (h.swap i j).positionOf s =
      if s = h.slotAt j ∧ i ≠ j then i else if s = h.slotAt i then j else h.positionOf s := by
  have hplace := hc.size_place
  have hsi := hc.slotAt_lt i hi
  have hsj := hc.slotAt_lt j hj
  have hinj : h.slotAt i = h.slotAt j → i = j := hc.slotAt_inj hi hj
  by_cases h1 : s = h.slotAt i
  · subst h1
    by_cases hij : i = j
    · simp [swap, positionOf, hplace, hij, hsj]
    · have hne : h.slotAt i ≠ h.slotAt j := fun heq => hij (hinj heq)
      simp [swap, positionOf, hplace, hsi, hne]
  · by_cases h2 : s = h.slotAt j
    · subst h2
      have hij : i ≠ j := fun hij => h1 (by rw [hij])
      simp [swap, positionOf, hplace, hsj, hij, Ne.symm h1]
    · simp [swap, positionOf, h1, h2, Ne.symm h1, Ne.symm h2]

/-- A swap inside the heap keeps slots and positions inverse. -/
theorem swap (hc : h.Consistent n) {i j : Nat} (hi : i < n) (hj : j < n) :
    (h.swap i j).Consistent n := by
  have hi' : i < h.size := hc.size_eq.symm ▸ hi
  have hj' : j < h.size := hc.size_eq.symm ▸ hj
  refine ⟨?_, ?_, ?_, ?_, ?_, ?_⟩
  · rw [← hc.size_order]
    exact size_swap h i j
  · simp [SlotHeap.swap, hc.size_place]
  · intro p hp
    rw [slotAt_swap hi' hj']
    split
    · exact hc.slotAt_lt j hj
    · split
      · exact hc.slotAt_lt i hi
      · exact hc.slotAt_lt p hp
  · intro s hs
    rw [hc.positionOf_swap hi hj]
    split
    · exact hi
    · split
      · exact hj
      · exact hc.positionOf_lt s hs
  · intro p hp
    rw [slotAt_swap hi' hj', hc.positionOf_swap hi hj]
    have hpos := hc.positionOf_slotAt p hp
    have hinj_i := hc.slotAt_inj hp hi
    have hinj_j := hc.slotAt_inj hp hj
    have hinj := hc.slotAt_inj hi hj
    grind
  · intro s hs
    rw [slotAt_swap hi' hj', hc.positionOf_swap hi hj]
    have hpos := hc.slotAt_positionOf s hs
    have hi_pos := hc.positionOf_slotAt i hi
    have hj_pos := hc.positionOf_slotAt j hj
    grind

end Consistent

/-! ### The order -/

/-- What the test on slot numbers must be: a strict order whose complement is transitive, so that
"not lighter" compares any two slots. -/
structure WeakOrder (lighter : Nat → Nat → Bool) : Prop where
  /-- Of two slots one is not lighter than the other. -/
  asymm : ∀ {a b}, lighter a b = true → lighter b a = false
  /-- What is not lighter than a slot is not lighter than what that slot is not lighter than. -/
  trans : ∀ {a b c}, lighter b a = false → lighter c b = false → lighter c a = false

/-- The slot at a position is not lighter than the slot at the parent position. -/
def Settled (lighter : Nat → Nat → Bool) (h : SlotHeap) (p : Nat) : Prop :=
  lighter (h.slotAt p) (h.slotAt (parent p)) = false

/-- Every position but the topmost is settled. -/
def Ordered (lighter : Nat → Nat → Bool) (h : SlotHeap) : Prop :=
  ∀ p, p ≠ 0 → p < h.size → Settled lighter h p

section Sifts

variable {lighter : Nat → Nat → Bool}

theorem WeakOrder.irrefl (hl : WeakOrder lighter) (a : Nat) : lighter a a = false := by
  cases haa : lighter a a with
  | false => rfl
  | true => rw [← haa, hl.asymm haa]

/-- A swap leaves a pair of a position and its parent alone unless it touches one of them. -/
theorem settled_swap_of_ne {h : SlotHeap} {i j p : Nat} (hi : i < h.size) (hj : j < h.size)
    (hpi : p ≠ i) (hpj : p ≠ j) (hqi : parent p ≠ i) (hqj : parent p ≠ j)
    (hp : Settled lighter h p) : Settled lighter (h.swap i j) p := by
  unfold Settled at *
  rwa [slotAt_swap_of_ne hi hj hpi hpj, slotAt_swap_of_ne hi hj hqi hqj]

/-! ### Sifting up -/

/-- Sifting up moves slots by swaps inside the heap only. -/
theorem consistent_siftUp {h : SlotHeap} {n position : Nat} (hc : h.Consistent n)
    (hposition : position < n) : (siftUp lighter h position).Consistent n := by
  fun_induction siftUp lighter h position with
  | case1 h => exact hc
  | case2 h position hne hlt ih =>
      have hparent := parent_lt hne
      have hlt' : parent position < n := by omega
      exact ih (hc.swap hposition hlt') hlt'
  | case3 h position hne hlt => exact hc

/-- Only the slot at `position` may be too light for its place: every other position is settled,
and the children of `position` are in order with its parent, past the slot in between. -/
structure LightAt (lighter : Nat → Nat → Bool) (h : SlotHeap) (position : Nat) : Prop where
  /-- The other positions are settled. -/
  others : ∀ p, p ≠ 0 → p < h.size → p ≠ position → Settled lighter h p
  /-- The slot at the position may leave without a trace. -/
  past : position ≠ 0 → ∀ p, p ≠ 0 → p < h.size → parent p = position →
    lighter (h.slotAt p) (h.slotAt (parent position)) = false

/-- Exchanging a slot with the heavier one above it moves the doubt to the parent position. -/
theorem LightAt.swap_parent (hl : WeakOrder lighter) {h : SlotHeap} {position : Nat}
    (hat : LightAt lighter h position) (hposition : position < h.size) (hne : position ≠ 0)
    (hlt : lighter (h.slotAt position) (h.slotAt (parent position)) = true) :
    LightAt lighter (h.swap position (parent position)) (parent position) := by
  have hq : parent position < position := parent_lt hne
  have hqs : parent position < h.size := by omega
  have hleft := slotAt_swap_left hposition hqs
  have hright := slotAt_swap_right hposition hqs
  have hback : lighter (h.slotAt (parent position)) (h.slotAt position) = false :=
    hl.asymm hlt
  constructor
  · intro p hp0 hp hpq
    rw [size_swap] at hp
    have hpp : parent p < p := parent_lt hp0
    -- a pair that the swap touches has `p` at the position, at a child of it or at its sibling
    by_cases hpos : p = position
    · subst hpos
      unfold Settled
      rw [hleft, hright]
      exact hback
    · have hsame := slotAt_swap_of_ne hposition hqs hpos hpq
      by_cases hchild : parent p = position
      · unfold Settled
        rw [hsame, hchild, hleft]
        exact hat.past hne p hp0 hp hchild
      · by_cases hsibling : parent p = parent position
        · unfold Settled
          rw [hsame, hsibling, hright]
          have hsettled := hat.others p hp0 hp hpos
          unfold Settled at hsettled
          rw [hsibling] at hsettled
          exact hl.trans hback hsettled
        · exact settled_swap_of_ne hposition hqs hpos hpq hchild hsibling
            (hat.others p hp0 hp hpos)
  · intro hq0 p hp0 hp hpq
    rw [size_swap] at hp
    have hg : parent (parent position) < parent position := parent_lt hq0
    have hsettled : Settled lighter h (parent position) :=
      hat.others _ hq0 hqs (by omega)
    have hgsame : (h.swap position (parent position)).slotAt (parent (parent position)) =
        h.slotAt (parent (parent position)) :=
      slotAt_swap_of_ne hposition hqs (by omega) (by omega)
    rw [hgsame]
    by_cases hpos : p = position
    · subst hpos
      rw [hleft]
      exact hsettled
    · have hpne : p ≠ parent position := by
        have := parent_lt hp0
        omega
      rw [slotAt_swap_of_ne hposition hqs hpos hpne]
      have hsib := hat.others p hp0 hp hpos
      unfold Settled at hsib
      rw [hpq] at hsib
      exact hl.trans hsettled hsib

/-- Sifting up orders a heap in which only the slot at the position may be too light. -/
theorem ordered_siftUp (hl : WeakOrder lighter) {h : SlotHeap} {position : Nat}
    (hposition : position < h.size) (hat : LightAt lighter h position) :
    Ordered lighter (siftUp lighter h position) := by
  fun_induction siftUp lighter h position with
  | case1 h => exact fun p hp0 hp => hat.others p hp0 hp hp0
  | case2 h position hne hlt ih =>
      have hq : parent position < position := parent_lt hne
      exact ih (by rw [size_swap]; omega) (hat.swap_parent hl hposition hne hlt)
  | case3 h position hne hnot =>
      intro p hp0 hp
      by_cases hpos : p = position
      · subst hpos
        simpa [Settled] using hnot
      · exact hat.others p hp0 hp hpos

/-! ### Sifting down -/

/-- The lighter child is a child. -/
theorem parent_lighterChild (h : SlotHeap) (position : Nat) :
    parent (lighterChild lighter h position) = position := by
  unfold lighterChild leftChild parent
  dsimp only
  split <;> omega

/-- A position in the heap below another one is its first or its second child. -/
theorem eq_child_of_parent {p position : Nat} (hp0 : p ≠ 0) (hp : parent p = position) :
    p = leftChild position ∨ p = leftChild position + 1 := by
  unfold parent at hp
  unfold leftChild
  omega

/-- No child is lighter than the lighter child. -/
theorem lighterChild_least (hl : WeakOrder lighter) {h : SlotHeap} {position p : Nat}
    (hp0 : p ≠ 0) (hp : p < h.size) (hchild : parent p = position) :
    lighter (h.slotAt p) (h.slotAt (lighterChild lighter h position)) = false := by
  unfold lighterChild
  dsimp only
  split
  · rename_i hright
    simp only [Bool.and_eq_true, decide_eq_true_eq] at hright
    rcases eq_child_of_parent hp0 hchild with rfl | rfl
    · exact hl.asymm hright.2
    · exact hl.irrefl _
  · rename_i hright
    rcases eq_child_of_parent hp0 hchild with rfl | rfl
    · exact hl.irrefl _
    · simpa [hp] using hright

/-- Sifting down moves slots by swaps inside the heap only. -/
theorem consistent_siftDown {h : SlotHeap} {n position : Nat} (hc : h.Consistent n) :
    (siftDown lighter h position).Consistent n := by
  fun_induction siftDown lighter h position with
  | case1 h position hleft child hlt ih =>
      have hchild : child < n := hc.size_eq ▸ lighterChild_lt lighter hleft
      have hposition : position < child := lt_lighterChild lighter h position
      exact ih (hc.swap (by omega) hchild)
  | case2 h position hleft child hnot => exact hc
  | case3 h position hleft => exact hc

@[simp] theorem size_siftDown (h : SlotHeap) (position : Nat) :
    (siftDown lighter h position).size = h.size := by
  fun_induction siftDown lighter h position with
  | case1 h position hleft child hlt ih => rw [ih, size_swap]
  | case2 h position hleft child hnot => rfl
  | case3 h position hleft => rfl

/-- From `low` on, only the slot at `position` may be too heavy for its place: every position that
is not a child of it is settled, and its children are in order with its parent, past the slot in
between. -/
structure HeavyAt (lighter : Nat → Nat → Bool) (h : SlotHeap) (low position : Nat) : Prop where
  /-- The positions under other parents are settled. -/
  others : ∀ p, p ≠ 0 → p < h.size → low ≤ parent p → parent p ≠ position → Settled lighter h p
  /-- The slot at the position may leave without a trace. -/
  past : position ≠ 0 → low ≤ parent position → ∀ p, p ≠ 0 → p < h.size →
    parent p = position → lighter (h.slotAt p) (h.slotAt (parent position)) = false

/-- Exchanging a slot with the lighter of its children moves the doubt to that child. -/
theorem HeavyAt.swap_child (hl : WeakOrder lighter) {h : SlotHeap} {low position : Nat}
    (hat : HeavyAt lighter h low position) (hleft : leftChild position < h.size)
    (hlt : lighter (h.slotAt (lighterChild lighter h position)) (h.slotAt position) = true) :
    HeavyAt lighter (h.swap position (lighterChild lighter h position)) low
      (lighterChild lighter h position) := by
  have hcs : lighterChild lighter h position < h.size := lighterChild_lt lighter hleft
  have hpc : position < lighterChild lighter h position := lt_lighterChild lighter h position
  have hparent : parent (lighterChild lighter h position) = position :=
    parent_lighterChild h position
  have hleast : ∀ p, p ≠ 0 → p < h.size → parent p = position →
      lighter (h.slotAt p) (h.slotAt (lighterChild lighter h position)) = false :=
    fun p hp0 hp hchild => lighterChild_least hl hp0 hp hchild
  generalize lighterChild lighter h position = child at *
  have hps : position < h.size := by omega
  have hleft := slotAt_swap_left hps hcs
  have hright := slotAt_swap_right hps hcs
  constructor
  · intro p hp0 hp hlow hpne
    rw [size_swap] at hp
    have hpp : parent p < p := parent_lt hp0
    -- a pair that the swap touches has `p` at the child, at the position or at the other child
    by_cases hpc' : p = child
    · subst hpc'
      unfold Settled
      rw [hright, hparent, hleft]
      exact hl.asymm hlt
    · by_cases hpos : p = position
      · subst hpos
        unfold Settled
        rw [hleft, slotAt_swap_of_ne hps hcs (by omega) (by omega)]
        exact hat.past hp0 hlow child (by omega) hcs hparent
      · have hsame := slotAt_swap_of_ne hps hcs hpos hpc'
        by_cases hsibling : parent p = position
        · unfold Settled
          rw [hsame, hsibling, hleft]
          exact hleast p hp0 hp hsibling
        · exact settled_swap_of_ne hps hcs hpos hpc' hsibling hpne
            (hat.others p hp0 hp hlow hsibling)
  · intro hc0 hlow p hp0 hp hpchild
    rw [size_swap] at hp
    have hpp : parent p < p := parent_lt hp0
    rw [hparent, hleft, slotAt_swap_of_ne hps hcs (by omega) (by omega)]
    have hsettled := hat.others p hp0 hp (by omega) (by omega)
    unfold Settled at hsettled
    rwa [hpchild] at hsettled

/-- Sifting down settles all positions whose parents stand at or after `low`, if only the slot at
the position may be too heavy. -/
theorem settled_siftDown (hl : WeakOrder lighter) {h : SlotHeap} {low position : Nat}
    (hat : HeavyAt lighter h low position) :
    ∀ p, p ≠ 0 → p < h.size → low ≤ parent p →
      Settled lighter (siftDown lighter h position) p := by
  fun_induction siftDown lighter h position with
  | case1 h position hleft child hlt ih =>
      rw [size_swap] at ih
      exact ih (hat.swap_child hl hleft hlt)
  | case2 h position hleft child hnot =>
      intro p hp0 hp hlow
      by_cases hchild : parent p = position
      · have hleast := lighterChild_least hl hp0 hp hchild
        have hstop : lighter (h.slotAt child) (h.slotAt position) = false := by simpa using hnot
        unfold Settled
        rw [hchild]
        exact hl.trans hstop hleast
      · exact hat.others p hp0 hp hlow hchild
  | case3 h position hleft =>
      intro p hp0 hp hlow
      refine hat.others p hp0 hp hlow fun hchild => hleft ?_
      rcases eq_child_of_parent hp0 hchild with rfl | rfl <;> omega

/-- Sifting down orders a heap in which only the slot at the position may be too heavy. -/
theorem ordered_siftDown (hl : WeakOrder lighter) {h : SlotHeap} {position : Nat}
    (hat : HeavyAt lighter h 0 position) : Ordered lighter (siftDown lighter h position) := by
  intro p hp0 hp
  rw [size_siftDown] at hp
  exact settled_siftDown hl hat p hp0 hp (Nat.zero_le _)

/-! ### A further slot -/

/-- A new slot at the end, noted there, keeps slots and positions inverse. -/
theorem consistent_pushed {h : SlotHeap} {n : Nat} (hc : h.Consistent n) :
    (⟨h.order.push h.size, h.place.push h.size⟩ : SlotHeap).Consistent (n + 1) := by
  have hsize : h.order.size = n := hc.size_order
  have hplace := hc.size_place
  have hslot : ∀ p, (⟨h.order.push h.size, h.place.push h.size⟩ : SlotHeap).slotAt p =
      if p = n then n else h.slotAt p := by
    intro p
    simp only [slotAt, size, Array.getD_eq_getD_getElem?, Array.getElem?_push, hsize]
    split <;> rfl
  have hposition : ∀ s, (⟨h.order.push h.size, h.place.push h.size⟩ : SlotHeap).positionOf s =
      if s = n then n else h.positionOf s := by
    intro s
    simp only [positionOf, size, Array.getD_eq_getD_getElem?, Array.getElem?_push, hsize, hplace]
    split <;> rfl
  have hslotAt_lt := hc.slotAt_lt
  have hpositionOf_lt := hc.positionOf_lt
  have hinv := hc.positionOf_slotAt
  have hinv' := hc.slotAt_positionOf
  refine ⟨by simp [hsize], by simp [hplace], ?_, ?_, ?_, ?_⟩
  · grind
  · grind
  · grind
  · grind

theorem consistent_push {h : SlotHeap} {n : Nat} (hc : h.Consistent n) :
    (push lighter h).Consistent (n + 1) :=
  consistent_siftUp (consistent_pushed hc) (hc.size_eq ▸ Nat.lt_succ_self n)

/-- A further slot leaves the heap ordered, whatever its place in the order. -/
theorem ordered_push (hl : WeakOrder lighter) {h : SlotHeap}
    (ho : Ordered lighter h) : Ordered lighter (push lighter h) := by
  have hslot : ∀ p, p ≠ h.size →
      (⟨h.order.push h.size, h.place.push h.size⟩ : SlotHeap).slotAt p = h.slotAt p := by
    intro p hp
    unfold size at hp
    simp [slotAt, hp, Array.getElem?_push]
  have hsize : (⟨h.order.push h.size, h.place.push h.size⟩ : SlotHeap).size = h.size + 1 := by
    simp [size]
  refine ordered_siftUp hl (by rw [hsize]; exact Nat.lt_succ_self _) ⟨?_, ?_⟩
  · intro p hp0 hp hne
    rw [hsize] at hp
    have hpp := parent_lt hp0
    unfold Settled
    rw [hslot p hne, hslot (parent p) (by omega)]
    exact ho p hp0 (by omega)
  · -- the last position has no children
    intro _ p hp0 hp hchild
    rw [hsize] at hp
    have hpp := parent_lt hp0
    omega

/-! ### Building -/

theorem consistent_identity (n : Nat) : (identity n).Consistent n := by
  have hslot : ∀ p < n, (identity n).slotAt p = p := by
    intro p hp
    simp [identity, slotAt, hp]
  have hposition : ∀ s < n, (identity n).positionOf s = s := by
    intro s hs
    simp [identity, positionOf, hs]
  refine ⟨by simp [identity], by simp [identity], ?_, ?_, ?_, ?_⟩
  · intro p hp
    rwa [hslot p hp]
  · intro s hs
    rwa [hposition s hs]
  · intro p hp
    rw [hslot p hp, hposition p hp]
  · intro s hs
    rw [hposition s hs, hslot s hs]

theorem consistent_siftDownAll {n : Nat} (count : Nat) {h : SlotHeap} (hc : h.Consistent n) :
    (siftDownAll lighter count h).Consistent n := by
  induction count generalizing h with
  | zero => exact hc
  | succ count ih => exact ih (consistent_siftDown hc)

/-- Sifting down the first positions, the last of them first, orders a heap whose positions are
settled from there on. -/
theorem ordered_siftDownAll (hl : WeakOrder lighter) (count : Nat) {h : SlotHeap}
    (hlater : ∀ p, p ≠ 0 → p < h.size → count ≤ parent p → Settled lighter h p) :
    Ordered lighter (siftDownAll lighter count h) := by
  induction count generalizing h with
  | zero => exact fun p hp0 hp => hlater p hp0 hp (Nat.zero_le _)
  | succ count ih =>
      apply ih
      rw [size_siftDown]
      refine settled_siftDown hl ⟨?_, ?_⟩
      · intro p hp0 hp hlow hne
        exact hlater p hp0 hp (by omega)
      · intro hc0 hlow
        have hlt := parent_lt hc0
        omega

/-- Building arranges the slots. -/
theorem consistent_build (lighter : Nat → Nat → Bool) (n : Nat) :
    (build lighter n).Consistent n :=
  consistent_siftDownAll _ (consistent_identity n)

/-- Building orders the slots: the second half of the positions has no children. -/
theorem ordered_build (hl : WeakOrder lighter) (n : Nat) : Ordered lighter (build lighter n) := by
  apply ordered_siftDownAll hl
  intro p hp0 hp hhalf
  have hsize : (identity n).size = n := (consistent_identity n).size_eq
  unfold parent at hhalf
  omega

/-! ### The lightest slot -/

/-- In an ordered heap no slot is lighter than the one on top. -/
theorem top_least (hl : WeakOrder lighter) {h : SlotHeap} (ho : Ordered lighter h) (p : Nat)
    (hp : p < h.size) : lighter (h.slotAt p) (h.slotAt 0) = false := by
  induction p using Nat.strongRecOn with
  | ind p ih =>
      by_cases hp0 : p = 0
      · subst hp0
        exact hl.irrefl _
      · have hpp := parent_lt hp0
        exact hl.trans (ih (parent p) hpp (by omega)) (ho p hp0 hp)

/-- The slot on top of a heap that is not empty. -/
theorem lightest?_eq {h : SlotHeap} {n : Nat} (hc : h.Consistent n) (hn : n ≠ 0) :
    h.lightest? = some (h.slotAt 0) := by
  have hsize : 0 < h.order.size := by rw [hc.size_order]; omega
  simp [lightest?, slotAt, hsize]

theorem lightest?_eq_none {h : SlotHeap} (hc : h.Consistent 0) : h.lightest? = none := by
  simp [lightest?, hc.size_order]

/-- No slot of a consistent and ordered heap is lighter than the lightest. -/
theorem lighter_lightest (hl : WeakOrder lighter) {h : SlotHeap} {n : Nat} (hc : h.Consistent n)
    (ho : Ordered lighter h) {least : Nat} (hleast : h.lightest? = some least) :
    least < n ∧ ∀ s < n, lighter s least = false := by
  have hn : n ≠ 0 := by
    rintro rfl
    rw [lightest?_eq_none hc] at hleast
    cases hleast
  rw [lightest?_eq hc hn] at hleast
  cases hleast
  refine ⟨hc.slotAt_lt 0 (by omega), fun s hs => ?_⟩
  have htop := top_least hl ho (h.positionOf s) (hc.size_eq.symm ▸ hc.positionOf_lt s hs)
  rwa [hc.slotAt_positionOf s hs] at htop

/-! ### Rounds -/

/-- Sifting up as a loop of at most some rounds, with no outcome if another round is due. -/
def siftUpRounds (lighter : Nat → Nat → Bool) :
    (rounds : Nat) → SlotHeap → (position : Nat) → Option SlotHeap
  | 0, _, _ => none
  | rounds + 1, h, position =>
    if position = 0 then some h
    else if lighter (h.slotAt position) (h.slotAt (parent position)) then
      siftUpRounds lighter rounds (h.swap position (parent position)) (parent position)
    else some h

/-- Sifting down as a loop of at most some rounds, with no outcome if another round is due. -/
def siftDownRounds (lighter : Nat → Nat → Bool) :
    (rounds : Nat) → SlotHeap → (position : Nat) → Option SlotHeap
  | 0, _, _ => none
  | rounds + 1, h, position =>
    if leftChild position < h.size then
      let child := lighterChild lighter h position
      if lighter (h.slotAt child) (h.slotAt position) then
        siftDownRounds lighter rounds (h.swap position child) child
      else some h
    else some h

theorem siftUpRounds_eq (lighter : Nat → Nat → Bool) (h : SlotHeap) {position rounds : Nat}
    (hrounds : position + 1 < 2 ^ rounds) :
    siftUpRounds lighter rounds h position = some (siftUp lighter h position) := by
  induction rounds generalizing h position with
  | zero => omega
  | succ rounds ih =>
      rw [siftUpRounds, siftUp]
      by_cases hzero : position = 0
      · rw [if_pos hzero, dif_pos hzero]
      · have hhalf : parent position + 1 < 2 ^ rounds := by
          unfold parent
          omega
        rw [if_neg hzero, dif_neg hzero, ih _ hhalf]
        split <;> rfl

theorem siftDownRounds_eq (lighter : Nat → Nat → Bool) {h : SlotHeap} {position rounds : Nat}
    (hposition : position < h.size) (hrounds : h.size < (position + 1) * 2 ^ rounds) :
    siftDownRounds lighter rounds h position = some (siftDown lighter h position) := by
  induction rounds generalizing h position with
  | zero => omega
  | succ rounds ih =>
      rw [siftDownRounds, siftDown]
      by_cases hleft : leftChild position < h.size
      · have hchild := lighterChild_lt lighter hleft
        have htwice : (position + 1) * 2 ≤ lighterChild lighter h position + 1 := by
          have hparent : parent (lighterChild lighter h position) = position :=
            parent_lighterChild h position
          have hlt := lt_lighterChild lighter h position
          unfold parent at hparent
          omega
        have hrest : h.size < (lighterChild lighter h position + 1) * 2 ^ rounds :=
          calc h.size < (position + 1) * 2 ^ (rounds + 1) := hrounds
            _ = (position + 1) * 2 * 2 ^ rounds := by rw [Nat.pow_succ', Nat.mul_assoc]
            _ ≤ (lighterChild lighter h position + 1) * 2 ^ rounds :=
              Nat.mul_le_mul_right _ htwice
        rw [if_pos hleft, dif_pos hleft]
        dsimp only
        rw [ih (by rwa [size_swap]) (by rwa [size_swap])]
        split <;> rfl
      · rw [if_neg hleft, dif_neg hleft]

/-- Sifts end after as many rounds as it takes to write the size in binary. -/
theorem sifts_end (lighter : Nat → Nat → Bool) {h : SlotHeap} {position rounds : Nat}
    (hposition : position < h.size) (hrounds : h.size < 2 ^ rounds) :
    siftUpRounds lighter rounds h position = some (siftUp lighter h position) ∧
      siftDownRounds lighter rounds h position = some (siftDown lighter h position) := by
  have hdown : 1 * 2 ^ rounds ≤ (position + 1) * 2 ^ rounds :=
    Nat.mul_le_mul_right _ (Nat.le_add_left 1 position)
  exact ⟨siftUpRounds_eq lighter h (by omega), siftDownRounds_eq lighter hposition (by omega)⟩

end Sifts

end FlowSketch.SlotHeap
