import FlowSketch.Proofs.Checked.SlotHeap
import FlowSketch.Proofs.Leaderboard.Refill

/-!
# FlowSketch.Proofs.Checked.Leaderboard

**A leaderboard looks at slots that exist.** The index and the heap of a well-formed leaderboard name
slots of its arena only, and a leaderboard that is full but has room for one key has a lightest
entry. So an offer reads and writes inside all arrays. Two numbers have no bound of their own, that of
the slots, if the capacity is not bounded, and that of the admissions; an offer goes through unless
one of them is too large (`WellFormed.offerChecked_eqUnless`), and a scaling unless there are too many
slots (`decayChecked_eqUnless`).

A capacity of 32 bits leaves the admissions alone: an offer goes through as long as they stay below
`2 ^ 64` (`Addressable.offerChecked_eq`).
-/

namespace FlowSketch

/-- The order of the entries in an arena of slots. -/
def lighterSlotChecked (slots : Array Entry) (a b : Nat) : Checked Bool := do
  let first ← Checked.read slots a
  let second ← Checked.read slots b
  return first.lighter second

theorem tests_lighterSlot (slots : Array Entry) {n : Nat} (h : slots.size = n) :
    SlotHeap.Tests (lighterSlotChecked slots) (lighterSlot slots) n := by
  subst h
  intro a ha b hb
  rw [lighterSlotChecked, Checked.read_ok_getD ha default, Checked.ok_bind,
    Checked.read_ok_getD hb default]
  rfl

namespace Leaderboard

variable {b : Leaderboard} {key : Key} {estimate : UInt64}

/-- A leaderboard without entries. -/
def emptyChecked (capacity : Nat) : Checked Leaderboard := do
  Checked.assert (0 < capacity)
  return .empty capacity

/-! ### Offers -/

/-- The key in a slot is given a larger estimate. -/
def raiseChecked (b : Leaderboard) (slot : Nat) (estimate : UInt64) : Checked Leaderboard := do
  let e ← Checked.read b.slots slot
  let slots ← Checked.write b.slots slot { e with estimate }
  let position ← Checked.read b.heap.place slot
  let heap ← b.heap.siftDownChecked (lighterSlotChecked slots) position
  return { b with slots, heap }

/-- A key takes a slot of its own. -/
def enlistChecked (b : Leaderboard) (key : Key) (estimate : UInt64) : Checked Leaderboard := do
  let slot := b.slots.size
  let nextSeq ← Checked.plus 64 b.nextSeq 1
  let slots := b.slots.push { key, estimate, seq := b.nextSeq }
  let heap ← b.heap.pushChecked (lighterSlotChecked slots) slot
  return { b with slots, heap, index := b.index.insert key slot, nextSeq }

/-- A key takes the slot of the lightest entry. -/
def displaceChecked (b : Leaderboard) (slot : Nat) (key : Key) (estimate : UInt64) :
    Checked Leaderboard := do
  let nextSeq ← Checked.plus 64 b.nextSeq 1
  let old ← Checked.read b.slots slot
  let slots ← Checked.write b.slots slot { key, estimate, seq := b.nextSeq }
  let heap ← b.heap.siftDownChecked (lighterSlotChecked slots) 0
  return { b with slots, heap, index := (b.index.erase old.key).insert key slot, nextSeq }

/-- A key is considered with a freshly observed estimate. -/
def offerChecked (b : Leaderboard) (key : Key) (estimate : UInt64) :
    Checked (Response × Leaderboard) := do
  match b.index[key]? with
  | some slot =>
    let e ← Checked.read b.slots slot
    if estimate ≤ e.estimate then return (.ignored, b)
    else return (.raised, ← b.raiseChecked slot estimate)
  | none =>
    if estimate = 0 then return (.ignored, b)
    else if b.slots.size < b.capacity then return (.admitted, ← b.enlistChecked key estimate)
    else
      let slot ← Checked.read b.heap.order 0
      let lightest ← Checked.read b.slots slot
      if estimate ≤ lightest.estimate then return (.ignored, b)
      else
        let after ← b.displaceChecked slot key estimate
        return (.displaced lightest.key lightest.estimate, after)

/-- Several keys are offered in turn, each at an estimate that is looked up when its turn comes. -/
def offerAllChecked (lookUp : Key → Checked UInt64) (b : Leaderboard) :
    List Key → Checked Leaderboard
  | [] => return b
  | key :: rest => do
    let (_, b) ← b.offerChecked key (← lookUp key)
    offerAllChecked lookUp b rest

/-- Every estimate scaled, with the number of the entries that leave. -/
def decayChecked (scale : UInt64 → UInt64) (b : Leaderboard) : Checked (Nat × Leaderboard) := do
  let slots := b.slots.filterMap (survivor? scale)
  let heap ← SlotHeap.buildChecked (lighterSlotChecked slots) slots.size
  let dropped ← Checked.minus b.slots.size slots.size
  return (dropped, { b with slots, heap, index := indexOf slots })

theorem emptyChecked_eq {capacity : Nat} (hpos : capacity ≠ 0) :
    emptyChecked capacity = .ok (.empty capacity) := by
  rw [emptyChecked, Checked.assert_ok (Nat.pos_of_ne_zero hpos)]
  rfl

/-! ### Any number of slots -/

namespace WellFormed

theorem raiseChecked_eqUnless (hb : b.WellFormed) {slot : Nat} (hslot : slot < b.slots.size)
    (estimate : UInt64) :
    Checked.EqUnless (2 ^ 63 ≤ b.slots.size) (b.raiseChecked slot estimate)
      (.ok (b.raise slot estimate)) := by
  have hget := (hb.entry_mem hslot).1
  have hslots : b.slots.setIfInBounds slot { b.entry slot with estimate } =
      b.slots.modify slot fun e => { e with estimate } := by
    apply Array.ext_getElem?
    intro j
    rw [getElem?_setIfInBounds_eq_map, Array.getElem?_modify]
    split
    · rename_i hj
      rw [← hj, hget]
      rfl
    · rfl
  have hsift := SlotHeap.siftDownChecked_eqUnless
    (tests_lighterSlot (b.slots.modify slot fun e => { e with estimate }) Array.size_modify)
    hb.consistent (hb.consistent.positionOf_lt slot hslot)
  rw [raiseChecked, Checked.read_ok hget, Checked.ok_bind, Checked.write_ok hslot, Checked.ok_bind,
    hb.consistent.read_place hslot, Checked.ok_bind, hslots]
  exact hsift.bind (.inl rfl)

theorem enlistChecked_eqUnless (hb : b.WellFormed) (key : Key) (estimate : UInt64) :
    Checked.EqUnless (2 ^ 64 ≤ b.nextSeq + 1) (b.enlistChecked key estimate)
      (.ok (b.enlist key estimate)) := by
  have htests := tests_lighterSlot (b.slots.push { key, estimate, seq := b.nextSeq })
    (Array.size_push _)
  refine (Checked.plus_eqUnless 64 b.nextSeq 1).bind (.inl ?_)
  simp only [SlotHeap.pushChecked_eq htests hb.consistent]
  rfl

theorem displaceChecked_eqUnless (hb : b.WellFormed) {slot : Nat} (hslot : slot < b.slots.size)
    (key : Key) (estimate : UInt64) :
    Checked.EqUnless (2 ^ 63 ≤ b.slots.size ∨ 2 ^ 64 ≤ b.nextSeq + 1)
      (b.displaceChecked slot key estimate) (.ok (b.displace slot key estimate)) := by
  have hget := (hb.entry_mem hslot).1
  have hsift := SlotHeap.siftDownChecked_eqUnless
    (tests_lighterSlot (b.slots.setIfInBounds slot { key, estimate, seq := b.nextSeq })
      Array.size_setIfInBounds) hb.consistent (Nat.zero_lt_of_lt hslot)
  refine ((Checked.plus_eqUnless 64 b.nextSeq 1).mono .inr).bind ?_
  rw [Checked.read_ok hget, Checked.ok_bind, Checked.write_ok hslot, Checked.ok_bind]
  exact (hsift.mono .inl).bind (.inl rfl)

/-- An offer goes through unless it is the `2 ^ 64`th admission or there are `2 ^ 63` slots. -/
theorem offerChecked_eqUnless (hb : b.WellFormed) (hcapacity : b.capacity ≠ 0) (key : Key)
    (estimate : UInt64) :
    Checked.EqUnless (2 ^ 63 ≤ b.slots.size ∨ 2 ^ 64 ≤ (b.offer key estimate).2.nextSeq)
      (b.offerChecked key estimate) (.ok (b.offer key estimate)) := by
  unfold offerChecked Leaderboard.offer
  cases hindex : b.index[key]? with
  | some slot =>
      obtain ⟨hslot, -, -⟩ := hb.find?_of_index hindex
      simp only [Checked.read_ok (hb.entry_mem hslot).1, Checked.ok_bind]
      by_cases hle : estimate ≤ (b.entry slot).estimate
      · rw [if_pos hle, if_pos hle]
        exact .inl rfl
      · rw [if_neg hle, if_neg hle]
        exact ((hb.raiseChecked_eqUnless hslot estimate).mono .inl).bind (.inl rfl)
  | none =>
      dsimp only
      by_cases hzero : estimate = 0
      · rw [if_pos hzero, if_pos hzero]
        exact .inl rfl
      · rw [if_neg hzero, if_neg hzero]
        by_cases hroom : b.slots.size < b.capacity
        · rw [if_pos hroom, if_pos hroom]
          exact ((hb.enlistChecked_eqUnless key estimate).mono .inr).bind (.inl rfl)
        · rw [if_neg hroom, if_neg hroom]
          -- the arena is full, so it is not empty and the heap has a top
          have hfull : b.slots.size ≠ 0 := by omega
          have htop := SlotHeap.lightest?_eq hb.consistent hfull
          have hslot := hb.consistent.slotAt_lt 0 (Nat.pos_of_ne_zero hfull)
          simp only [htop, hb.consistent.read_order (Nat.pos_of_ne_zero hfull), Checked.ok_bind,
            Checked.read_ok (hb.entry_mem hslot).1]
          by_cases hle : estimate ≤ (b.entry (b.heap.slotAt 0)).estimate
          · rw [if_pos hle, if_pos hle]
            exact .inl rfl
          · rw [if_neg hle, if_neg hle]
            exact (hb.displaceChecked_eqUnless hslot key estimate).bind (.inl rfl)

end WellFormed

/-- No more entries leave than there were. -/
theorem decayChecked_eqUnless (b : Leaderboard) (scale : UInt64 → UInt64) :
    Checked.EqUnless (2 ^ 63 ≤ b.slots.size) (b.decayChecked scale)
      (.ok (b.droppedBy scale, b.decay scale)) := by
  have hkept : (b.slots.filterMap (survivor? scale)).size ≤ b.slots.size :=
    Array.size_filterMap_le ..
  have hdropped : b.slots.size - (b.slots.filterMap (survivor? scale)).size =
      b.droppedBy scale := by
    rw [WellFormed.droppedBy_eq, ← WellFormed.roster_decay]
    rfl
  refine ((SlotHeap.buildChecked_eqUnless (tests_lighterSlot _ rfl)).mono
    fun hlarge => Nat.le_trans hlarge hkept).bind (.inl ?_)
  rw [Checked.minus_ok hkept, hdropped]
  rfl

/-! ### Leaderboards that a machine can hold -/

/-- The machinery fits, there is room for a key, and a machine can count the slots. -/
structure Addressable (b : Leaderboard) : Prop where
  wellFormed : b.WellFormed
  capacity_ne_zero : b.capacity ≠ 0
  capacity_le : b.capacity ≤ maxWord32

theorem addressable_empty {capacity : Nat} (hpos : capacity ≠ 0) (hle : capacity ≤ maxWord32) :
    (empty capacity).Addressable :=
  ⟨wellFormed_empty capacity, hpos, hle⟩

/-- An offer admits at most one key. -/
theorem nextSeq_offer (b : Leaderboard) (key : Key) (estimate : UInt64) :
    b.nextSeq ≤ (b.offer key estimate).2.nextSeq ∧
      (b.offer key estimate).2.nextSeq ≤ b.nextSeq + 1 := by
  unfold offer
  split
  · split
    · exact ⟨Nat.le_refl _, Nat.le_succ _⟩
    · exact ⟨Nat.le_refl _, Nat.le_succ _⟩
  · split
    · exact ⟨Nat.le_refl _, Nat.le_succ _⟩
    · split
      · exact ⟨Nat.le_succ _, Nat.le_refl _⟩
      · split
        · exact ⟨Nat.le_refl _, Nat.le_succ _⟩
        · dsimp only
          split
          · exact ⟨Nat.le_refl _, Nat.le_succ _⟩
          · exact ⟨Nat.le_succ _, Nat.le_refl _⟩

namespace Addressable

theorem size_lt (hb : b.Addressable) : b.slots.size < 2 ^ 63 := by
  have hsize : b.slots.size ≤ b.capacity := hb.wellFormed.legal.length_le
  have hmax : maxWord32 < 2 ^ 63 := by decide
  have hcapacity := hb.capacity_le
  omega

theorem offer (hb : b.Addressable) (key : Key) (estimate : UInt64) :
    (b.offer key estimate).2.Addressable := by
  have hcapacity := hb.wellFormed.capacity_offer key estimate
  exact ⟨hb.wellFormed.offer key estimate, hcapacity ▸ hb.capacity_ne_zero,
    hcapacity ▸ hb.capacity_le⟩

/-- An offer goes through unless it is the `2 ^ 64`th admission. -/
theorem offerChecked_eq (hb : b.Addressable) (key : Key) (estimate : UInt64)
    (hseq : (b.offer key estimate).2.nextSeq < 2 ^ 64) :
    b.offerChecked key estimate = .ok (b.offer key estimate) := by
  have hlt := hb.size_lt
  exact (hb.wellFormed.offerChecked_eqUnless hb.capacity_ne_zero key estimate).eq_of_not (by omega)

/-- Offers go through as long as all of them could be admissions. -/
theorem offerAllChecked_eq (hb : b.Addressable) {lookUp : Key → Checked UInt64}
    {estimateOf : Key → UInt64} (hlookUp : ∀ key, lookUp key = .ok (estimateOf key))
    {keys : List Key} (hseq : b.nextSeq + keys.length < 2 ^ 64) :
    b.offerAllChecked lookUp keys =
      .ok (b.offerAll (keys.map fun key => (key, estimateOf key))) := by
  induction keys generalizing b with
  | nil => rfl
  | cons key rest ih =>
      have hnext := (nextSeq_offer b key (estimateOf key)).2
      rw [List.length_cons] at hseq
      have hfirst : (b.offer key (estimateOf key)).2.nextSeq < 2 ^ 64 := by omega
      rw [offerAllChecked, hlookUp, Checked.ok_bind, hb.offerChecked_eq key _ hfirst,
        Checked.ok_bind]
      have hlater : (b.offer key (estimateOf key)).2.nextSeq + rest.length < 2 ^ 64 := by omega
      exact ih (hb.offer key _) hlater

theorem decayChecked_eq (hb : b.Addressable) (scale : UInt64 → UInt64) :
    b.decayChecked scale = .ok (b.droppedBy scale, b.decay scale) :=
  (b.decayChecked_eqUnless scale).eq_of_not (Nat.not_le_of_lt hb.size_lt)

end Addressable

end Leaderboard

end FlowSketch
