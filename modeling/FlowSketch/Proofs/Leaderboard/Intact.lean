import FlowSketch.Proofs.Checked.Leaderboard
import FlowSketch.Proofs.Leaderboard.Peaks

/-!
# FlowSketch.Proofs.Leaderboard.Intact

**The arrays of a leaderboard fit each other, and no operation looks outside them.** `WellFormed` says
of the machinery what the proofs need, through look-ups with a default and through the roster. Here
the same is said of the arrays themselves: their lengths, the slots in heap order as a permutation,
the two arrays of the heap as inverse tables, the index as the table of the listed keys, and the
comparison of every entry with the one above it (`Intact`). Each of it is read off a well-formed
leaderboard, and well-formed is what every run of requests leaves (`WellFormed.after`).

An intact leaderboard answers offers and scalings without looking outside an array, however many
slots and admissions there are (`InBounds`). Only a number that does not fit into its word could stop
it, and the sifts end in any case.
-/

namespace FlowSketch

/-! ### The two arrays of a heap -/

theorem getElem?_eq_some_iff_getD (xs : Array Nat) (i x : Nat) :
    xs[i]? = some x ↔ i < xs.size ∧ xs.getD i 0 = x := by
  rw [Array.getElem?_eq_some_iff, Array.getD_eq_getD_getElem?]
  constructor
  · rintro ⟨hlt, rfl⟩
    exact ⟨hlt, by rw [Array.getElem?_eq_getElem hlt, Option.getD_some]⟩
  · rintro ⟨hlt, rfl⟩
    exact ⟨hlt, by rw [Array.getElem?_eq_getElem hlt, Option.getD_some]⟩

namespace SlotHeap.Consistent

variable {h : SlotHeap} {n : Nat}

theorem getElem?_order (hc : h.Consistent n) (position slot : Nat) :
    h.order[position]? = some slot ↔ position < n ∧ h.slotAt position = slot := by
  rw [getElem?_eq_some_iff_getD, hc.size_order]
  rfl

theorem getElem?_place (hc : h.Consistent n) (slot position : Nat) :
    h.place[slot]? = some position ↔ slot < n ∧ h.positionOf slot = position := by
  rw [getElem?_eq_some_iff_getD, hc.size_place]
  rfl

/-- A slot stands at a position if and only if it is noted there. -/
theorem order_iff_place (hc : h.Consistent n) (position slot : Nat) :
    h.order[position]? = some slot ↔ h.place[slot]? = some position := by
  rw [hc.getElem?_order, hc.getElem?_place]
  constructor
  · rintro ⟨hlt, rfl⟩
    exact ⟨hc.slotAt_lt position hlt, hc.positionOf_slotAt position hlt⟩
  · rintro ⟨hlt, rfl⟩
    exact ⟨hc.positionOf_lt slot hlt, hc.slotAt_positionOf slot hlt⟩

/-- The heap lists every slot once. -/
theorem order_perm (hc : h.Consistent n) : h.order.toList.Perm (List.range n) := by
  have horder : h.order.toList = (List.range n).map h.slotAt := by
    apply List.ext_getElem?
    intro position
    rw [Array.getElem?_toList, List.getElem?_map]
    by_cases hlt : position < n
    · rw [(hc.getElem?_order position _).mpr ⟨hlt, rfl⟩, List.getElem?_range hlt, Option.map_some]
    · rw [Array.getElem?_eq_none (by rw [hc.size_order]; omega),
        List.getElem?_eq_none (by rw [List.length_range]; omega), Option.map_none]
  have hnodup : ((List.range n).map h.slotAt).Nodup :=
    List.Nodup.map_on
      (fun p hp q hq => hc.slotAt_inj (List.mem_range.mp hp) (List.mem_range.mp hq))
      List.nodup_range
  rw [horder, List.perm_ext_iff_of_nodup hnodup List.nodup_range]
  intro slot
  rw [List.mem_map, List.mem_range]
  constructor
  · rintro ⟨position, hposition, rfl⟩
    exact hc.slotAt_lt position (List.mem_range.mp hposition)
  · intro hslot
    exact ⟨h.positionOf slot, List.mem_range.mpr (hc.positionOf_lt slot hslot),
      hc.slotAt_positionOf slot hslot⟩

end SlotHeap.Consistent

namespace Leaderboard

variable {b : Leaderboard} {num : Numerics}

/-! ### Intact leaderboards -/

/-- The entry in the slot at a position of the heap. -/
def entryAt? (b : Leaderboard) (position : Nat) : Option Entry :=
  b.heap.order[position]?.bind fun slot => b.slots[slot]?

/-- The arrays and the index of a leaderboard fit each other. -/
structure Intact (b : Leaderboard) : Prop where
  size_le : b.slots.size ≤ b.capacity
  size_order : b.heap.order.size = b.slots.size
  size_place : b.heap.place.size = b.slots.size
  size_index : b.index.size = b.slots.size
  /-- The heap lists every slot once. -/
  order_perm : b.heap.order.toList.Perm (List.range b.slots.size)
  /-- The positions are the inverse of the heap. -/
  order_iff_place : ∀ position slot : Nat,
    b.heap.order[position]? = some slot ↔ b.heap.place[slot]? = some position
  /-- The index sends the key of every slot to that slot, and knows no other key. -/
  index_iff : ∀ key slot, b.index[key]? = some slot ↔ b.slots[slot]?.map Entry.key = some key
  estimate_pos : ∀ e ∈ b.slots, 0 < e.estimate
  /-- No two keys were admitted at one time. -/
  seqs_nodup : (b.slots.toList.map Entry.seq).Nodup
  seq_lt : ∀ e ∈ b.slots, e.seq < b.nextSeq
  /-- Below the top every position holds an entry that is not lighter than the one above it. -/
  settled : ∀ position, 0 < position → position < b.slots.size →
    ∃ entry above, b.entryAt? position = some entry ∧ b.entryAt? ((position - 1) / 2) = some above ∧
      entry.lighter above = false

theorem WellFormed.entryAt?_eq (hb : b.WellFormed) {position : Nat}
    (hposition : position < b.slots.size) :
    b.entryAt? position = some (b.entry (b.heap.slotAt position)) := by
  rw [entryAt?, (hb.consistent.getElem?_order position _).mpr ⟨hposition, rfl⟩, Option.bind_some,
    (hb.entry_mem (hb.consistent.slotAt_lt position hposition)).1]

/-- The index knows as many keys as there are slots. -/
theorem WellFormed.size_index (hb : b.WellFormed) : b.index.size = b.slots.size := by
  have hkeys : b.index.keys.Perm (b.slots.toList.map Entry.key) := by
    refine (List.perm_ext_iff_of_nodup Std.TreeMap.nodup_keys hb.legal.keys_nodup).mpr fun key => ?_
    have hlisted : b.contains key = true ↔ ∃ e ∈ b.roster.entries, e.key = key := hb.contains_iff
    rw [contains, Std.TreeMap.contains_iff_mem] at hlisted
    rw [Std.TreeMap.mem_keys, hlisted, List.mem_map]
  rw [← Std.TreeMap.length_keys, hkeys.length_eq, List.length_map, Array.length_toList]

theorem WellFormed.intact (hb : b.WellFormed) : b.Intact where
  size_le := hb.legal.length_le
  size_order := hb.consistent.size_order
  size_place := hb.consistent.size_place
  size_index := hb.size_index
  order_perm := hb.consistent.order_perm
  order_iff_place := hb.consistent.order_iff_place
  index_iff := hb.index_iff
  estimate_pos := fun e he => UInt64.pos_iff_ne_zero.mpr (hb.legal.positive e he.val)
  seqs_nodup := hb.legal.seqs_nodup
  seq_lt := fun e he => hb.legal.seq_lt e he.val
  settled := by
    intro position hpos hposition
    have hne : position ≠ 0 := Nat.ne_of_gt hpos
    have habove : (position - 1) / 2 < b.slots.size :=
      Nat.lt_trans (SlotHeap.parent_lt hne) hposition
    exact ⟨_, _, hb.entryAt?_eq hposition, hb.entryAt?_eq habove,
      hb.ordered position hne (hb.consistent.size_eq.symm ▸ hposition)⟩

/-! ### Staying inside the arrays -/

/-- Offers and scalings look at what exists. They go through unless a number does not fit into its
word: there would have to be `2 ^ 63` slots or `2 ^ 64` admissions. -/
structure InBounds (b : Leaderboard) : Prop where
  offer : ∀ key estimate,
    Checked.EqUnless (2 ^ 63 ≤ b.slots.size ∨ 2 ^ 64 ≤ (b.offer key estimate).2.nextSeq)
      (b.offerChecked key estimate) (.ok (b.offer key estimate))
  decay : ∀ scale,
    Checked.EqUnless (2 ^ 63 ≤ b.slots.size) (b.decayChecked scale)
      (.ok (b.droppedBy scale, b.decay scale))
  offer_ne : ∀ key estimate, b.offerChecked key estimate ≠ .error .outOfBounds
  decay_ne : ∀ scale, b.decayChecked scale ≠ .error .outOfBounds

theorem WellFormed.inBounds (hb : b.WellFormed) (hcapacity : b.capacity ≠ 0) : b.InBounds where
  offer := hb.offerChecked_eqUnless hcapacity
  decay := b.decayChecked_eqUnless
  offer_ne := fun key estimate =>
    (hb.offerChecked_eqUnless hcapacity key estimate).ne_error (by decide)
  decay_ne := fun scale => (b.decayChecked_eqUnless scale).ne_error (by decide)

/-! ### Many requests -/

/-- After any requests to a leaderboard with room for a key, its arrays fit each other and no
operation looks outside them, and the sifts of every heap end. -/
theorem after_intact (num : Numerics) {capacity : Nat} (hcapacity : 1 ≤ capacity)
    (requests : List Request) :
    ((empty capacity).after num requests).capacity = capacity ∧
      ((empty capacity).after num requests).Intact ∧
      ((empty capacity).after num requests).InBounds ∧
      ∀ (h : SlotHeap) (lighter : Nat → Nat → Bool) (position rounds : Nat),
        position < h.size → h.size < 2 ^ rounds →
          h.siftUpRounds lighter rounds position = some (h.siftUp lighter position) ∧
          h.siftDownRounds lighter rounds position = some (h.siftDown lighter position) := by
  obtain ⟨hwf, hcap⟩ := (wellFormed_empty capacity).after num requests
  have hroom : ((empty capacity).after num requests).capacity ≠ 0 := by
    rw [hcap]
    exact Nat.ne_of_gt hcapacity
  exact ⟨hcap, hwf.intact, hwf.inBounds hroom, fun h lighter position rounds =>
    SlotHeap.sifts_end lighter⟩

/-- A listed key is raised, a new one takes the place of the other key, a scaling makes the two
equal, and the older one is raised once more. -/
def raisedAndDisplaced : List Request :=
  [.offer [1] 3, .offer [2] 5, .offer [1] 6, .offer [3] 7, .decay 0.5, .offer [1] 9]

/-- The key in the first slot has moved to the second position of the heap. -/
theorem after_intact_raisedAndDisplaced :
    1 ≤ 2 ∧ ((empty 2).after halving raisedAndDisplaced).heap = ⟨#[1, 0], #[1, 0]⟩ ∧
      ((empty 2).after halving raisedAndDisplaced).slots = #[⟨[1], 9, 0⟩, ⟨[3], 3, 2⟩] ∧
      ((empty 2).after halving raisedAndDisplaced).Intact ∧
      ((empty 2).after halving raisedAndDisplaced).offerChecked [4] 10 ≠ .error .outOfBounds := by
  obtain ⟨-, hintact, hbounds, -⟩ := after_intact halving (show 1 ≤ 2 by decide) raisedAndDisplaced
  exact ⟨by decide, by decide +kernel, by decide +kernel, hintact, hbounds.offer_ne [4] 10⟩

end Leaderboard

end FlowSketch
