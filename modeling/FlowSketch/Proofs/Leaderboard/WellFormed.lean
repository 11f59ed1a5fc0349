import FlowSketch.Proofs.Leaderboard.Roster
import FlowSketch.Proofs.SlotHeap

/-!
# FlowSketch.Proofs.Leaderboard.WellFormed

**The machinery of a leaderboard fits its entries.** In a `WellFormed` leaderboard the heap arranges
exactly the slots, the lightest entry on top, the index sends every listed key to its own slot and
knows no other key, and the entries themselves form a legal roster.

Each of the three writes has one lemma that says what it does to the roster and one that says that
the machinery fits again. For the writes that make the entry of one slot heavier, both rest on the
same fact about the heap: sifting that slot down from where it stands is enough
(`ordered_siftDown_of_heavier`).
-/

namespace FlowSketch

open SlotHeap (Consistent Ordered WeakOrder Settled)

/-! ### The order on slots -/

theorem lighterSlot_eq_false_iff {slots : Array Entry} {a b : Nat} :
    lighterSlot slots a b = false ↔
      (slots.getD b default).weight ≤ (slots.getD a default).weight :=
  Entry.lighter_eq_false_iff

theorem weakOrder_lighterSlot (slots : Array Entry) : WeakOrder (lighterSlot slots) where
  asymm := by
    intro a b hab
    rw [lighterSlot_eq_false_iff]
    exact le_of_lt (Entry.lighter_iff_weight.mp hab)
  trans := by
    intro a b c hba hcb
    rw [lighterSlot_eq_false_iff] at *
    exact le_trans hba hcb

/-! ### Writes to one slot -/

/-- Changing the entry of one slot changes, in the list of entries, those that a test picks out, if
the test picks out that slot. -/
theorem toList_eq_map_of_write {slots slots' : Array Entry} {change : Entry → Entry} {slot : Nat}
    {picked : Entry → Prop} [DecidablePred picked]
    (hwrite : ∀ j, slots'[j]? = if slot = j then slots[j]?.map change else slots[j]?)
    (hpicked : ∀ j e, slots[j]? = some e → (picked e ↔ slot = j)) :
    slots'.toList = slots.toList.map fun e => if picked e then change e else e := by
  apply List.ext_getElem?
  intro j
  rw [List.getElem?_map, Array.getElem?_toList, Array.getElem?_toList, hwrite j]
  cases hj : slots[j]? with
  | none => simp
  | some e =>
      have hiff := hpicked j e hj
      by_cases hslot : slot = j
      · simp [hslot, hiff.mpr hslot]
      · simp [hslot, mt hiff.mp hslot]

theorem getElem?_setIfInBounds_eq_map (slots : Array Entry) (slot : Nat) (new : Entry) (j : Nat) :
    (slots.setIfInBounds slot new)[j]? =
      if slot = j then slots[j]?.map fun _ => new else slots[j]? := by
  rw [Array.getElem?_setIfInBounds]
  by_cases hslot : slot = j
  · subst hslot
    by_cases hlt : slot < slots.size
    · simp [hlt]
    · simp [hlt]
  · simp [hslot]

/-- When a write makes the entry of one slot heavier, sifting the slot down from where it stands
orders the heap again. -/
theorem ordered_siftDown_of_heavier {slots slots' : Array Entry} {change : Entry → Entry}
    {heap : SlotHeap} {slot : Nat} {e : Entry} (hc : heap.Consistent slots.size)
    (ho : heap.Ordered (lighterSlot slots)) (hget : slots[slot]? = some e)
    (hwrite : ∀ j, slots'[j]? = if slot = j then slots[j]?.map change else slots[j]?)
    (hheavier : e.weight ≤ (change e).weight) :
    (heap.siftDown (lighterSlot slots') (heap.positionOf slot)).Ordered (lighterSlot slots') := by
  have hslot : slot < slots.size := (Array.getElem?_eq_some_iff.mp hget).choose
  have hsize := hc.size_eq
  have hplace : heap.positionOf slot < slots.size := hc.positionOf_lt slot hslot
  have hat : heap.slotAt (heap.positionOf slot) = slot := hc.slotAt_positionOf slot hslot
  have hsame : ∀ s, s ≠ slot → slots'.getD s default = slots.getD s default := by
    intro s hs
    rw [Array.getD_eq_getD_getElem?, Array.getD_eq_getD_getElem?, hwrite, if_neg (Ne.symm hs)]
  have hrises : (slots.getD slot default).weight ≤ (slots'.getD slot default).weight := by
    rw [Array.getD_eq_getD_getElem?, Array.getD_eq_getD_getElem?, hwrite, if_pos rfl, hget]
    exact hheavier
  have helsewhere : ∀ p < slots.size, p ≠ heap.positionOf slot → heap.slotAt p ≠ slot := by
    intro p hp hne heq
    exact hne (hc.slotAt_inj hp hplace (heq.trans hat.symm))
  refine SlotHeap.ordered_siftDown (weakOrder_lighterSlot slots') ⟨?_, ?_⟩
  · intro p hp0 hp _ hparent
    have hpp := SlotHeap.parent_lt hp0
    have hsettled := lighterSlot_eq_false_iff.mp (ho p hp0 hp)
    refine lighterSlot_eq_false_iff.mpr ?_
    rw [hsame _ (helsewhere _ (by omega) hparent)]
    by_cases hps : heap.slotAt p = slot
    · rw [hps] at hsettled ⊢
      exact le_trans hsettled hrises
    · rw [hsame _ hps]
      exact hsettled
  · -- the children and the parent stand elsewhere, so the old order compares them
    intro hp0 _ q hq0 hq hchild
    have hqq := SlotHeap.parent_lt hq0
    have hpp := SlotHeap.parent_lt hp0
    have hlower := ho q hq0 hq
    have hupper := ho (heap.positionOf slot) hp0 (by omega)
    unfold Settled at hlower hupper
    rw [hchild] at hlower
    refine lighterSlot_eq_false_iff.mpr ?_
    rw [hsame _ (helsewhere q (by omega) (by omega)),
      hsame _ (helsewhere (SlotHeap.parent (heap.positionOf slot)) (by omega) (by omega))]
    exact lighterSlot_eq_false_iff.mp ((weakOrder_lighterSlot slots).trans hupper hlower)

namespace Leaderboard

/-! ### Well-formed leaderboards -/

/-- What a leaderboard lists, without the machinery. -/
def roster (b : Leaderboard) : Roster where
  capacity := b.capacity
  entries := b.slots.toList
  nextSeq := b.nextSeq

/-- The machinery fits the entries, and the entries are in order. -/
structure WellFormed (b : Leaderboard) : Prop where
  /-- The heap arranges exactly the slots. -/
  consistent : b.heap.Consistent b.slots.size
  /-- No slot is lighter than the slot above it. -/
  ordered : b.heap.Ordered (lighterSlot b.slots)
  /-- The index sends the key of every slot to that slot, and knows no other key. -/
  index_iff : ∀ key slot, b.index[key]? = some slot ↔ b.slots[slot]?.map Entry.key = some key
  /-- The entries form a legal roster. -/
  legal : b.roster.Legal

theorem entry_of_getElem? {b : Leaderboard} {slot : Nat} {e : Entry} (h : b.slots[slot]? = some e) :
    b.entry slot = e := by
  simp [entry, h]

theorem wellFormed_empty (capacity : Nat) : (empty capacity).WellFormed where
  consistent := .empty
  ordered := fun p _ hp => absurd hp (Nat.not_lt_zero p)
  index_iff := by
    intro key slot
    simp [empty]
  legal := Roster.legal_empty capacity

namespace WellFormed

variable {b : Leaderboard}

/-- Every slot has its entry, which is on the roster. -/
theorem entry_mem (_hb : b.WellFormed) {slot : Nat} (hslot : slot < b.slots.size) :
    b.slots[slot]? = some (b.entry slot) ∧ b.entry slot ∈ b.roster.entries := by
  have hget : b.slots[slot]? = some b.slots[slot] := Array.getElem?_eq_getElem hslot
  have hentry : b.entry slot = b.slots[slot] := entry_of_getElem? hget
  refine ⟨by rw [hentry, hget], ?_⟩
  rw [hentry]
  exact Array.getElem_mem_toList hslot

/-- The slot that the index names holds the entry that a search for the key finds. -/
theorem find?_of_index (hb : b.WellFormed) {key : Key} {slot : Nat}
    (h : b.index[key]? = some slot) :
    slot < b.slots.size ∧ (b.entry slot).key = key ∧
      b.roster.find? key = some (b.entry slot) := by
  obtain ⟨e, hget, hkey⟩ := Option.map_eq_some_iff.mp ((hb.index_iff key slot).mp h)
  have hslot : slot < b.slots.size := (Array.getElem?_eq_some_iff.mp hget).choose
  have hentry : b.entry slot = e := entry_of_getElem? hget
  have hmem : e ∈ b.roster.entries := hentry ▸ (hb.entry_mem hslot).2
  refine ⟨hslot, by rw [hentry, hkey], ?_⟩
  cases hfind : b.roster.find? key with
  | none => exact absurd hkey (Roster.Legal.find?_eq_none_iff.mp hfind e hmem)
  | some found =>
      obtain ⟨hfoundMem, hfound⟩ := Roster.Legal.mem_of_find? hfind
      rw [hentry, hb.legal.key_inj hfoundMem hmem (hfound.trans hkey.symm)]

/-- A key that the index does not know is not listed. -/
theorem find?_of_index_none (hb : b.WellFormed) {key : Key} (h : b.index[key]? = none) :
    b.roster.find? key = none := by
  rw [Roster.Legal.find?_eq_none_iff]
  intro e he hkey
  obtain ⟨slot, hslot⟩ := List.mem_iff_getElem?.mp he
  have hget : b.slots[slot]? = some e := by
    rw [← Array.getElem?_toList]
    exact hslot
  have hsome := (hb.index_iff key slot).mpr (by rw [hget, Option.map_some, hkey])
  rw [h] at hsome
  cases hsome

/-- Only its own slot holds an entry. -/
theorem slot_unique (hb : b.WellFormed) {i j : Nat} {key : Key}
    (hi : b.slots[i]?.map Entry.key = some key) (hj : b.slots[j]?.map Entry.key = some key) :
    i = j := by
  have h1 := (hb.index_iff key i).mpr hi
  have h2 := (hb.index_iff key j).mpr hj
  rw [h1] at h2
  exact Option.some.inj h2

/-- The slot on top of the heap holds the lightest entry of the roster. -/
theorem lightest?_roster (hb : b.WellFormed) :
    b.roster.lightest? = b.heap.lightest?.map b.entry := by
  cases hleast : b.heap.lightest? with
  | none =>
      have hzero : b.slots.size = 0 := by
        by_contra hne
        rw [SlotHeap.lightest?_eq hb.consistent hne] at hleast
        cases hleast
      have hnil : b.roster.entries = [] := by
        rw [roster, List.eq_nil_iff_length_eq_zero, Array.length_toList, hzero]
      simp [Roster.lightest?, hnil]
  | some slot =>
      obtain ⟨hslot, hmin⟩ :=
        SlotHeap.lighter_lightest (weakOrder_lighterSlot b.slots) hb.consistent hb.ordered hleast
      refine hb.legal.lightest?_eq (hb.entry_mem hslot).2 fun a ha => ?_
      obtain ⟨s, hs⟩ := List.mem_iff_getElem?.mp ha
      have hget : b.slots[s]? = some a := by
        rw [← Array.getElem?_toList]
        exact hs
      have hslt : s < b.slots.size := (Array.getElem?_eq_some_iff.mp hget).choose
      have hle := lighterSlot_eq_false_iff.mp (hmin s hslt)
      change (b.entry slot).weight ≤ (b.entry s).weight at hle
      rwa [entry_of_getElem? hget] at hle

/-! ### A larger estimate -/

theorem getElem?_raise (slot : Nat) (estimate : UInt64) (j : Nat) :
    (b.raise slot estimate).slots[j]? =
      if slot = j then b.slots[j]?.map fun e => { e with estimate } else b.slots[j]? :=
  Array.getElem?_modify

/-- Raising the slot of a key raises the entry with that key. -/
theorem roster_raise (hb : b.WellFormed) {key : Key} {slot : Nat} (h : b.index[key]? = some slot)
    (estimate : UInt64) :
    (b.raise slot estimate).roster =
      { b.roster with
        entries := b.roster.entries.map fun e => if e.key = key then { e with estimate } else e } := by
  have hslot := (hb.index_iff key slot).mp h
  have hentries : (b.raise slot estimate).slots.toList =
      b.slots.toList.map fun e => if e.key = key then { e with estimate } else e := by
    refine toList_eq_map_of_write (getElem?_raise slot estimate) fun j e hj => ?_
    constructor
    · intro hkey
      exact hb.slot_unique hslot (by rw [hj, Option.map_some, hkey])
    · rintro rfl
      rw [hj] at hslot
      exact Option.some.inj hslot
  change Roster.mk _ _ _ = Roster.mk _ _ _
  rw [hentries]
  rfl

/-- A larger estimate leaves the keys where they are. -/
theorem index_raise (hb : b.WellFormed) (slot : Nat) (estimate : UInt64) (key : Key) (j : Nat) :
    (b.raise slot estimate).index[key]? = some j ↔
      (b.raise slot estimate).slots[j]?.map Entry.key = some key := by
  have hkeys : (b.raise slot estimate).slots[j]?.map Entry.key = b.slots[j]?.map Entry.key := by
    rw [getElem?_raise]
    split
    · rw [Option.map_map]
      rfl
    · rfl
  rw [hkeys]
  exact hb.index_iff key j

theorem raise (hb : b.WellFormed) {key : Key} {slot : Nat} (h : b.index[key]? = some slot)
    {estimate : UInt64} (hlt : (b.entry slot).estimate < estimate) :
    (b.raise slot estimate).WellFormed := by
  obtain ⟨hslot, hkey, -⟩ := hb.find?_of_index h
  have hget := (hb.entry_mem hslot).1
  have hsize : (b.raise slot estimate).slots.size = b.slots.size := by simp [Leaderboard.raise]
  refine ⟨?_, ?_, hb.index_raise slot estimate, ?_⟩
  · rw [hsize]
    exact SlotHeap.consistent_siftDown hb.consistent
  · exact ordered_siftDown_of_heavier hb.consistent hb.ordered hget (getElem?_raise slot estimate)
      (le_of_lt (Entry.weight_lt_of_estimate hlt))
  · rw [hb.roster_raise h]
    refine hb.legal.raise fun hzero => ?_
    rw [hzero] at hlt
    exact UInt64.not_lt_zero hlt

/-! ### A further entry -/

theorem roster_enlist (key : Key) (estimate : UInt64) :
    (b.enlist key estimate).roster =
      { b.roster with
        entries := b.roster.entries ++ [b.roster.newcomer key estimate]
        nextSeq := b.roster.nextSeq + 1 } := by
  simp [roster, enlist, Roster.newcomer]

/-- The new key is sent to the new slot. -/
theorem index_enlist (hb : b.WellFormed) {key : Key} (h : b.index[key]? = none)
    (estimate : UInt64) (key' : Key) (j : Nat) :
    (b.enlist key estimate).index[key']? = some j ↔
      (b.enlist key estimate).slots[j]?.map Entry.key = some key' := by
  have hkeys : (b.enlist key estimate).slots[j]?.map Entry.key =
      if j = b.slots.size then some key else b.slots[j]?.map Entry.key := by
    simp only [Leaderboard.enlist, Array.getElem?_push]
    split <;> rfl
  have hindex : (b.enlist key estimate).index[key']? =
      if key = key' then some b.slots.size else b.index[key']? := by
    simp [Leaderboard.enlist, Std.TreeMap.getElem?_insert]
  rw [hindex, hkeys]
  by_cases hkey : key = key'
  · subst hkey
    rw [if_pos rfl]
    by_cases hj : j = b.slots.size
    · rw [if_pos hj, hj]
      exact ⟨fun _ => rfl, fun _ => rfl⟩
    · -- no older slot holds the new key, since the index did not know it
      rw [if_neg hj, ← hb.index_iff, h, Option.some_inj]
      constructor
      · intro heq
        exact absurd heq.symm hj
      · intro hnone
        cases hnone
  · rw [if_neg hkey]
    by_cases hj : j = b.slots.size
    · rw [if_pos hj, Option.some_inj, hb.index_iff, hj, Array.getElem?_eq_none (le_refl _)]
      exact ⟨fun hnone => absurd hnone (by simp), fun heq => absurd heq hkey⟩
    · rw [if_neg hj]
      exact hb.index_iff key' j

/-- The old slots compare as before, so only the new one has to find its place. -/
theorem ordered_enlist (hb : b.WellFormed) (key : Key) (estimate : UInt64) :
    (b.enlist key estimate).heap.Ordered (lighterSlot (b.enlist key estimate).slots) := by
  refine SlotHeap.ordered_push (weakOrder_lighterSlot _) fun p hp0 hp => ?_
  have hps := hb.consistent.size_eq
  have hpp := SlotHeap.parent_lt hp0
  have hold : ∀ s < b.slots.size,
      (b.enlist key estimate).slots.getD s default = b.slots.getD s default := by
    intro s hs
    have hne : s ≠ b.slots.size := Nat.ne_of_lt hs
    simp [Leaderboard.enlist, Array.getElem?_push, hne]
  have hp' := hb.consistent.slotAt_lt p (by omega)
  have hq' := hb.consistent.slotAt_lt (SlotHeap.parent p) (by omega)
  refine lighterSlot_eq_false_iff.mpr ?_
  rw [hold _ hp', hold _ hq']
  exact lighterSlot_eq_false_iff.mp (hb.ordered p hp0 hp)

theorem enlist (hb : b.WellFormed) {key : Key} {estimate : UInt64} (h : b.index[key]? = none)
    (hpos : estimate ≠ 0) (hroom : b.slots.size < b.capacity) :
    (b.enlist key estimate).WellFormed := by
  have hsize : (b.enlist key estimate).slots.size = b.slots.size + 1 := by
    simp [Leaderboard.enlist]
  refine ⟨?_, hb.ordered_enlist key estimate, hb.index_enlist h estimate, ?_⟩
  · rw [hsize]
    exact SlotHeap.consistent_push hb.consistent
  · rw [roster_enlist]
    exact hb.legal.append hpos (hb.find?_of_index_none h) hroom

/-! ### An entry in the place of another one -/

theorem getElem?_displace (slot : Nat) (key : Key) (estimate : UInt64) (j : Nat) :
    (b.displace slot key estimate).slots[j]? =
      if slot = j then b.slots[j]?.map fun _ => b.roster.newcomer key estimate
      else b.slots[j]? :=
  getElem?_setIfInBounds_eq_map b.slots slot _ j

/-- Displacing a slot puts the newcomer in the place of the entry that the slot held. -/
theorem roster_displace (hb : b.WellFormed) {slot : Nat} (hslot : slot < b.slots.size) (key : Key)
    (estimate : UInt64) :
    (b.displace slot key estimate).roster =
      { b.roster with
        entries := b.roster.entries.map fun e =>
          if e = b.entry slot then b.roster.newcomer key estimate else e
        nextSeq := b.roster.nextSeq + 1 } := by
  have hget := (hb.entry_mem hslot).1
  have hentries : (b.displace slot key estimate).slots.toList =
      b.slots.toList.map fun e =>
        if e = b.entry slot then b.roster.newcomer key estimate else e := by
    refine toList_eq_map_of_write (getElem?_displace slot key estimate) fun j e hj => ?_
    constructor
    · rintro rfl
      exact hb.slot_unique (by rw [hget, Option.map_some]) (by rw [hj, Option.map_some])
    · rintro rfl
      rw [hget] at hj
      exact (Option.some.inj hj).symm
  change Roster.mk _ _ _ = Roster.mk _ _ _
  rw [hentries]
  rfl

/-- The new key takes over the slot, and the index forgets the key that had it. -/
theorem index_displace (hb : b.WellFormed) {slot : Nat} (hslot : slot < b.slots.size) {key : Key}
    (h : b.index[key]? = none) (estimate : UInt64) (key' : Key) (j : Nat) :
    (b.displace slot key estimate).index[key']? = some j ↔
      (b.displace slot key estimate).slots[j]?.map Entry.key = some key' := by
  have hget := (hb.entry_mem hslot).1
  have hold : b.slots[slot]?.map Entry.key = some (b.entry slot).key := by
    rw [hget, Option.map_some]
  have hkeys : (b.displace slot key estimate).slots[j]?.map Entry.key =
      if slot = j then some key else b.slots[j]?.map Entry.key := by
    rw [getElem?_displace]
    split
    · rename_i hj
      rw [← hj, hget]
      rfl
    · rfl
  have hindex : (b.displace slot key estimate).index[key']? =
      if key = key' then some slot
      else if (b.entry slot).key = key' then none else b.index[key']? := by
    simp [Leaderboard.displace, Std.TreeMap.getElem?_insert, Std.TreeMap.getElem?_erase]
  rw [hindex, hkeys]
  by_cases hkey : key = key'
  · subst hkey
    rw [if_pos rfl]
    by_cases hj : slot = j
    · rw [if_pos hj, hj]
      exact ⟨fun _ => rfl, fun _ => rfl⟩
    · rw [if_neg hj, ← hb.index_iff, h, Option.some_inj]
      exact ⟨fun heq => absurd heq hj, fun hnone => absurd hnone (by simp)⟩
  · rw [if_neg hkey]
    by_cases hj : slot = j
    · -- only the key that is erased was sent to this slot
      rw [if_pos hj, Option.some_inj, ← hj]
      refine ⟨fun hsome => ?_, fun heq => absurd heq hkey⟩
      split at hsome
      · cases hsome
      · rename_i hne
        rw [hb.index_iff, hold, Option.some_inj] at hsome
        exact absurd hsome hne
    · rw [if_neg hj]
      split
      · rename_i hold'
        refine ⟨fun hnone => absurd hnone (by simp), fun hsome => ?_⟩
        rw [← hold'] at hsome
        exact absurd (hb.slot_unique hold hsome) hj
      · exact hb.index_iff key' j

theorem displace (hb : b.WellFormed) {slot : Nat} {key : Key} {estimate : UInt64}
    (htop : b.heap.lightest? = some slot) (h : b.index[key]? = none)
    (hlt : (b.entry slot).estimate < estimate) :
    (b.displace slot key estimate).WellFormed := by
  have hslot : slot < b.slots.size :=
    (SlotHeap.lighter_lightest (weakOrder_lighterSlot b.slots) hb.consistent hb.ordered htop).1
  have hget := (hb.entry_mem hslot).1
  have hsize : (b.displace slot key estimate).slots.size = b.slots.size := by
    simp [Leaderboard.displace]
  refine ⟨?_, ?_, hb.index_displace hslot h estimate, ?_⟩
  · rw [hsize]
    exact SlotHeap.consistent_siftDown hb.consistent
  · -- the slot on top is noted at position zero, which is where the sift starts
    have hzero : b.heap.positionOf slot = 0 := by
      have hne : b.slots.size ≠ 0 := by omega
      rw [SlotHeap.lightest?_eq hb.consistent hne, Option.some_inj] at htop
      rw [← htop]
      exact hb.consistent.positionOf_slotAt 0 (by omega)
    have hordered := ordered_siftDown_of_heavier hb.consistent hb.ordered hget
      (getElem?_displace slot key estimate) (le_of_lt (Entry.weight_lt_of_estimate hlt))
    rw [hzero] at hordered
    exact hordered
  · rw [hb.roster_displace hslot]
    refine hb.legal.replace (fun hzero => ?_) (hb.find?_of_index_none h)
    rw [hzero] at hlt
    exact UInt64.not_lt_zero hlt

/-! ### Scaling -/

theorem filterMap_survivor? (scale : UInt64 → UInt64) (entries : List Entry) :
    entries.filterMap (survivor? scale) =
      (entries.map fun e => { e with estimate := scale e.estimate }).filter
        fun e => e.estimate ≠ 0 := by
  induction entries with
  | nil => rfl
  | cons e rest ih =>
      by_cases hzero : scale e.estimate = 0
      · simp [survivor?, hzero, ih]
      · simp [survivor?, hzero, ih]

/-- What survives a scaling is what the roster keeps. -/
theorem roster_decay (scale : UInt64 → UInt64) : (b.decay scale).roster = b.roster.decay scale := by
  change Roster.mk _ _ _ = Roster.mk _ _ _
  simp only [Leaderboard.decay, Array.toList_filterMap, filterMap_survivor?]
  rfl

/-- The index of an arena of slots with distinct keys. -/
theorem getElem?_indexOf {slots : Array Entry} (hnodup : (slots.toList.map Entry.key).Nodup)
    (key : Key) (slot : Nat) :
    (indexOf slots)[key]? = some slot ↔ slots[slot]?.map Entry.key = some key := by
  have hfst : (slots.toList.zipIdx.map fun x => (x.1.key, x.2)).map Prod.fst =
      slots.toList.map Entry.key := by
    conv_rhs => rw [← List.zipIdx_map_fst 0 slots.toList, List.map_map]
    rw [List.map_map]
    rfl
  have hdistinct : (slots.toList.zipIdx.map fun x => (x.1.key, x.2)).Pairwise
      fun x y => ¬ compare x.1 y.1 = .eq := by
    rw [← hfst, List.nodup_iff_pairwise_ne, List.pairwise_map] at hnodup
    exact hnodup.imp fun hne heq => hne (Std.LawfulEqCmp.eq_of_compare heq)
  -- every pair of the list survives in the map, since no two have the same key
  have hof : ∀ (j : Nat) (e : Entry), slots[j]? = some e → (indexOf slots)[e.key]? = some j := by
    intro j e hj
    refine Std.TreeMap.getElem?_ofList_of_mem Std.ReflCmp.compare_self hdistinct ?_
    rw [← Array.getElem?_toList] at hj
    exact List.mem_map.mpr ⟨(e, j), List.mem_zipIdx_iff_getElem?.mpr hj, rfl⟩
  constructor
  · intro hsome
    by_cases hlisted : key ∈ slots.toList.map Entry.key
    · obtain ⟨e, he, rfl⟩ := List.mem_map.mp hlisted
      obtain ⟨j, hj⟩ := List.mem_iff_getElem?.mp he
      rw [Array.getElem?_toList] at hj
      have hslot := hof j e hj
      rw [hsome, Option.some_inj] at hslot
      rw [hslot, hj, Option.map_some]
    · have hnone : (indexOf slots)[key]? = none := by
        refine Std.TreeMap.getElem?_ofList_of_contains_eq_false ?_
        have hmem : key ∉ (slots.toList.zipIdx.map fun x => (x.1.key, x.2)).map Prod.fst :=
          hfst ▸ hlisted
        simpa using hmem
      rw [hnone] at hsome
      cases hsome
  · intro hkey
    obtain ⟨e, hj, rfl⟩ := Option.map_eq_some_iff.mp hkey
    exact hof slot e hj

theorem decay (hb : b.WellFormed) (scale : UInt64 → UInt64) : (b.decay scale).WellFormed := by
  have hlegal : (b.decay scale).roster.Legal := by
    rw [roster_decay]
    exact hb.legal.decay scale
  refine ⟨?_, ?_, ?_, hlegal⟩
  · exact SlotHeap.consistent_build _ _
  · exact SlotHeap.ordered_build (weakOrder_lighterSlot _) _
  · exact getElem?_indexOf hlegal.keys_nodup

/-- The count of the entries that leave. -/
theorem droppedBy_eq (scale : UInt64 → UInt64) :
    b.droppedBy scale = b.roster.entries.length - (b.roster.decay scale).entries.length := by
  have hkept : (b.roster.decay scale).entries = b.slots.toList.filterMap (survivor? scale) :=
    (filterMap_survivor? scale b.slots.toList).symm
  have hsplit := List.length_eq_countP_add_countP (fun e => (survivor? scale e).isSome)
    (l := b.slots.toList)
  rw [hkept, List.length_filterMap_eq_countP, roster, hsplit, Nat.add_sub_cancel_left,
    Leaderboard.droppedBy, ← Array.countP_toList]
  congr 1
  funext e
  cases survivor? scale e <;> rfl

end WellFormed

end Leaderboard

end FlowSketch
