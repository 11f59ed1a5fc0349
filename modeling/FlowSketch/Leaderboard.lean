import FlowSketch.Bytes
import FlowSketch.SlotHeap
import Std.Data.TreeMap

/-!
# FlowSketch.Leaderboard

**The heaviest keys seen.** A leaderboard holds at most `capacity` keys with their best known
estimates. A listed key only moves up; an unlisted one gets in while there is room, or in the place
of the lightest entry if it is strictly heavier. Entries of one estimate are ordered by age: the
most recently admitted ranks highest, and the oldest leaves first. Age is the number an entry
received when its key was admitted.

Entries stand in slots. A side index finds the slot of a key, and a heap over the slots finds the
lightest entry. The ranking is the slots' entries, each inserted at its rank, heaviest first.
-/

namespace FlowSketch

/-- A listed key. -/
structure Entry where
  key : Key
  estimate : UInt64
  /-- The number of admissions before this one. -/
  seq : Nat
deriving DecidableEq, Repr, Inhabited

namespace Entry

/-- Does an entry rank below another one? By estimate, then by age. -/
def lighter (a b : Entry) : Bool :=
  a.estimate < b.estimate || (a.estimate == b.estimate && a.seq < b.seq)

/-- May an entry stand before another one in the ranking? -/
def ranksBefore (a b : Entry) : Bool :=
  !a.lighter b

/-- What the ranking shows of an entry. -/
def listed (e : Entry) : Key × UInt64 :=
  (e.key, e.estimate)

/-! ### The order of the ranking -/

theorem lighter_iff {a b : Entry} :
    a.lighter b = true ↔ a.estimate < b.estimate ∨ a.estimate = b.estimate ∧ a.seq < b.seq := by
  simp [lighter]

theorem ranksBefore_iff {a b : Entry} : a.ranksBefore b = true ↔ ¬ a.lighter b = true := by
  simp [ranksBefore]

/-- Of two entries one may stand before the other. -/
theorem ranksBefore_total (a b : Entry) : a.ranksBefore b = true ∨ b.ranksBefore a = true := by
  rw [ranksBefore_iff, ranksBefore_iff, lighter_iff, lighter_iff, UInt64.lt_iff_toNat_lt,
    UInt64.lt_iff_toNat_lt, ← UInt64.toNat_inj, ← UInt64.toNat_inj]
  omega

theorem ranksBefore_trans {a b c : Entry} (hab : a.ranksBefore b = true)
    (hbc : b.ranksBefore c = true) : a.ranksBefore c = true := by
  rw [ranksBefore_iff, lighter_iff, UInt64.lt_iff_toNat_lt, ← UInt64.toNat_inj] at *
  omega

/-- A list of ranked entries with one more at its rank. -/
def insertRanked (e : Entry) : List Entry → List Entry
  | [] => [e]
  | first :: rest =>
    if e.ranksBefore first then e :: first :: rest else first :: insertRanked e rest

/-- Entries in the order of the ranking, heaviest first. -/
def rank (entries : List Entry) : List Entry :=
  entries.foldr insertRanked []

theorem insertRanked_perm (e : Entry) (entries : List Entry) :
    (insertRanked e entries).Perm (e :: entries) := by
  induction entries with
  | nil => exact .refl _
  | cons first rest ih =>
      unfold insertRanked
      split
      · exact .refl _
      · exact (ih.cons first).trans (.swap e first rest)

/-- Ranking neither loses nor invents an entry. -/
theorem rank_perm (entries : List Entry) : (rank entries).Perm entries := by
  induction entries with
  | nil => exact .refl _
  | cons e rest ih => exact (insertRanked_perm e (rank rest)).trans (ih.cons e)

theorem pairwise_insertRanked {e : Entry} {entries : List Entry}
    (h : entries.Pairwise fun a b => a.ranksBefore b = true) :
    (insertRanked e entries).Pairwise fun a b => a.ranksBefore b = true := by
  induction entries with
  | nil => simp [insertRanked]
  | cons first rest ih =>
      obtain ⟨hfirst, hrest⟩ := List.pairwise_cons.mp h
      unfold insertRanked
      split
      · rename_i hbefore
        refine List.pairwise_cons.mpr ⟨fun b hb => ?_, h⟩
        rcases List.mem_cons.mp hb with rfl | hb
        · exact hbefore
        · exact ranksBefore_trans hbefore (hfirst b hb)
      · rename_i hnot
        refine List.pairwise_cons.mpr ⟨fun b hb => ?_, ih hrest⟩
        rcases List.mem_cons.mp ((insertRanked_perm e rest).mem_iff.mp hb) with rfl | hb
        · exact (ranksBefore_total b first).resolve_left hnot
        · exact hfirst b hb

/-- In a ranking every entry may stand before all that follow it. -/
theorem pairwise_rank (entries : List Entry) :
    (rank entries).Pairwise fun a b => a.ranksBefore b = true := by
  induction entries with
  | nil => exact List.Pairwise.nil
  | cons e rest ih => exact pairwise_insertRanked ih

end Entry

/-- The order of the entries in an arena of slots, as a test on slot numbers. -/
def lighterSlot (slots : Array Entry) (a b : Nat) : Bool :=
  (slots.getD a default).lighter (slots.getD b default)

/-- A bounded list of the heaviest keys. -/
structure Leaderboard where
  capacity : Nat
  /-- The entries, in no particular order. -/
  slots : Array Entry
  /-- The slots with the lightest on top. -/
  heap : SlotHeap
  /-- The slot of each listed key. -/
  index : Std.TreeMap Key Nat
  /-- The number of admissions so far. -/
  nextSeq : Nat

/-- What came of offering a key. -/
inductive Response where
  /-- Nothing changed. -/
  | ignored
  /-- The key was listed and its estimate went up. -/
  | raised
  /-- The key took a free slot. -/
  | admitted
  /-- The key took the slot of another one, which is named with its last estimate. -/
  | displaced (key : Key) (estimate : UInt64)
deriving DecidableEq, Repr, Inhabited

namespace Leaderboard

/-- The leaderboard without entries. -/
def empty (capacity : Nat) : Leaderboard where
  capacity := capacity
  slots := #[]
  heap := .empty
  index := ∅
  nextSeq := 0

instance : Inhabited Leaderboard := ⟨empty 0⟩

/-! ### Queries -/

/-- The number of listed keys. -/
def size (b : Leaderboard) : Nat := b.slots.size

/-- Is no key listed? -/
def isEmpty (b : Leaderboard) : Bool := b.slots.isEmpty

/-- Is a key listed? -/
def contains (b : Leaderboard) (key : Key) : Bool := b.index.contains key

/-- The entry in a slot. -/
def entry (b : Leaderboard) (slot : Nat) : Entry := b.slots.getD slot default

/-- The estimate of a listed key. -/
def get? (b : Leaderboard) (key : Key) : Option UInt64 :=
  b.index[key]?.map fun slot => (b.entry slot).estimate

/-- The least listed estimate. -/
def minEstimate? (b : Leaderboard) : Option UInt64 :=
  b.heap.lightest?.map fun slot => (b.entry slot).estimate

/-- The entries, heaviest first and among equals the most recently admitted first. -/
def rankedEntries (b : Leaderboard) : List Entry :=
  Entry.rank b.slots.toList

/-- The listed keys with their estimates, in the order of the ranking. -/
def ranking (b : Leaderboard) : List (Key × UInt64) :=
  b.rankedEntries.map Entry.listed

/-! ### Offers -/

/-- The key in a slot is given a larger estimate. -/
def raise (b : Leaderboard) (slot : Nat) (estimate : UInt64) : Leaderboard :=
  let slots := b.slots.modify slot fun e => { e with estimate }
  { b with slots, heap := b.heap.siftDown (lighterSlot slots) (b.heap.positionOf slot) }

/-- A key takes a slot of its own. -/
def enlist (b : Leaderboard) (key : Key) (estimate : UInt64) : Leaderboard :=
  let slot := b.slots.size
  let slots := b.slots.push { key, estimate, seq := b.nextSeq }
  { b with
    slots
    heap := b.heap.push (lighterSlot slots)
    index := b.index.insert key slot
    nextSeq := b.nextSeq + 1 }

/-- A key takes the slot of the lightest entry. -/
def displace (b : Leaderboard) (slot : Nat) (key : Key) (estimate : UInt64) : Leaderboard :=
  let old := (b.entry slot).key
  let slots := b.slots.setIfInBounds slot { key, estimate, seq := b.nextSeq }
  { b with
    slots
    heap := b.heap.siftDown (lighterSlot slots) 0
    index := (b.index.erase old).insert key slot
    nextSeq := b.nextSeq + 1 }

/-- A key is considered with a freshly observed estimate. -/
def offer (b : Leaderboard) (key : Key) (estimate : UInt64) : Response × Leaderboard :=
  match b.index[key]? with
  | some slot =>
    if estimate ≤ (b.entry slot).estimate then (.ignored, b)
    else (.raised, b.raise slot estimate)
  | none =>
    if estimate = 0 then (.ignored, b)
    else if b.slots.size < b.capacity then (.admitted, b.enlist key estimate)
    else
      match b.heap.lightest? with
      | none => (.ignored, b)
      | some slot =>
        let lightest := b.entry slot
        if estimate ≤ lightest.estimate then (.ignored, b)
        else (.displaced lightest.key lightest.estimate, b.displace slot key estimate)

/-- Several keys are offered in turn. -/
def offerAll (b : Leaderboard) (offers : List (Key × UInt64)) : Leaderboard :=
  offers.foldl (fun b offered => (b.offer offered.1 offered.2).2) b

/-! ### Decay -/

/-- An entry with its estimate scaled, unless nothing is left of it. -/
def survivor? (scale : UInt64 → UInt64) (e : Entry) : Option Entry :=
  let estimate := scale e.estimate
  if estimate = 0 then none else some { e with estimate }

/-- The slot of every key in an arena. -/
def indexOf (slots : Array Entry) : Std.TreeMap Key Nat :=
  Std.TreeMap.ofList (slots.toList.zipIdx.map fun (e, slot) => (e.key, slot))

/-- Every estimate scaled. Entries that keep nothing leave; the others keep their age. Scaling may
make estimates equal and so reorder entries by age, therefore the heap is built anew. -/
def decay (scale : UInt64 → UInt64) (b : Leaderboard) : Leaderboard :=
  let slots := b.slots.filterMap (survivor? scale)
  { b with
    slots
    heap := .build (lighterSlot slots) slots.size
    index := indexOf slots }

/-- The number of entries that a scaling makes leave. -/
def droppedBy (scale : UInt64 → UInt64) (b : Leaderboard) : Nat :=
  b.slots.countP fun e => (survivor? scale e).isNone

/-- The leaderboard as it was before the first admission. -/
def clear (b : Leaderboard) : Leaderboard :=
  empty b.capacity

end Leaderboard

end FlowSketch
