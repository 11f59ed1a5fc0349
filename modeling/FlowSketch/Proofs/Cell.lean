import FlowSketch.Collision
import FlowSketch.Shape

/-!
# FlowSketch.Proofs.Cell

**What can happen to a cell.** A cell of a sketch has an owner if and only if it has a count
(`Cell.Whole`), and recording, scaling and merging keep it so.

Whatever the random draws, a count that arrives at a cell has one of four effects (`Cell.Change`).
Everything said about recording is derived from these four and does not look at the erosion again.

In particular no effect makes counts out of nothing: if a cell is within a bound for each owner, then
it is within the bound that the count raises for its own key (`Change.within`).

Two whole cells merge to the same cell in either order, unless they have different owners with equal
counts (`Ties`): then the receiver stays the owner.
-/

namespace FlowSketch.Cell

/-- A cell has an owner if and only if it has a count. -/
def Whole (c : Cell) : Prop :=
  c.fingerprint = 0 ↔ c.counter = 0

instance (c : Cell) : Decidable c.Whole :=
  inferInstanceAs (Decidable (c.fingerprint = 0 ↔ c.counter = 0))

theorem whole_vacant : vacant.Whole := by decide

theorem whole_of_ne {fingerprint counter : UInt32} (hf : fingerprint ≠ 0) (hc : counter ≠ 0) :
    Whole ⟨fingerprint, counter⟩ :=
  ⟨fun h => absurd h hf, fun h => absurd h hc⟩

theorem counter_ne_zero {c : Cell} (h : c.isEmpty = false) : c.counter ≠ 0 := by
  intro hzero
  rw [(isEmpty_iff c).mpr hzero] at h
  cases h

/-- The owner of a whole cell with a count. -/
theorem Whole.fingerprint_ne_zero {c : Cell} (hc : c.Whole) (h : c.isEmpty = false) :
    c.fingerprint ≠ 0 :=
  fun hzero => counter_ne_zero h (hc.mp hzero)

theorem saturatingSum_ne_zero {a b : UInt32} (ha : a ≠ 0) : saturatingSum a b ≠ 0 := by
  intro h
  have hnat := congrArg UInt32.toNat h
  have hpos : a.toNat ≠ 0 := fun hzero => ha (UInt32.toNat_inj.mp hzero)
  rw [toNat_saturatingSum] at hnat
  change min _ _ = 0 at hnat
  omega

/-! ### Counts as counters -/

/-- A count as a counter, cut to the largest one. -/
def counterOf (n : Nat) : UInt32 :=
  UInt32.ofNat (min n maxWord32)

theorem toNat_counterOf (n : Nat) : (counterOf n).toNat = min n maxWord32 :=
  UInt32.toNat_ofNat_of_lt' (Nat.lt_succ_of_le (Nat.min_le_right n maxWord32))

@[simp] theorem counterOf_eq_zero_iff {n : Nat} : counterOf n = 0 ↔ n = 0 := by
  have hmax : maxWord32 = 4294967295 := rfl
  rw [← UInt32.toNat_inj, toNat_counterOf]
  change min n maxWord32 = 0 ↔ n = 0
  omega

/-- Cutting two counts and then their sum is cutting the sum. -/
theorem saturatingSum_counterOf (m n : Nat) :
    saturatingSum (counterOf m) (counterOf n) = counterOf (m + n) := by
  have hmax : maxWord32 = 4294967295 := rfl
  rw [← UInt32.toNat_inj, toNat_saturatingSum, toNat_counterOf, toNat_counterOf, toNat_counterOf]
  omega

/-! ### Receiving a count -/

/-- The effects that a count of the key with a fingerprint can have on a cell. -/
inductive Change (c : Cell) (fingerprint increment : UInt32) : Outcome → Cell → Prop where
  /-- An empty cell takes the count. -/
  | inserted : c.isEmpty = true → Change c fingerprint increment .inserted ⟨fingerprint, increment⟩
  /-- The key's own cell adds the count. -/
  | reinforced : c.isEmpty = false → c.fingerprint = fingerprint →
      Change c fingerprint increment .reinforced
        ⟨c.fingerprint, saturatingSum c.counter increment⟩
  /-- The cell of another key keeps its owner and part of its count. -/
  | decayed (left : UInt32) : c.isEmpty = false → c.fingerprint ≠ fingerprint → left ≠ 0 →
      left ≤ c.counter →
      Change c fingerprint increment (.decayed (c.counter.toNat - left.toNat)) ⟨c.fingerprint, left⟩
  /-- The cell of another key is lost to the newcomer. -/
  | replaced : c.isEmpty = false → c.fingerprint ≠ fingerprint →
      Change c fingerprint increment .replaced ⟨fingerprint, increment⟩

/-- Receiving a count has one of the four effects, for every source of gaps. -/
theorem change_receive {σ : Type} (gap : GapSource σ) (c : Cell) (fingerprint increment : UInt32)
    (s : σ) :
    c.Change fingerprint increment (c.receive gap fingerprint increment s).outcome
      (c.receive gap fingerprint increment s).cell := by
  unfold receive
  cases hempty : c.isEmpty with
  | true =>
      simp only [if_true]
      exact .inserted hempty
  | false =>
      simp only [Bool.false_eq_true, if_false]
      by_cases hown : c.fingerprint = fingerprint
      · rw [if_pos hown]
        exact .reinforced hempty hown
      · rw [if_neg hown]
        have hle := erode_le gap c.counter.toNat increment.toNat s
        split
        · exact .replaced hempty hown
        · -- what is left is not above the old count, so the cast to a word loses nothing
          rename_i left _ herode
          rw [herode] at hle
          have hlt := c.counter.toNat_lt
          have hleft : (UInt32.ofNat (left + 1)).toNat = left + 1 :=
            UInt32.toNat_ofNat_of_lt' (Nat.lt_of_le_of_lt hle hlt)
          have hne : UInt32.ofNat (left + 1) ≠ 0 := by
            intro hzero
            rw [hzero] at hleft
            cases hleft
          have hleftLe : UInt32.ofNat (left + 1) ≤ c.counter := by
            rw [UInt32.le_iff_toNat_le, hleft]
            exact hle
          have hchange : c.Change fingerprint increment _ _ :=
            .decayed _ hempty hown hne hleftLe
          rwa [hleft] at hchange

namespace Change

variable {c after : Cell} {fingerprint increment : UInt32} {outcome : Outcome}

/-- A cell that has received a count is not empty. -/
theorem counter_ne_zero (h : c.Change fingerprint increment outcome after) (hinc : increment ≠ 0) :
    after.counter ≠ 0 := by
  cases h with
  | inserted _ => exact hinc
  | reinforced hempty _ => exact saturatingSum_ne_zero (Cell.counter_ne_zero hempty)
  | decayed left _ _ hleft _ => exact hleft
  | replaced _ _ => exact hinc

theorem whole (h : c.Change fingerprint increment outcome after) (hc : c.Whole)
    (hfp : fingerprint ≠ 0) (hinc : increment ≠ 0) : after.Whole := by
  have hcounter := h.counter_ne_zero hinc
  cases h with
  | inserted _ => exact whole_of_ne hfp hinc
  | reinforced hempty _ => exact whole_of_ne (hc.fingerprint_ne_zero hempty) hcounter
  | decayed _ hempty _ _ _ => exact whole_of_ne (hc.fingerprint_ne_zero hempty) hcounter
  | replaced _ _ => exact whole_of_ne hfp hinc

end Change

/-! ### Reading -/

/-- A cell shows a count to the key that owns it, and only to that key. -/
theorem count?_read {c : Cell} {fingerprint n : UInt32} :
    (c.read fingerprint).count? = some n ↔
      c.isEmpty = false ∧ c.fingerprint = fingerprint ∧ c.counter = n := by
  unfold read
  cases hempty : c.isEmpty with
  | true => simp [Reading.count?]
  | false =>
      by_cases hown : c.fingerprint = fingerprint
      · simp [Reading.count?, hown]
      · simp [Reading.count?, hown]

/-! ### Scaling and merging -/

theorem Whole.attenuate {c : Cell} (hc : c.Whole) (scale : UInt64 → UInt64) :
    (c.attenuate scale).Whole := by
  unfold Cell.attenuate
  cases hempty : c.isEmpty with
  | true => exact hc
  | false =>
      simp only [Bool.false_eq_true, if_false]
      by_cases hzero : scaleCounter scale c.counter = 0
      · rw [if_pos hzero]
        exact whole_vacant
      · rw [if_neg hzero]
        exact whole_of_ne (hc.fingerprint_ne_zero hempty) hzero

theorem Whole.merge {mine theirs : Cell} (hmine : mine.Whole) (htheirs : theirs.Whole) :
    (mine.merge theirs).Whole := by
  unfold Cell.merge
  cases htheirEmpty : theirs.isEmpty with
  | true => exact hmine
  | false =>
      cases hmineEmpty : mine.isEmpty with
      | true => exact htheirs
      | false =>
          simp only [Bool.false_eq_true, if_false]
          by_cases hsame : mine.fingerprint = theirs.fingerprint
          · rw [if_pos hsame]
            exact whole_of_ne (hmine.fingerprint_ne_zero hmineEmpty)
              (saturatingSum_ne_zero (counter_ne_zero hmineEmpty))
          · rw [if_neg hsame]
            split
            · exact htheirs
            · exact hmine

/-- An empty whole cell is the vacant one. -/
theorem Whole.eq_vacant {c : Cell} (hc : c.Whole) (h : c.isEmpty = true) : c = vacant := by
  have hcounter := (isEmpty_iff c).mp h
  show Cell.mk c.fingerprint c.counter = vacant
  rw [hcounter, hc.mpr hcounter]
  rfl

theorem saturatingSum_comm (a b : UInt32) : saturatingSum a b = saturatingSum b a := by
  rw [saturatingSum, saturatingSum, Nat.add_comm]

/-- Do two different owners meet with equal counts? -/
def Ties (mine theirs : Cell) : Prop :=
  mine.isEmpty = false ∧ theirs.isEmpty = false ∧ mine.fingerprint ≠ theirs.fingerprint ∧
    mine.counter = theirs.counter

instance (mine theirs : Cell) : Decidable (mine.Ties theirs) :=
  inferInstanceAs (Decidable (_ ∧ _ ∧ _ ≠ _ ∧ _ = _))

/-- Only a tie looks at which cell is the receiver's. -/
theorem Whole.merge_comm {mine theirs : Cell} (hmine : mine.Whole) (htheirs : theirs.Whole)
    (h : ¬ mine.Ties theirs) : mine.merge theirs = theirs.merge mine := by
  cases hmineEmpty : mine.isEmpty with
  | true =>
      cases htheirEmpty : theirs.isEmpty with
      | true => rw [hmine.eq_vacant hmineEmpty, htheirs.eq_vacant htheirEmpty]
      | false => simp [Cell.merge, hmineEmpty, htheirEmpty]
  | false =>
      cases htheirEmpty : theirs.isEmpty with
      | true => simp [Cell.merge, hmineEmpty, htheirEmpty]
      | false =>
          simp only [Cell.merge, hmineEmpty, htheirEmpty, Bool.false_eq_true, if_false]
          by_cases hsame : mine.fingerprint = theirs.fingerprint
          · rw [if_pos hsame, if_pos hsame.symm, saturatingSum_comm, hsame]
          · rw [if_neg hsame, if_neg (Ne.symm hsame)]
            rcases UInt32.lt_or_lt_of_ne fun hcounter =>
              h ⟨hmineEmpty, htheirEmpty, hsame, hcounter⟩ with hlt | hlt
            · rw [if_pos hlt, if_neg (UInt32.lt_asymm hlt)]
            · rw [if_neg (UInt32.lt_asymm hlt), if_pos hlt]

/-! ### Bounds -/

/-- The count of a cell, if it has one, is at most what a bound grants to its owner. -/
def Within (c : Cell) (bound : UInt32 → Nat) : Prop :=
  c.isEmpty = false → c.counter.toNat ≤ bound c.fingerprint

theorem within_vacant (bound : UInt32 → Nat) : vacant.Within bound := by
  intro h
  cases h

theorem Within.mono {c : Cell} {bound bound' : UInt32 → Nat} (hc : c.Within bound)
    (h : ∀ f, bound f ≤ bound' f) : c.Within bound' :=
  fun hempty => Nat.le_trans (hc hempty) (h _)

/-- Whatever becomes of a count, the cell is within a bound that grants it to the key. The count
goes to the key as a whole, also where another key had lost its own. -/
theorem Change.within {c after : Cell} {fingerprint increment : UInt32} {outcome : Outcome}
    (h : c.Change fingerprint increment outcome after) {bound bound' : UInt32 → Nat}
    (hc : c.Within bound) (hle : ∀ f, bound f ≤ bound' f)
    (hgrant : bound fingerprint + increment.toNat ≤ bound' fingerprint) : after.Within bound' := by
  intro _
  cases h with
  | inserted _ => exact Nat.le_trans (Nat.le_add_left _ _) hgrant
  | reinforced hempty hown =>
      subst hown
      have hold := hc hempty
      show (saturatingSum c.counter increment).toNat ≤ bound' c.fingerprint
      rw [toNat_saturatingSum]
      omega
  | decayed left hempty _ _ hleft =>
      exact Nat.le_trans (UInt32.le_iff_toNat_le.mp hleft)
        (Nat.le_trans (hc hempty) (hle c.fingerprint))
  | replaced _ _ => exact Nat.le_trans (Nat.le_add_left _ _) hgrant

/-- A scaled counter is the scaled count, cut to the largest counter. -/
theorem toNat_scaleCounter (scale : UInt64 → UInt64) (counter : UInt32) :
    (scaleCounter scale counter).toNat = min (scale counter.toUInt64).toNat maxWord32 :=
  toNat_counterOf _

theorem toNat_scaleCounter_le {scale : UInt64 → UInt64} {counter : UInt32}
    (hscale : scale counter.toUInt64 ≤ counter.toUInt64) :
    (scaleCounter scale counter).toNat ≤ counter.toNat := by
  rw [UInt64.le_iff_toNat_le, UInt32.toNat_toUInt64] at hscale
  rw [toNat_scaleCounter]
  exact Nat.le_trans (Nat.min_le_left _ _) hscale

/-- Scaling that raises no count keeps a cell within its bound. -/
theorem Within.attenuate {c : Cell} {bound : UInt32 → Nat} (hc : c.Within bound)
    {scale : UInt64 → UInt64} (hscale : ∀ v, scale v ≤ v) : (c.attenuate scale).Within bound := by
  unfold Cell.attenuate
  cases hempty : c.isEmpty with
  | true => exact hc
  | false =>
      simp only [Bool.false_eq_true, if_false]
      by_cases hzero : scaleCounter scale c.counter = 0
      · rw [if_pos hzero]
        exact within_vacant bound
      · rw [if_neg hzero]
        intro _
        exact Nat.le_trans (toNat_scaleCounter_le (hscale _)) (hc hempty)

/-- Merged cells are within the sum of their bounds. -/
theorem Within.merge {mine theirs : Cell} {bound bound' : UInt32 → Nat}
    (hmine : mine.Within bound) (htheirs : theirs.Within bound') :
    (mine.merge theirs).Within fun f => bound f + bound' f := by
  have hmine' : mine.Within fun f => bound f + bound' f :=
    hmine.mono fun f => Nat.le_add_right _ _
  have htheirs' : theirs.Within fun f => bound f + bound' f :=
    htheirs.mono fun f => Nat.le_add_left _ _
  unfold Cell.merge
  cases htheirEmpty : theirs.isEmpty with
  | true => exact hmine'
  | false =>
      cases hmineEmpty : mine.isEmpty with
      | true => exact htheirs'
      | false =>
          simp only [Bool.false_eq_true, if_false]
          by_cases hsame : mine.fingerprint = theirs.fingerprint
          · rw [if_pos hsame]
            intro _
            have hleft := hmine hmineEmpty
            have hright := htheirs htheirEmpty
            rw [← hsame] at hright
            show (saturatingSum mine.counter theirs.counter).toNat ≤
              bound mine.fingerprint + bound' mine.fingerprint
            rw [toNat_saturatingSum]
            omega
          · rw [if_neg hsame]
            split
            · exact htheirs'
            · exact hmine'

end FlowSketch.Cell
