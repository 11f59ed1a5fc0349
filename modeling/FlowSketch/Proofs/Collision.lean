import FlowSketch.Proofs.Cell

/-!
# FlowSketch.Proofs.Collision

**The accounts of a collision.** At a cell of another key the newcomer spends its units in rounds. A
round draws a gap: if the units cover it, they are spent and the incumbent loses one of its own,
otherwise the newcomer gives up. `Erosion` is this loop as a relation, with the losses counted in a
column of their own. Every loop comes to an end (`erosion_erode`), and what `Cell.receive` reports is
what the loop counted (`erosion_receive`).

Nothing is lost or won besides: the losses and what is left add up to the old counter
(`Erosion.lost_add_left`). And since a gap is never empty, no more is lost than was spent
(`Erosion.lost_le`), so an incumbent gives way only to an increment that its counter does not exceed.
For the random gaps this is the one that every draw ends with, whatever the real functions make of
the rest of the formula (`positive_gapOf`).
-/

namespace FlowSketch

/-- Every gap takes at least one unit. -/
def GapSource.Positive {σ : Type} (gap : GapSource σ) : Prop :=
  ∀ counter s g t, gap counter s = (some g, t) → 1 ≤ g

/-- Random gaps take at least one unit, for every law of decay and all real functions. -/
theorem Numerics.positive_gapOf (num : Numerics) (probability : Nat → Float) :
    (num.gapOf probability).Positive := by
  intro counter s g t hgap
  unfold gapOf at hgap
  dsimp only at hgap
  split at hgap
  · cases hgap
    exact Nat.le_refl 1
  · split at hgap
    · cases hgap
    · cases hgap
      exact Nat.le_add_left 1 _

/-! ### The rounds -/

/-- A loop of rounds: from a counter, units and a state, the number of rounds that the units covered,
what is left of the counter, and the following state. -/
inductive Erosion {σ : Type} (gap : GapSource σ) : (counter units : Nat) → σ →
    (lost left : Nat) → σ → Prop where
  /-- The incumbent has nothing left. -/
  | out (units : Nat) (s : σ) : Erosion gap 0 units s 0 0 s
  /-- No number of units will do. -/
  | safe {n units : Nat} {s t : σ} : gap (n + 1) s = (none, t) →
      Erosion gap (n + 1) units s 0 (n + 1) t
  /-- The units do not reach to the next loss. -/
  | short {n units g : Nat} {s t : σ} : gap (n + 1) s = (some g, t) → units < g →
      Erosion gap (n + 1) units s 0 (n + 1) t
  /-- The gap is covered: one unit of the incumbent is lost, and the loop goes on. -/
  | loss {n units g lost left : Nat} {s t u : σ} : gap (n + 1) s = (some g, t) → g ≤ units →
      Erosion gap n (units - g) t lost left u → Erosion gap (n + 1) units s (lost + 1) left u

/-- The loop comes to an end, and leaves what `erode` says. -/
theorem erosion_erode {σ : Type} (gap : GapSource σ) (counter units : Nat) (s : σ) :
    ∃ lost, Erosion gap counter units s lost (erode gap counter units s).1
      (erode gap counter units s).2 := by
  induction counter generalizing units s with
  | zero => exact ⟨0, .out units s⟩
  | succ n ih =>
      unfold erode
      split
      · rename_i t hgap
        exact ⟨0, .safe hgap⟩
      · rename_i g t hgap
        split
        · rename_i hshort
          exact ⟨0, .short hgap hshort⟩
        · rename_i hcovered
          obtain ⟨lost, hrest⟩ := ih (units - g) t
          exact ⟨lost + 1, .loss hgap (Nat.le_of_not_lt hcovered) hrest⟩

namespace Erosion

variable {σ : Type} {gap : GapSource σ} {counter units lost left : Nat} {s t : σ}

/-- What the incumbent had, it has lost or has left. -/
theorem lost_add_left (h : Erosion gap counter units s lost left t) : lost + left = counter := by
  induction h with
  | out => rfl
  | safe => exact Nat.zero_add _
  | short => exact Nat.zero_add _
  | loss _ _ _ ih => omega

/-- Every loss has cost a unit. -/
theorem lost_le (hgap : gap.Positive) (h : Erosion gap counter units s lost left t) :
    lost ≤ units := by
  induction h with
  | out => exact Nat.zero_le _
  | safe => exact Nat.zero_le _
  | short => exact Nat.zero_le _
  | loss hdraw hcovered _ ih =>
      have hone := hgap _ _ _ _ hdraw
      omega

end Erosion

namespace Cell

variable {σ : Type} {gap : GapSource σ} {c : Cell} {fingerprint : UInt32}

/-- A cell of another key reports the losses that the loop counted, or that nothing is left. -/
theorem erosion_receive (gap : GapSource σ) (hempty : c.isEmpty = false)
    (hforeign : c.fingerprint ≠ fingerprint) (increment : UInt32) (s : σ) :
    ∃ lost left, Erosion gap c.counter.toNat increment.toNat s lost left
        (c.receive gap fingerprint increment s).state ∧
      (c.receive gap fingerprint increment s).outcome =
        (if left = 0 then .replaced else .decayed lost) ∧
      (c.receive gap fingerprint increment s).cell =
        if left = 0 then ⟨fingerprint, increment⟩ else ⟨c.fingerprint, UInt32.ofNat left⟩ := by
  obtain ⟨lost, herosion⟩ := erosion_erode gap c.counter.toNat increment.toNat s
  have hsum := herosion.lost_add_left
  unfold receive
  rw [hempty, if_neg Bool.false_ne_true, if_neg hforeign]
  generalize erode gap c.counter.toNat increment.toNat s = eroded at herosion hsum
  obtain ⟨left, t⟩ := eroded
  change lost + left = c.counter.toNat at hsum
  cases left with
  | zero => exact ⟨lost, 0, herosion, rfl, rfl⟩
  | succ left =>
      have hlost : c.counter.toNat - (left + 1) = lost := by omega
      refine ⟨lost, left + 1, herosion, ?_, ?_⟩
      · rw [if_neg (Nat.succ_ne_zero left)]
        exact congrArg Outcome.decayed hlost
      · rw [if_neg (Nat.succ_ne_zero left)]

/-! ### The accounts -/

/-- What a count makes of a cell that receives it: an empty cell takes it, the key's own cell adds it,
and any other cell stays with its owner, who has lost some units, or goes to the newcomer. -/
structure Accounts (c : Cell) (fingerprint increment : UInt32) (gap : GapSource σ) (s : σ)
    (received : Received σ) : Prop where
  counter_pos : 1 ≤ received.cell.counter.toNat
  inserted : received.outcome = .inserted ↔ c.isEmpty = true
  cell_inserted : c.isEmpty = true → received.cell = ⟨fingerprint, increment⟩
  reinforced : received.outcome = .reinforced ↔
    c.isEmpty = false ∧ c.fingerprint = fingerprint
  cell_reinforced : c.isEmpty = false → c.fingerprint = fingerprint →
    received.cell.fingerprint = fingerprint ∧
      received.cell.counter.toNat = min maxWord32 (c.counter.toNat + increment.toNat)
  /-- The loop of rounds ends, after no more of them than either side has units. -/
  ends : c.isEmpty = false → c.fingerprint ≠ fingerprint →
    ∃ lost left, Erosion gap c.counter.toNat increment.toNat s lost left received.state ∧
      lost ≤ c.counter.toNat ∧ lost ≤ increment.toNat
  contested : c.isEmpty = false → c.fingerprint ≠ fingerprint →
    (∃ lost, received.outcome = .decayed lost ∧ received.cell.fingerprint = c.fingerprint ∧
      received.cell.counter.toNat = c.counter.toNat - lost ∧ lost < c.counter.toNat ∧
      lost ≤ increment.toNat) ∨
    received.outcome = .replaced ∧ received.cell = ⟨fingerprint, increment⟩ ∧
      c.counter ≤ increment

/-- Whatever becomes of a count, the cell is not empty afterwards. -/
theorem one_le_counter_receive (gap : GapSource σ) (c : Cell) (fingerprint : UInt32)
    {increment : UInt32} (hincrement : increment ≠ 0) (s : σ) :
    1 ≤ (c.receive gap fingerprint increment s).cell.counter.toNat := by
  have hcounter := (change_receive gap c fingerprint increment s).counter_ne_zero hincrement
  exact Nat.pos_of_ne_zero fun hzero => hcounter (UInt32.toNat_inj.mp hzero)

theorem accounts_inserted {increment : UInt32} (hempty : c.isEmpty = true)
    (hincrement : increment ≠ 0) (s : σ) :
    c.Accounts fingerprint increment gap s (c.receive gap fingerprint increment s) := by
  have hfull : c.isEmpty ≠ false := by simp [hempty]
  have hcounter := one_le_counter_receive gap c fingerprint hincrement s
  rw [receive, if_pos hempty] at hcounter ⊢
  exact {
    counter_pos := hcounter
    inserted := ⟨fun _ => hempty, fun _ => rfl⟩
    cell_inserted := fun _ => rfl
    reinforced := ⟨nofun, fun h => absurd h.1 hfull⟩
    cell_reinforced := fun h => absurd h hfull
    ends := fun h => absurd h hfull
    contested := fun h => absurd h hfull }

theorem accounts_reinforced (hempty : c.isEmpty = false) (hown : c.fingerprint = fingerprint)
    {increment : UInt32} (hincrement : increment ≠ 0) (s : σ) :
    c.Accounts fingerprint increment gap s (c.receive gap fingerprint increment s) := by
  have hnot : c.isEmpty ≠ true := Bool.eq_false_iff.mp hempty
  have hcounter := one_le_counter_receive gap c fingerprint hincrement s
  have hsum : (saturatingSum c.counter increment).toNat =
      min maxWord32 (c.counter.toNat + increment.toNat) := by
    rw [toNat_saturatingSum]
    exact Nat.min_comm _ _
  rw [receive, if_neg hnot, if_pos hown] at hcounter ⊢
  exact {
    counter_pos := hcounter
    inserted := ⟨nofun, fun h => absurd h hnot⟩
    cell_inserted := fun h => absurd h hnot
    reinforced := ⟨fun _ => ⟨hempty, hown⟩, fun _ => rfl⟩
    cell_reinforced := fun _ _ => ⟨hown, hsum⟩
    ends := fun _ h => absurd hown h
    contested := fun _ h => absurd hown h }

theorem accounts_contested (hgap : gap.Positive) (hempty : c.isEmpty = false)
    (hforeign : c.fingerprint ≠ fingerprint) {increment : UInt32} (hincrement : increment ≠ 0)
    (s : σ) : c.Accounts fingerprint increment gap s (c.receive gap fingerprint increment s) := by
  obtain ⟨lost, left, herosion, houtcome, hcell⟩ :=
    erosion_receive gap hempty hforeign increment s
  have hsum := herosion.lost_add_left
  have hlost := herosion.lost_le hgap
  have hnot : c.isEmpty ≠ true := Bool.eq_false_iff.mp hempty
  have hother : (c.receive gap fingerprint increment s).outcome ≠ .inserted ∧
      (c.receive gap fingerprint increment s).outcome ≠ .reinforced := by
    rw [houtcome]
    split <;> exact ⟨nofun, nofun⟩
  refine {
    counter_pos := one_le_counter_receive gap c fingerprint hincrement s
    inserted := ⟨fun h => absurd h hother.1, fun h => absurd h hnot⟩
    cell_inserted := fun h => absurd h hnot
    reinforced := ⟨fun h => absurd h hother.2, fun h => absurd h.2 hforeign⟩
    cell_reinforced := fun _ h => absurd h hforeign
    ends := fun _ _ => ⟨lost, left, herosion, by omega, hlost⟩
    contested := fun _ _ => ?_ }
  by_cases hleft : left = 0
  · rw [if_pos hleft] at houtcome hcell
    exact .inr ⟨houtcome, hcell, UInt32.le_iff_toNat_le.mpr (by omega)⟩
  · rw [if_neg hleft] at houtcome hcell
    have hword := c.counter.toNat_lt
    have hcounter : (c.receive gap fingerprint increment s).cell.counter.toNat = left := by
      rw [hcell]
      exact UInt32.toNat_ofNat_of_lt' (by show left < 2 ^ 32; omega)
    exact .inl ⟨lost, houtcome, by rw [hcell], by omega, by omega, hlost⟩

/-- Random gaps are never empty, and for every source of such gaps the accounts of a count that a cell
receives are in order. -/
theorem receive_accounts :
    (∀ (num : Numerics) (base : Float), (num.gap base).Positive) ∧
    ∀ {σ : Type} (gap : GapSource σ), gap.Positive →
      ∀ (c : Cell) (fingerprint increment : UInt32), increment ≠ 0 → ∀ s : σ,
        c.Accounts fingerprint increment gap s (c.receive gap fingerprint increment s) := by
  refine ⟨fun num base => num.positive_gapOf (num.decayProbability base), ?_⟩
  intro σ gap hgap c fingerprint increment hincrement s
  cases hempty : c.isEmpty with
  | true => exact accounts_inserted hempty hincrement s
  | false =>
      by_cases hown : c.fingerprint = fingerprint
      · exact accounts_reinforced hempty hown hincrement s
      · exact accounts_contested hgap hempty hown hincrement s

/-- Gaps from a list, each of them one more than the number listed there. -/
def listedGaps : GapSource (List Nat)
  | _, [] => (none, [])
  | _, n :: rest => (some (n + 1), rest)

/-- Of four units a gap of two takes one from a counter of three, and the next gap is too long; of
three units three gaps take all of it. -/
theorem receive_accounts_listedGaps :
    listedGaps.Positive ∧ (3 : UInt32) ≠ 0 ∧
      (Cell.receive listedGaps ⟨7, 3⟩ 42 4 [1, 2]).outcome = .decayed 1 ∧
      (Cell.receive listedGaps ⟨7, 3⟩ 42 4 [1, 2]).cell = ⟨7, 2⟩ ∧
      (Cell.receive listedGaps ⟨7, 3⟩ 42 3 [0, 0, 0]).outcome = .replaced ∧
      (Cell.mk 7 3).Accounts 42 4 listedGaps [1, 2] (Cell.receive listedGaps ⟨7, 3⟩ 42 4 [1, 2]) ∧
      (Cell.mk 7 3).Accounts 42 3 listedGaps [0, 0, 0]
        (Cell.receive listedGaps ⟨7, 3⟩ 42 3 [0, 0, 0]) := by
  have hgaps : listedGaps.Positive := by
    intro counter s g t hgap
    cases s with
    | nil => cases hgap
    | cons n rest =>
        cases hgap
        exact Nat.le_add_left 1 n
  exact ⟨hgaps, by decide, by decide, by decide, by decide,
    receive_accounts.2 listedGaps hgaps ⟨7, 3⟩ 42 4 (by decide) [1, 2],
    receive_accounts.2 listedGaps hgaps ⟨7, 3⟩ 42 3 (by decide) [0, 0, 0]⟩

end Cell

end FlowSketch
