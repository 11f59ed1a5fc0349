import FlowSketch.Proofs.Grid.Recording

/-!
# FlowSketch.Proofs.Grid.Winning

**A key can lose by winning.** Recording a key adds to every cell that is the key's own. A cell that is
won from another key is a new own cell, and it shows the increment alone, whatever the key's other cells
have counted. The estimate is the least count of all own cells, so after a win it is the increment, which
may be less than before (`Receives.estimate_of_wins`). Without a win the own cells are the same, none of
them shows less, and the estimate does not fall (`Receives.estimate_le`).
-/

namespace FlowSketch

open Cell (saturatingSum)

theorem Cell.le_saturatingSum (m n : UInt32) : m ≤ saturatingSum m n ∧ n ≤ saturatingSum m n := by
  have hm := m.toNat_lt
  have hn := n.toNat_lt
  rw [UInt32.le_iff_toNat_le, UInt32.le_iff_toNat_le, toNat_saturatingSum]
  omega

/-! ### One place -/

/-- What a key reads at one of its places before and after a count of it has arrived there. -/
inductive Reading.Receives (increment : UInt32) : Reading → Reading → Prop where
  | filled : Receives increment .vacant (.own increment)
  | added (n : UInt32) : Receives increment (.own n) (.own (saturatingSum n increment))
  | missed : Receives increment .foreign .foreign
  | won : Receives increment .foreign (.own increment)

namespace Reading.Receives

variable {increment n : UInt32} {before after : Reading}

theorem ne_vacant (h : Receives increment before after) : after ≠ .vacant := by
  cases h <;> exact Reading.noConfusion

/-- An own cell shows the increment at least. -/
theorem increment_le (h : Receives increment before (.own n)) : increment ≤ n := by
  cases h with
  | filled => exact UInt32.le_refl _
  | added m => exact (Cell.le_saturatingSum m increment).2
  | won => exact UInt32.le_refl _

/-- An own cell stays one. -/
theorem exists_own (h : Receives increment (.own n) after) : ∃ m, after = .own m := by
  cases h with
  | added => exact ⟨_, rfl⟩

/-- A cell that is won shows the increment. -/
theorem eq_increment (h : Receives increment .foreign (.own n)) : n = increment := by
  cases h with
  | won => rfl

/-- An own cell that was neither vacant nor another key's shows what it did before at least. -/
theorem exists_le (h : Receives increment before (.own n)) (hvacant : before ≠ .vacant)
    (hforeign : before ≠ .foreign) : ∃ m, before = .own m ∧ m ≤ n := by
  cases h with
  | filled => exact absurd rfl hvacant
  | added m => exact ⟨m, rfl, (Cell.le_saturatingSum m increment).1⟩
  | won => exact absurd rfl hforeign

end Reading.Receives

/-- Each of the four effects on a cell is one of the four on what it says about the key. -/
theorem Cell.Change.receives {c after : Cell} {fingerprint increment : UInt32} {outcome : Outcome}
    (h : c.Change fingerprint increment outcome after) (hinc : increment ≠ 0) :
    Reading.Receives increment (c.read fingerprint) (after.read fingerprint) := by
  have hfull : after.isEmpty = false := by
    rw [Bool.eq_false_iff, ne_eq, isEmpty_iff]
    exact h.counter_ne_zero hinc
  unfold Cell.read
  rw [hfull, if_neg Bool.false_ne_true]
  cases h with
  | inserted hempty =>
      rw [hempty, if_pos rfl, if_pos rfl]
      exact .filled
  | reinforced hempty hown =>
      rw [hempty, if_neg Bool.false_ne_true, if_pos hown, if_pos hown]
      exact .added _
  | decayed left hempty hforeign _ _ =>
      rw [hempty, if_neg Bool.false_ne_true, if_neg hforeign, if_neg hforeign]
      exact .missed
  | replaced hempty hforeign =>
      rw [hempty, if_neg Bool.false_ne_true, if_neg hforeign, if_pos rfl]
      exact .won

namespace Grid

variable {g after : Grid} {key : Key} {increment : UInt32}

/-! ### All places -/

/-- A grid before and after a count of a key has arrived at all places of the key. -/
structure Receives (g : Grid) (key : Key) (increment : UInt32) (after : Grid) : Prop where
  depth : after.depth = g.depth
  rows : ∀ row, row < g.depth →
    Reading.Receives increment (g.reading key row) (after.reading key row)

/-- A cell of another key has become one of this key. -/
def Wins (g : Grid) (key : Key) (after : Grid) : Prop :=
  ∃ row, row < g.depth ∧ g.reading key row = .foreign ∧ ∃ n, after.reading key row = .own n

theorem Sound.receives_record {σ : Type} (hg : g.Sound) (hwidth : g.width ≠ 0) (gap : GapSource σ)
    (key : Key) (hinc : increment ≠ 0) (s : σ) :
    g.Receives key increment (g.record gap key increment s).grid where
  depth := congrArg Shape.depth (toShape_recordRows ..)
  rows := by
    intro row hrow
    obtain ⟨states, -, hcells⟩ := hg.cells_record hwidth gap key increment s
    obtain ⟨outcome, hchange⟩ := change_receivedAt gap key increment g row (states row)
    have hafter : (g.record gap key increment s).grid.reading key row =
        (receivedAt gap key increment g row (states row)).read (g.locate key row).fingerprint := by
      rw [reading, locate_record, hcells row hrow, Option.getD_some]
    rw [hafter]
    exact hchange.receives hinc

namespace Receives

/-- No place is left vacant. -/
theorem taken (h : g.Receives key increment after) (row : Nat) (hrow : row < after.depth) :
    after.reading key row ≠ .vacant :=
  (h.rows row (h.depth ▸ hrow)).ne_vacant

/-- After a win the estimate is the increment. -/
theorem estimate_of_wins (h : g.Receives key increment after) (hinc : increment ≠ 0)
    (hwins : g.Wins key after) : after.estimate key = increment.toUInt64 := by
  obtain ⟨place, hplace, hforeign, n, hwon⟩ := hwins
  have hreceives := h.rows place hplace
  rw [hforeign, hwon] at hreceives
  rw [hreceives.eq_increment] at hwon
  rw [← h.depth] at hplace
  have hlow : increment.toUInt64 ≤ after.estimate key := by
    refine le_estimate h.taken ⟨place, increment, hplace, hwon⟩ fun row m hrow hown => ?_
    exact (hown ▸ h.rows row (h.depth ▸ hrow)).increment_le
  have hpositive : after.estimate key ≠ 0 := by
    intro hzero
    rw [hzero, UInt64.le_zero_iff] at hlow
    exact hinc (UInt32.toUInt64_inj.mp hlow)
  obtain ⟨least, -, hleast, -, hle⟩ := exists_least hpositive
  refine UInt64.le_antisymm ?_ hlow
  rw [hleast]
  exact UInt32.toUInt64_le.mpr (hle place increment hplace hwon)

/-- Without a win the estimate does not fall. -/
theorem estimate_le (h : g.Receives key increment after) (hwins : ¬ g.Wins key after) :
    g.estimate key ≤ after.estimate key := by
  by_cases hzero : g.estimate key = 0
  · rw [hzero]
    exact UInt64.zero_le
  · obtain ⟨least, -, hleast, ⟨place, hplace, hown⟩, hle⟩ := exists_least hzero
    rw [hleast]
    refine le_estimate h.taken ?_ fun row n hrow hafter => ?_
    · obtain ⟨m, hm⟩ := (hown ▸ h.rows place hplace).exists_own
      exact ⟨place, m, h.depth ▸ hplace, hm⟩
    · -- the cell was the key's own before, since none was vacant and none was won
      rw [h.depth] at hrow
      obtain ⟨m, hbefore, hm⟩ := (hafter ▸ h.rows row hrow).exists_le (reading_ne_vacant hzero hrow)
        fun hforeign => hwins ⟨row, hrow, hforeign, n, hafter⟩
      exact UInt32.le_trans (hle row m hrow hbefore) hm

end Receives

/-! ### The estimate -/

/-- What recording a key does to its estimate: it falls if a cell is won and the increment is less
than before, to the increment, and not otherwise. -/
structure FallsByWinning (g : Grid) (key : Key) (increment : UInt32) (after : Grid) : Prop where
  won : g.Wins key after → after.estimate key = increment.toUInt64
  falls_iff : after.estimate key < g.estimate key ↔
    g.Wins key after ∧ increment.toUInt64 < g.estimate key

theorem Receives.fallsByWinning (h : g.Receives key increment after) (hinc : increment ≠ 0) :
    g.FallsByWinning key increment after := by
  by_cases hwins : g.Wins key after
  · have hestimate := h.estimate_of_wins hinc hwins
    refine ⟨fun _ => hestimate, ?_⟩
    rw [hestimate]
    exact ⟨fun hlt => ⟨hwins, hlt⟩, fun hboth => hboth.2⟩
  · have hle := h.estimate_le hwins
    refine ⟨fun hwon => absurd hwon hwins, ?_⟩
    exact ⟨fun hlt => absurd hlt (UInt64.not_lt.mpr hle), fun hboth => absurd hboth.1 hwins⟩

end Grid

end FlowSketch
