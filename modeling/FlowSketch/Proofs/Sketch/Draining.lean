import FlowSketch.Proofs.Sketch.Ageing
import FlowSketch.Proofs.Sketch.Agreement

/-!
# FlowSketch.Proofs.Sketch.Draining

**Ageing often enough leaves nothing.** No count that is not zero survives an ageing as it is, so a
number that bounds all counters and all listed estimates can be lowered by one with every ageing
(`CountsWithin.decay`). Cells are vacated and entries are dropped at different times, since a listed
estimate may be far from what the cells say, but neither can outlast that number
(`iterate_decay_drains`).

Counts above `2 ^ 53` are no exception, although not every one of them is a float: what the roundings
may add is less than what the factor takes off (`Binary64.scaleWord_decay_lt`).
-/

namespace FlowSketch

/-- A scaling lowers every count but zero. -/
def Lowers (scale : UInt64 → UInt64) : Prop :=
  ∀ v, v ≠ 0 → scale v < v

theorem lowers_decay : Lowers (Numerics.scaleWord (1.0 / decayBase)) :=
  fun _ => Binary64.scaleWord_decay_lt

/-- A counter that has a count loses some of it, or all of it with its cell. -/
theorem Lowers.counter_attenuate_le {scale : UInt64 → UInt64} (hscale : Lowers scale) {c : Cell}
    {n : Nat} (h : c.counter.toNat ≤ n + 1) : (c.attenuate scale).counter.toNat ≤ n := by
  unfold Cell.attenuate
  cases hempty : c.isEmpty with
  | true =>
      rw [if_pos rfl, (Cell.isEmpty_iff c).mp hempty]
      exact Nat.zero_le n
  | false =>
      rw [if_neg Bool.false_ne_true]
      by_cases hzero : Cell.scaleCounter scale c.counter = 0
      · rw [if_pos hzero]
        exact Nat.zero_le n
      · have hword : c.counter.toUInt64 ≠ 0 := fun hnone =>
          Cell.counter_ne_zero hempty (UInt32.toUInt64_inj.mp hnone)
        have hlt := UInt64.lt_iff_toNat_lt.mp (hscale _ hword)
        have hcut := Cell.toNat_scaleCounter scale c.counter
        rw [UInt32.toNat_toUInt64] at hlt
        rw [if_neg hzero]
        show (Cell.scaleCounter scale c.counter).toNat ≤ n
        omega

namespace Sketch

variable {num : Numerics} {s : Sketch} {n : Nat}

/-- No counter and no listed estimate is above a number. -/
structure CountsWithin (s : Sketch) (n : Nat) : Prop where
  cells : ∀ c ∈ s.grid.cells, c.counter.toNat ≤ n
  listed : ∀ x ∈ s.topK, x.2.toNat ≤ n

/-- One ageing lowers the bound by one. -/
theorem CountsWithin.decay (h : s.CountsWithin (n + 1)) (hs : s.Sound num)
    (hscale : Lowers (num.scale (1.0 / decayBase))) : (s.decay num).CountsWithin n where
  cells := by
    intro c hc
    obtain ⟨before, hbefore, rfl⟩ := Array.mem_map.mp hc
    exact hscale.counter_attenuate_le (h.cells before hbefore)
  listed := by
    intro x hx
    obtain ⟨y, hy, -, hscaled, -⟩ := exists_of_mem_decay hx
    have hlt := UInt64.lt_iff_toNat_lt.mp (hscale y.2 (hs.image_valid.records y hy).2)
    have hle := h.listed y hy
    rw [hscaled] at hlt
    omega

/-- A sketch without counts is one that has just been made, but for its number of recordings and its
random stream: all cells are vacant, owners included, and nothing is listed. -/
theorem CountsWithin.drained (h : s.CountsWithin 0) (hs : s.Sound num) :
    s.grid = .empty s.grid.toShape ∧ s.topK = [] := by
  constructor
  · refine hs.grid.isEmpty_iff.mp (Array.all_eq_true'.mpr fun c hc => ?_)
    exact (Cell.isEmpty_iff c).mpr (UInt32.toNat_inj.mp (Nat.le_zero.mp (h.cells c hc)))
  · refine List.eq_nil_iff_forall_not_mem.mpr fun x hx => ?_
    have hzero : x.2 = 0 := UInt64.toNat_inj.mp (Nat.le_zero.mp (h.listed x hx))
    exact (hs.image_valid.records x hx).2 hzero

/-- After as many ageings as the bound says there are no counts. -/
theorem CountsWithin.iterate_decay (h : s.CountsWithin n) (hs : Reachable num s)
    (hscale : Lowers (num.scale (1.0 / decayBase))) :
    ((Sketch.decay num)^[n] s).CountsWithin 0 := by
  induction n generalizing s with
  | zero => exact h
  | succ n ih =>
      rw [Function.iterate_succ_apply]
      exact ih (h.decay hs.sound hscale) hs.decay

/-- The ageing factor lowers every count but zero, on floats and for all words. And whatever else the
real functions are, if they scale like this, then a reachable sketch that is aged at least as many
times as its largest counter and its largest listed estimate say has only vacant cells, lists nothing
and estimates every key at zero; its number of recordings, its parameters and its shape are the same. -/
theorem iterate_decay_drains :
    Lowers (Numerics.scaleWord (1.0 / decayBase)) ∧
    ∀ num : Numerics, Lowers (num.scale (1.0 / decayBase)) → ∀ s, Reachable num s → ∀ n,
      (∀ c ∈ s.grid.cells, c.counter.toNat ≤ n) → (∀ x ∈ s.topK, x.2.toNat ≤ n) →
      ((decay num)^[n] s).grid = .empty s.grid.toShape ∧
      ((decay num)^[n] s).topK = [] ∧
      (∀ key, ((decay num)^[n] s).estimate key = 0) ∧
      ((decay num)^[n] s).total = s.total ∧
      ((decay num)^[n] s).accuracy = s.accuracy := by
  refine ⟨lowers_decay, ?_⟩
  intro num hscale s hs n hcells hlisted
  have hwithin : s.CountsWithin n := ⟨hcells, hlisted⟩
  have haged := hs.iterate_decay n
  obtain ⟨hgrid, htopK⟩ := (hwithin.iterate_decay hs hscale).drained haged.sound
  have haccuracy : ((decay num)^[n] s).accuracy = s.accuracy := by
    rw [Sketch.iterate_decay]
  rw [(haged.sound.agrees hs.sound haccuracy).1] at hgrid
  refine ⟨hgrid, htopK, fun key => ?_, ?_, haccuracy⟩
  · rw [Sketch.estimate, hgrid]
    exact Grid.estimate_of_replicate rfl key
  · rw [Sketch.iterate_decay]

/-- Two keys with three occurrences each are gone after three ageings, which their two recordings
outlast. -/
theorem iterate_decay_drains_tiedSketch :
    Reachable halfNumerics tiedSketch ∧ tiedSketch.topK = [([2], 3), ([1], 3)] ∧
      ((decay halfNumerics)^[3] tiedSketch).topK = [] ∧
      ((decay halfNumerics)^[3] tiedSketch).estimate [1] = 0 ∧
      ((decay halfNumerics)^[3] tiedSketch).total = 2 := by
  obtain ⟨-, htopK, hestimate, htotal, -⟩ := iterate_decay_drains.2 halfNumerics lowers_decay
    tiedSketch reachable_tiedSketch 3 (by decide +kernel) (by decide +kernel)
  have htied : tiedSketch.topK = [([2], 3), ([1], 3)] := by decide +kernel
  exact ⟨reachable_tiedSketch, htied, htopK, hestimate [1], htotal⟩

end Sketch

end FlowSketch
