import FlowSketch.Proofs.Leaderboard.Ageing
import FlowSketch.Proofs.Sketch.RoundTrip

/-!
# FlowSketch.Proofs.Sketch.Ageing

**A sketch that was read back ages like the one that was written, but for new ties.** An image does
not hold the ages of the listed keys; reading it back numbers them anew by rank. As long as nothing
is scaled this does not show. When ageing brings different estimates together, the sketch that was
written puts the key that was admitted last in front, and the one that was read back the key that
was heavier. `reloaded_decay` says that this is all: parameters, cells, number of recordings, every
estimate and the listed keys with their estimates stay the same, the sketch that was read back keeps
the order it was written in, and the two are written as the same bytes if and only if the other one
keeps that order too.
-/

namespace FlowSketch.Sketch

variable {num : Numerics} {s : Sketch}

/-- Ageing a number of times scales the grid and the leaderboard as often. -/
theorem iterate_decay (num : Numerics) (n : Nat) (s : Sketch) :
    (decay num)^[n] s =
      { s with
        grid := (Grid.attenuate (num.scale (1.0 / decayBase)))^[n] s.grid
        board := (Leaderboard.decay (num.scale (1.0 / decayBase)))^[n] s.board } := by
  induction n generalizing s with
  | zero => rfl
  | succ n ih =>
      rw [Function.iterate_succ_apply, ih]
      rfl

theorem Reachable.iterate_decay (hs : Reachable num s) (n : Nat) :
    Reachable num ((Sketch.decay num)^[n] s) := by
  induction n generalizing s with
  | zero => exact hs
  | succ n ih => exact ih hs.decay

/-- Sound sketches of one grid, one set of parameters and one number of recordings are written as
the same bytes exactly if they rank the same. -/
theorem toBytes_eq_iff {s s' : Sketch} (hs : s.Sound num) (hs' : s'.Sound num)
    (haccuracy : s'.accuracy = s.accuracy) (hgrid : s'.grid = s.grid) (htotal : s'.total = s.total) :
    s'.toBytes = s.toBytes ↔ s'.topK = s.topK := by
  constructor
  · intro h
    exact congrArg Image.ranking (Image.encode_inj hs'.image_valid hs.image_valid h)
  · intro h
    rw [toBytes, toBytes, image, image, haccuracy, hgrid, htotal, h]

/-- A sketch that is written, read back and aged `n` times shows the same as the one that is just
aged `n` times, but for the order of keys that tie. These stand as they did when the sketch was
written; the bytes are the same if and only if the sketch that was not read back has them stand so
too, and this is so whenever no two keys tie that did not tie at first. -/
theorem reloaded_decay (hs : Reachable num s) (seed : UInt64) (n : Nat) :
    ∃ s', ofBytes num s.toBytes seed = .ok s' ∧
      ((decay num)^[n] s').accuracy = ((decay num)^[n] s).accuracy ∧
      ((decay num)^[n] s').grid = ((decay num)^[n] s).grid ∧
      ((decay num)^[n] s').total = ((decay num)^[n] s).total ∧
      (∀ key, ((decay num)^[n] s').estimate key = ((decay num)^[n] s).estimate key) ∧
      ((decay num)^[n] s').topK.Perm ((decay num)^[n] s).topK ∧
      ((decay num)^[n] s').topK.map Prod.snd = ((decay num)^[n] s).topK.map Prod.snd ∧
      TiesFollow (s.topK.map Prod.fst) ((decay num)^[n] s').topK ∧
      (((decay num)^[n] s').toBytes = ((decay num)^[n] s).toBytes ↔
        TiesFollow (s.topK.map Prod.fst) ((decay num)^[n] s).topK) ∧
      ((∀ x ∈ s.topK, ∀ y ∈ s.topK, ∀ v, (x.1, v) ∈ ((decay num)^[n] s).topK →
          (y.1, v) ∈ ((decay num)^[n] s).topK → x.2 = y.2) →
        ((decay num)^[n] s').toBytes = ((decay num)^[n] s).toBytes) := by
  have hsound := hs.sound
  obtain ⟨board, hboard, hranking⟩ := hsound.refill
  obtain ⟨hfilled, -, -⟩ := Leaderboard.admitAll_slots (Leaderboard.wellFormed_empty _) hboard
  have hread : ofBytes num s.toBytes seed = .ok ⟨s.accuracy, s.grid, board, s.total, .ofSeed seed⟩ :=
    ofBytes_eq_ok.mpr ⟨s.image, board, hsound.image_valid, rfl, hboard, rfl⟩
  have hreloadedSound := ((Reachable.ofBytes hread).iterate_decay n).sound
  have hagedSound := (hs.iterate_decay n).sound
  refine ⟨_, hread, ?_⟩
  rw [iterate_decay] at hagedSound ⊢
  rw [iterate_decay] at hreloadedSound ⊢
  generalize num.scale (1.0 / decayBase) = scale at *
  -- the rankings hold the same, and the one that was filled anew breaks its ties as it was written
  have hperm := Leaderboard.ranking_iterate_decay_perm scale (List.Perm.of_eq hranking) n
  have hties := Leaderboard.tiesFollow_filled s.board.pairwise_ranking hboard scale n
  have hbytes := (toBytes_eq_iff hagedSound hreloadedSound rfl rfl rfl).trans
    (Leaderboard.ranking_eq_iff_tiesFollow hperm hties)
  refine ⟨rfl, rfl, rfl, fun _ => rfl, hperm, Leaderboard.map_snd_ranking_of_perm hperm, hties,
    hbytes, fun hold => hbytes.mpr ?_⟩
  exact hsound.board.tiesFollow_of_old_ties scale n hold

/-! ### A tie that ageing makes -/

/-- Two keys whose estimates differ by one, the heavier one admitted first. -/
def unevenSketch : Sketch :=
  (newSketch.add halfNumerics [1] 14).add halfNumerics [2] 13

theorem reachable_unevenSketch : Reachable halfNumerics unevenSketch :=
  ((Reachable.create create_newSketch).add [1] 14).add [2] 13

/-- After one ageing the two tie, and the sketch that was read back lists them the other way
round. -/
theorem decay_reorders_reloaded :
    Reachable halfNumerics unevenSketch ∧ unevenSketch.topK = [([1], 14), ([2], 13)] ∧
      (unevenSketch.decay halfNumerics).topK = [([2], 12), ([1], 12)] ∧
      ∃ s', ofBytes halfNumerics unevenSketch.toBytes 1 = .ok s' ∧
        (s'.decay halfNumerics).topK = [([1], 12), ([2], 12)] ∧
        (s'.decay halfNumerics).toBytes ≠ (unevenSketch.decay halfNumerics).toBytes := by
  refine ⟨reachable_unevenSketch, by decide +kernel, by decide +kernel, ?_⟩
  have hread : (ofBytes halfNumerics unevenSketch.toBytes 1).toOption.map (fun s' =>
      ((s'.decay halfNumerics).topK,
        (s'.decay halfNumerics).toBytes == (unevenSketch.decay halfNumerics).toBytes)) =
      some ([([1], 12), ([2], 12)], false) := by
    decide +kernel
  cases hreload : ofBytes halfNumerics unevenSketch.toBytes 1 with
  | error cause =>
      rw [hreload] at hread
      cases hread
  | ok s' =>
      rw [hreload] at hread
      obtain ⟨htopK, hbytes⟩ := Prod.mk_inj.mp (Option.some.inj hread)
      exact ⟨s', rfl, htopK, beq_eq_false_iff_ne.mp hbytes⟩

/-- The two sketches show the same estimates after one ageing, and are written as different bytes. -/
theorem reloaded_decay_unevenSketch :
    Reachable halfNumerics unevenSketch ∧
      ∃ s', ofBytes halfNumerics unevenSketch.toBytes 1 = .ok s' ∧
        ((decay halfNumerics)^[1] s').topK.map Prod.snd =
          ((decay halfNumerics)^[1] unevenSketch).topK.map Prod.snd ∧
        ¬ ((decay halfNumerics)^[1] s').toBytes =
          ((decay halfNumerics)^[1] unevenSketch).toBytes := by
  obtain ⟨s', hread, -, -, -, -, -, hestimates, -, hbytes, -⟩ :=
    reloaded_decay reachable_unevenSketch 1 1
  refine ⟨reachable_unevenSketch, s', hread, hestimates, ?_⟩
  rw [hbytes]
  decide +kernel

end FlowSketch.Sketch
